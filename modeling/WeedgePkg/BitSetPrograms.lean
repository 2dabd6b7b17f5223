import WeedgePkg.BitSetShifts
import WeedgePkg.FinBits

/-!
# Programs over bit sets

A program keeps `*BitSet` values in variables and calls the methods of `BitSet` on them. Every
method that makes a set (`NewBitSet`, `And`, `Or`, `Xor`, `Not`, `Diff`, `Clone`) makes a new
one, and `Set`, `InPlaceDiff` and the shifts change their receiver; no statement copies a
pointer, so no two variables share a set. A variable that holds no set is a nil pointer, and a
method called on it panics.

A clean bit set stands for a `FinBits`, and a program's run over bit sets refines its run over
`FinBits`: while every shift stays within its set and `Not` is taken only of sets of whole
words, no method panics, and every variable's set, with its `Count()` and `Get`, is the one the
variable holds in the run over `FinBits`.
-/

namespace WeedgePkg.Container

/-- Why a program stops: a panic of a method, or a method called on a nil set. -/
inductive Fault where
  | panic (p : Panic)
  | null
  deriving DecidableEq, Repr

/-- A statement over bit set variables `ν`: `x = NewBitSet(len)`, `x.Set(pos, value)`,
`x = y.And(z)`, `Or`, `Xor`, `x = y.Not()`, `x = y.Diff(z)`, `x.InPlaceDiff(y)`,
`x = y.Clone()`, `x.LeftShift(n)` and `x.RightShift(n)`. -/
inductive Stmt (ν : Type) where
  | new (x : ν) (len : UInt64)
  | set (x : ν) (pos : UInt64) (value : ℤ)
  | and (x y z : ν)
  | or (x y z : ν)
  | xor (x y z : ν)
  | not (x y : ν)
  | diff (x y z : ν)
  | inPlaceDiff (x y : ν)
  | clone (x y : ν)
  | leftShift (x : ν) (n : ℤ)
  | rightShift (x : ν) (n : ℤ)

variable {ν : Type} [DecidableEq ν]

/-! ## Runs over bit sets -/

/-- The set variable `x` points to; a method on a nil pointer panics. -/
def load (s : ν → Option BitSet) (x : ν) : Except Fault BitSet :=
  match s x with
  | some b => .ok b
  | none => .error .null

/-- `x = f(y, z)` for a method `f` of `y` with argument `z`; `x` may be `y`. -/
def assignBinary (f : BitSet → BitSet → BitSet) (x y z : ν) (s : ν → Option BitSet) :
    Except Fault (ν → Option BitSet) := do
  let a ← load s y
  let b ← load s z
  pure (Function.update s x (some (f a b)))

/-- `x = f(y)` for a method `f` of `y` that may panic; `x` may be `y`. -/
def assignUnary (f : BitSet → Except Panic BitSet) (x y : ν) (s : ν → Option BitSet) :
    Except Fault (ν → Option BitSet) := do
  let a ← load s y
  let b ← (f a).mapError .panic
  pure (Function.update s x (some b))

def Stmt.exec : Stmt ν → (ν → Option BitSet) → Except Fault (ν → Option BitSet)
  | .new x len, s => .ok (Function.update s x (some (newBitSet len)))
  | .set x pos value, s => assignUnary (fun b => .ok (b.set pos value).1) x x s
  | .and x y z, s => assignBinary BitSet.and x y z s
  | .or x y z, s => assignBinary BitSet.or x y z s
  | .xor x y z, s => assignBinary BitSet.xor x y z s
  | .not x y, s => assignUnary (fun b => .ok b.not) x y s
  | .diff x y z, s => assignBinary BitSet.diff x y z s
  | .inPlaceDiff x y, s => assignBinary BitSet.inPlaceDiff x x y s
  | .clone x y, s => assignUnary (fun b => .ok b.clone) x y s
  | .leftShift x n, s => assignUnary (·.leftShift n) x x s
  | .rightShift x n, s => assignUnary (·.rightShift n) x x s

def run : List (Stmt ν) → (ν → Option BitSet) → Except Fault (ν → Option BitSet)
  | [], s => .ok s
  | st :: prog, s => st.exec s >>= run prog

/-! ## Runs over `FinBits`

`none` is a run that leaves what `FinBits` describes: a nil variable, a shift by a negative
count, of a set with no word or by more words than the set has, where the method panics, and
`Not` of a set whose last word is partial, where it sets bits past the length. -/

/-- The counts a shift of a set of length `len` takes without panicking. -/
def ShiftInRange (len : ℕ) (n : ℤ) : Prop := 0 ≤ n ∧ 0 < len ∧ n / 64 ≤ ((len + 63) / 64 : ℕ)

instance (len : ℕ) (n : ℤ) : Decidable (ShiftInRange len n) := inferInstanceAs (Decidable (_ ∧ _ ∧ _))

/-- What `Set(pos, value)` does to the positions. -/
def setValue (a : FinBits) (pos : ℕ) (value : ℤ) : FinBits :=
  if value = 1 then a.update pos true else if value = 0 then a.update pos false else a

@[simp] theorem setValue_len (a : FinBits) (pos : ℕ) (value : ℤ) : (setValue a pos value).len = a.len := by
  unfold setValue
  split_ifs <;> simp

def absBinary (f : FinBits → FinBits → FinBits) (x y z : ν) (t : ν → Option FinBits) :
    Option (ν → Option FinBits) := do
  let a ← t y
  let b ← t z
  pure (Function.update t x (some (f a b)))

/-- `x = f(y)` where the guard `g` holds of `y`'s set. -/
def absUnary (g : FinBits → Prop) [DecidablePred g] (f : FinBits → FinBits) (x y : ν)
    (t : ν → Option FinBits) : Option (ν → Option FinBits) := do
  let a ← t y
  if g a then pure (Function.update t x (some (f a))) else none

def Stmt.absExec : Stmt ν → (ν → Option FinBits) → Option (ν → Option FinBits)
  | .new x len, t => some (Function.update t x (some (FinBits.empty len.toNat)))
  | .set x pos value, t => absUnary (fun _ => True) (setValue · pos.toNat value) x x t
  | .and x y z, t => absBinary FinBits.inter x y z t
  | .or x y z, t => absBinary FinBits.union x y z t
  | .xor x y z, t => absBinary FinBits.symmDiff x y z t
  | .not x y, t => absUnary (·.len % 64 = 0) FinBits.compl x y t
  | .diff x y z, t => absBinary FinBits.sdiff x y z t
  | .inPlaceDiff x y, t => absBinary FinBits.sdiff x x y t
  | .clone x y, t => absUnary (fun _ => True) id x y t
  | .leftShift x n, t => absUnary (ShiftInRange ·.len n) (·.shiftUp n.toNat) x x t
  | .rightShift x n, t => absUnary (ShiftInRange ·.len n) (·.shiftDown n.toNat) x x t

def absRun : List (Stmt ν) → (ν → Option FinBits) → Option (ν → Option FinBits)
  | [], t => some t
  | st :: prog, t => st.absExec t >>= absRun prog

/-! ## A bit set and the positions it stands for -/

/-- `b` stands for `a`: no bit past the length, the same length and the same positions. -/
structure Represents (b : BitSet) (a : FinBits) : Prop where
  clean : b.Clean
  len_eq : b.len.toNat = a.len
  alpha_eq : b.alpha = a.elems

namespace Represents

variable {b c : BitSet} {a a' : FinBits}

theorem new (len : UInt64) : Represents (newBitSet len) (FinBits.empty len.toNat) :=
  ⟨newBitSet_clean len, rfl, newBitSet_alpha len⟩

theorem set (h : Represents b a) (pos : UInt64) (value : ℤ) :
    Represents (b.set pos value).1 (setValue a pos.toNat value) := by
  have hpos : pos < b.len ↔ pos.toNat < a.len := by rw [UInt64.lt_iff_toNat_lt, h.len_eq]
  by_cases hvalid : pos < b.len ∧ (value = 0 ∨ value = 1)
  · obtain ⟨hlt, hv⟩ := hvalid
    refine ⟨h.clean.set pos value, by rw [BitSet.set_len, h.len_eq, setValue_len], ?_⟩
    rw [BitSet.alpha_set hlt hv, h.alpha_eq]
    rcases hv with rfl | rfl
    · simp [setValue, FinBits.update, hpos.mp hlt]
    · simp [setValue, FinBits.update, hpos.mp hlt]
  · rw [BitSet.set_of_invalid hvalid]
    have hsame : setValue a pos.toNat value = a := by
      rw [hpos, not_and] at hvalid
      unfold setValue FinBits.update
      by_cases hlt : pos.toNat < a.len
      · have hv := hvalid hlt
        rw [if_neg fun e => hv (.inr e), if_neg fun e => hv (.inl e)]
      · simp only [dif_neg hlt, ite_self]
    rw [hsame]
    exact h

theorem and (h : Represents b a) (h' : Represents c a') : Represents (b.and c) (a.inter a') :=
  ⟨h.clean.and c, by rw [BitSet.and, combine_len_toNat, h.len_eq, h'.len_eq]; rfl,
    by rw [BitSet.alpha_and h.clean h'.clean, h.alpha_eq, h'.alpha_eq]; rfl⟩

theorem or (h : Represents b a) (h' : Represents c a') : Represents (b.or c) (a.union a') :=
  ⟨h.clean.or h'.clean, by rw [BitSet.or, combine_len_toNat, h.len_eq, h'.len_eq]; rfl,
    by rw [BitSet.alpha_or h.clean h'.clean, h.alpha_eq, h'.alpha_eq]; rfl⟩

theorem xor (h : Represents b a) (h' : Represents c a') : Represents (b.xor c) (a.symmDiff a') :=
  ⟨h.clean.xor h'.clean, by rw [BitSet.xor, combine_len_toNat, h.len_eq, h'.len_eq]; rfl,
    by rw [BitSet.alpha_xor h.clean h'.clean, h.alpha_eq, h'.alpha_eq]; rfl⟩

theorem diff (h : Represents b a) (h' : Represents c a') : Represents (b.diff c) (a.sdiff a') :=
  ⟨h.clean.diff c, by rw [BitSet.diff_len, h.len_eq]; rfl,
    by rw [BitSet.alpha_diff h'.clean, h.alpha_eq, h'.alpha_eq]; rfl⟩

theorem inPlaceDiff (h : Represents b a) (h' : Represents c a') : Represents (b.inPlaceDiff c) (a.sdiff a') :=
  ⟨h.clean.inPlaceDiff c, by rw [BitSet.inPlaceDiff_len, h.len_eq]; rfl,
    by rw [BitSet.alpha_inPlaceDiff h'.clean, h.alpha_eq, h'.alpha_eq]; rfl⟩

/-- `Not` of a set of whole words; on a partial last word it sets bits past the length. -/
theorem not (h : Represents b a) (hlen : a.len % 64 = 0) : Represents b.not a.compl :=
  ⟨(BitSet.not_clean_iff h.clean).mpr (h.len_eq ▸ hlen), by rw [BitSet.not_len, h.len_eq]; rfl,
    by rw [BitSet.alpha_not, h.alpha_eq, h.len_eq]; rfl⟩

theorem clone (h : Represents b a) : Represents b.clone a :=
  ⟨fun p hp => h.clean p hp, h.len_eq, by rw [← h.alpha_eq]; exact BitSet.alpha_eq_of_bit rfl fun p _ => rfl⟩

theorem size_pos_iff (h : Represents b a) : 0 < b.size ↔ 0 < a.len := by
  rw [b.size_eq, wordCount_toNat, ← h.len_eq]
  omega

theorem size_eq (h : Represents b a) : (b.size : ℤ) = ((a.len + 63) / 64 : ℕ) := by
  rw [b.size_eq, wordCount_toNat, h.len_eq]

theorem leftShift (h : Represents b a) {n : ℤ} (hn : ShiftInRange a.len n) :
    ∃ b', b.leftShift n = .ok b' ∧ Represents b' (a.shiftUp n.toNat) := by
  obtain ⟨hn0, hlen, hle⟩ := hn
  obtain ⟨b', hb', hlen', hclean, halpha⟩ :=
    BitSet.leftShift_alpha hn0 (h.size_pos_iff.mpr hlen) (by rw [h.size_eq]; exact hle)
  exact ⟨b', hb', hclean, by rw [hlen', h.len_eq]; rfl, by rw [halpha, h.alpha_eq, h.len_eq]; rfl⟩

theorem rightShift (h : Represents b a) {n : ℤ} (hn : ShiftInRange a.len n) :
    ∃ b', b.rightShift n = .ok b' ∧ Represents b' (a.shiftDown n.toNat) := by
  obtain ⟨hn0, hlen, hle⟩ := hn
  obtain ⟨b', hb', hlen', hclean, halpha⟩ :=
    BitSet.rightShift_alpha h.clean hn0 (h.size_pos_iff.mpr hlen) (by rw [h.size_eq]; exact hle)
  exact ⟨b', hb', hclean, by rw [hlen', h.len_eq]; rfl, by rw [halpha, h.alpha_eq]; rfl⟩

theorem count (h : Represents b a) : b.count.toNat = a.elems.card := by
  rw [h.clean.count_eq_card, h.alpha_eq]

theorem get (h : Represents b a) {pos : UInt64} (hpos : pos.toNat < a.len) :
    b.get pos = if pos.toNat ∈ a.elems then 1 else 0 := by
  have hlt : pos < b.len := UInt64.lt_iff_toNat_lt.mpr (h.len_eq ▸ hpos)
  have hmem : pos.toNat ∈ a.elems ↔ b.bit pos.toNat = true := by
    rw [← h.alpha_eq, BitSet.mem_alpha]
    exact and_iff_right (h.len_eq ▸ hpos)
  rw [BitSet.get_of_lt hlt]
  by_cases hbit : b.bit pos.toNat = true
  · rw [if_pos hbit, if_pos (hmem.mpr hbit)]
  · rw [if_neg hbit, if_neg (mt hmem.mp hbit)]

end Represents

/-! ## Runs -/

/-- Each variable holds a set in both runs or in neither, and the two stand for each other. -/
def StoreRep (s : ν → Option BitSet) (t : ν → Option FinBits) : Prop :=
  ∀ x, Option.Rel Represents (s x) (t x)

omit [DecidableEq ν] in
theorem storeRep_init : StoreRep (fun _ : ν => none) (fun _ => none) := fun _ => .none

namespace StoreRep

open CountedLoop

variable {s : ν → Option BitSet} {t t' : ν → Option FinBits}

omit [DecidableEq ν] in
theorem load (h : StoreRep s t) {x : ν} {a : FinBits} (hx : t x = some a) :
    ∃ b, Container.load s x = .ok b ∧ Represents b a := by
  obtain ⟨b, hb, hrep⟩ : ∃ b, s x = some b ∧ Represents b a := by
    have hrel := h x
    rw [hx] at hrel
    generalize s x = o at hrel
    cases hrel with
    | some hr => exact ⟨_, rfl, hr⟩
  exact ⟨b, by rw [Container.load, hb], hrep⟩

theorem update (h : StoreRep s t) (x : ν) {b : BitSet} {a : FinBits} (hb : Represents b a) :
    StoreRep (Function.update s x (some b)) (Function.update t x (some a)) := fun y => by
  by_cases hy : y = x
  · subst hy
    rw [Function.update_self, Function.update_self]
    exact .some hb
  · rw [Function.update_of_ne hy, Function.update_of_ne hy]
    exact h y

/-- A method that makes a set from two, where the abstract operation `g` stands for it. -/
theorem assignBinary {f : BitSet → BitSet → BitSet} {g : FinBits → FinBits → FinBits}
    (hf : ∀ {b c a a'}, Represents b a → Represents c a' → Represents (f b c) (g a a'))
    (h : StoreRep s t) {x y z : ν} (ht : absBinary g x y z t = some t') :
    ∃ s', assignBinary f x y z s = .ok s' ∧ StoreRep s' t' := by
  simp only [absBinary, Option.bind_eq_bind, Option.bind_eq_some_iff, Option.pure_def, Option.some.injEq] at ht
  obtain ⟨a, hy, a', hz, rfl⟩ := ht
  obtain ⟨b, hb, hrb⟩ := h.load hy
  obtain ⟨c, hc, hrc⟩ := h.load hz
  exact ⟨_, by rw [Container.assignBinary, hb, ok_bind, hc, ok_bind]; rfl, h.update x (hf hrb hrc)⟩

/-- A method that may panic, where it runs without a panic on the sets the guard `g` admits. -/
theorem assignUnary {f : BitSet → Except Panic BitSet} {g : FinBits → Prop} [DecidablePred g]
    {f' : FinBits → FinBits} (hf : ∀ {b a}, Represents b a → g a → ∃ b', f b = .ok b' ∧ Represents b' (f' a))
    (h : StoreRep s t) {x y : ν} (ht : absUnary g f' x y t = some t') :
    ∃ s', assignUnary f x y s = .ok s' ∧ StoreRep s' t' := by
  simp only [absUnary, Option.bind_eq_bind, Option.bind_eq_some_iff] at ht
  obtain ⟨a, hy, hguard⟩ := ht
  obtain ⟨hg, rfl⟩ : g a ∧ Function.update t x (some (f' a)) = t' := by
    split_ifs at hguard with hg
    · exact ⟨hg, Option.some.inj hguard⟩
  obtain ⟨b, hb, hrb⟩ := h.load hy
  obtain ⟨b', hb', hrb'⟩ := hf hrb hg
  exact ⟨_, by rw [Container.assignUnary, hb, ok_bind, hb']; rfl, h.update x hrb'⟩

/-- One statement: what the run over `FinBits` does, the code does without a panic. -/
theorem exec (h : StoreRep s t) {st : Stmt ν} (ht : st.absExec t = some t') :
    ∃ s', st.exec s = .ok s' ∧ StoreRep s' t' := by
  cases st with
  | new x len =>
    obtain rfl := Option.some.inj ht
    exact ⟨_, rfl, h.update x (Represents.new len)⟩
  | set x pos value => exact h.assignUnary (fun hr _ => ⟨_, rfl, hr.set pos value⟩) ht
  | and x y z => exact h.assignBinary Represents.and ht
  | or x y z => exact h.assignBinary Represents.or ht
  | xor x y z => exact h.assignBinary Represents.xor ht
  | not x y => exact h.assignUnary (fun hr hg => ⟨_, rfl, hr.not hg⟩) ht
  | diff x y z => exact h.assignBinary Represents.diff ht
  | inPlaceDiff x y => exact h.assignBinary Represents.inPlaceDiff ht
  | clone x y => exact h.assignUnary (fun hr _ => ⟨_, rfl, hr.clone⟩) ht
  | leftShift x n => exact h.assignUnary (fun hr hg => hr.leftShift hg) ht
  | rightShift x n => exact h.assignUnary (fun hr hg => hr.rightShift hg) ht

/-- A whole program, by induction over its statements. -/
theorem run (h : StoreRep s t) {prog : List (Stmt ν)} (ht : absRun prog t = some t') :
    ∃ s', Container.run prog s = .ok s' ∧ StoreRep s' t' := by
  induction prog generalizing s t with
  | nil =>
    obtain rfl := Option.some.inj ht
    exact ⟨s, rfl, h⟩
  | cons st prog ih =>
    simp only [absRun, Option.bind_eq_bind, Option.bind_eq_some_iff] at ht
    obtain ⟨t₁, h₁, hrest⟩ := ht
    obtain ⟨s₁, hs₁, hrep₁⟩ := h.exec h₁
    obtain ⟨s', hs', hrep'⟩ := ih hrep₁ hrest
    exact ⟨s', by rw [Container.run, hs₁, ok_bind]; exact hs', hrep'⟩

end StoreRep

/-- A program that runs over `FinBits` from no variables runs in the code without a panic, and
each variable's set is clean, with the length, the positions, the `Count()` and the `Get` of
the `FinBits` the variable holds. -/
theorem run_refines_finBits (prog : List (Stmt ν)) {t : ν → Option FinBits}
    (h : absRun prog (fun _ => none) = some t) :
    ∃ s, run prog (fun _ => none) = .ok s ∧ ∀ x, (s x = none ↔ t x = none) ∧
      ∀ b a, s x = some b → t x = some a →
        b.Clean ∧ b.len.toNat = a.len ∧ b.alpha = a.elems ∧ b.count.toNat = a.elems.card ∧
          ∀ pos : UInt64, pos.toNat < a.len → b.get pos = if pos.toNat ∈ a.elems then 1 else 0 := by
  obtain ⟨s, hs, hrep⟩ := storeRep_init.run h
  refine ⟨s, hs, fun x => ?_⟩
  have hrel := hrep x
  generalize s x = o at hrel ⊢
  generalize t x = o' at hrel ⊢
  cases hrel with
  | none => exact ⟨iff_of_true rfl rfl, fun _ _ hb => nomatch hb⟩
  | some hr =>
    refine ⟨iff_of_false (fun hb => nomatch hb) (fun ha => nomatch ha), fun b a hb ha => ?_⟩
    cases hb
    cases ha
    exact ⟨hr.clean, hr.len_eq, hr.alpha_eq, hr.count, fun _ hpos => hr.get hpos⟩

/-- Every kind of statement, on sets of one and of two words. -/
def mixedProgram : List (Stmt ℕ) :=
  [.new 0 100, .set 0 3 1, .set 0 70 1, .new 1 100, .set 1 70 1, .set 1 99 1, .set 1 3 0,
    .or 2 0 1, .and 3 0 1, .xor 4 0 1, .diff 5 0 1, .clone 6 0, .inPlaceDiff 6 1,
    .leftShift 2 30, .rightShift 1 65, .new 7 128, .not 8 7]

theorem mixedProgram_refines_finBits : ∃ t, absRun mixedProgram (fun _ => none) = some t ∧
    ∃ s, run mixedProgram (fun _ => none) = .ok s ∧ ∀ x, (s x = none ↔ t x = none) ∧
      ∀ b a, s x = some b → t x = some a →
        b.Clean ∧ b.len.toNat = a.len ∧ b.alpha = a.elems ∧ b.count.toNat = a.elems.card ∧
          ∀ pos : UInt64, pos.toNat < a.len → b.get pos = if pos.toNat ∈ a.elems then 1 else 0 :=
  ⟨_, rfl, run_refines_finBits mixedProgram rfl⟩

end WeedgePkg.Container
