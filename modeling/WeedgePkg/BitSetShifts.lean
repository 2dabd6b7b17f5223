import WeedgePkg.BitSetAlgebra

/-!
# The shifts of `BitSet`

`LeftShift(n)` and `RightShift(n)` move whole words by `n >> 6`, then bits by `n & 63` with a
carry between neighbouring words, and mask `data[0]` with `upCeil`. On a set of at least one
word, shifted by at most `size` words, neither panics: the left shift moves every position up
by `n` and drops those that reach `len`, and the right shift moves every position down by `n`,
which on a clean set is exact. Both leave the set clean.
-/

namespace WeedgePkg.Container

open CountedLoop

/-- Bit `p` of a word list whose last word holds the lowest positions. -/
def wordsBit (d : List UInt64) (p : ℕ) : Bool := (d.reverse.getD (p / 64) 0).toNat.testBit (p % 64)

theorem BitSet.bit_eq_wordsBit (b : BitSet) (p : ℕ) : b.bit p = wordsBit b.data p := rfl

theorem wordsBit_eq {d : List UInt64} {p : ℕ} (h : p / 64 < d.length) :
    wordsBit d p = (d.getD (d.length - 1 - p / 64) 0).toNat.testBit (p % 64) := by
  rw [wordsBit, List.getD_reverse _ h]

theorem wordsBit_of_le {d : List UInt64} {p : ℕ} (h : d.length ≤ p / 64) : wordsBit d p = false := by
  rw [wordsBit, List.getD_eq_default _ _ (by rw [List.length_reverse]; exact h), UInt64.toNat_zero,
    Nat.zero_testBit]

/-! ## Bits of the word operations -/

theorem testBit_of_64_le (x : UInt64) {r : ℕ} (hr : 64 ≤ r) : x.toNat.testBit r = false :=
  Nat.testBit_lt_two_pow (lt_of_lt_of_le x.toNat_lt (Nat.pow_le_pow_right (by decide) hr))

theorem testBit_shl (x : UInt64) {v : ℕ} (hv : v < 64) (r : ℕ) :
    (x <<< v.toUInt64).toNat.testBit r = (decide (r < 64) && decide (v ≤ r) && x.toNat.testBit (r - v)) := by
  rw [UInt64.toNat_shiftLeft, shiftCount_toNat hv, Nat.testBit_mod_two_pow, Nat.testBit_shiftLeft,
    Bool.and_assoc]

theorem testBit_shr (x : UInt64) {v : ℕ} (hv : v < 64) (r : ℕ) :
    (x >>> v.toUInt64).toNat.testBit r = x.toNat.testBit (v + r) := by
  rw [UInt64.toNat_shiftRight, shiftCount_toNat hv, Nat.testBit_shiftRight]

theorem testBit_goShr (x : UInt64) (s r : ℕ) :
    (goShr x s).toNat.testBit r = (decide (s < 64) && x.toNat.testBit (s + r)) := by
  unfold goShr
  split_ifs with h
  · rw [UInt64.toNat_zero, Nat.zero_testBit, decide_eq_false (by omega), Bool.false_and]
  · rw [testBit_shr x (by omega), decide_eq_true (by omega), Bool.true_and]

theorem testBit_goShl (x : UInt64) (s r : ℕ) :
    (goShl x s).toNat.testBit r =
      (decide (s < 64) && decide (r < 64) && decide (s ≤ r) && x.toNat.testBit (r - s)) := by
  unfold goShl
  split_ifs with h
  · rw [UInt64.toNat_zero, Nat.zero_testBit, decide_eq_false (by omega), Bool.false_and, Bool.false_and,
      Bool.false_and]
  · rw [testBit_shl x (by omega), decide_eq_true (show s < 64 by omega), Bool.true_and, Bool.and_assoc]

/-- The masks built bit by bit, `tp` of `leftShiftBit` and `upCeil`: bit `m` is set when some
turn sets it. -/
theorem testBit_foldl_or (f : ℕ → ℕ) {v : ℕ} (hf : ∀ i < v, f i < 64) (m : ℕ) :
    ((List.range v).foldl (fun u i => u ||| (1 : UInt64) <<< (f i).toUInt64) 0).toNat.testBit m =
      decide (∃ i < v, f i = m) := by
  induction v with
  | zero => simp
  | succ v ih =>
    rw [List.range_succ, List.foldl_append, List.foldl_cons, List.foldl_nil, UInt64.toNat_or,
      Nat.testBit_or, ih (fun i hi => hf i (by omega)), one_shiftLeft_toNat (hf v (by omega)),
      Nat.testBit_two_pow]
    by_cases h : ∃ i < v, f i = m
    · have h' : ∃ i < v + 1, f i = m := by
        obtain ⟨i, hi, e⟩ := h
        exact ⟨i, by omega, e⟩
      simp only [h, h', decide_true, Bool.true_or]
    · have hiff : (∃ i < v + 1, f i = m) ↔ f v = m := by
        constructor
        · rintro ⟨i, hi, e⟩
          rcases Nat.lt_succ_iff_lt_or_eq.mp hi with hi | rfl
          · exact absurd ⟨i, hi, e⟩ h
          · exact e
        · intro e
          exact ⟨v, by omega, e⟩
      simp only [decide_eq_false h, Bool.false_or, hiff]

theorem testBit_topMask {v : ℕ} (hv : v ≤ 64) (m : ℕ) :
    ((List.range v).foldl (fun tp i => tp ||| (1 : UInt64) <<< (63 - i).toUInt64) 0).toNat.testBit m =
      decide (64 - v ≤ m ∧ m < 64) := by
  rw [testBit_foldl_or (fun i => 63 - i) (fun i _ => by omega)]
  refine decide_eq_decide.mpr ⟨?_, fun h => ⟨63 - m, by omega, by omega⟩⟩
  rintro ⟨i, hi, rfl⟩
  omega

theorem testBit_lowMask {v : ℕ} (hv : v < 64) (m : ℕ) :
    (((1 : UInt64) <<< v.toUInt64) - 1).toNat.testBit m = decide (m < v) := by
  have hle : (1 : UInt64) ≤ (1 : UInt64) <<< v.toUInt64 := by
    rw [UInt64.le_iff_toNat_le, one_shiftLeft_toNat hv, UInt64.toNat_one]
    exact Nat.one_le_two_pow
  rw [UInt64.toNat_sub_of_le _ _ hle, one_shiftLeft_toNat hv, UInt64.toNat_one, Nat.testBit_two_pow_sub_one]

theorem lowSix_toNat (x : UInt64) : (x &&& 0x3f).toNat = x.toNat % 64 := by
  rw [UInt64.toNat_and, show (0x3f : UInt64).toNat = 2 ^ 6 - 1 from rfl, Nat.and_two_pow_sub_one_eq_mod]

theorem testBit_upCeilOf (len : UInt64) {r : ℕ} (hr : r < 64) :
    (upCeilOf len).toNat.testBit r = decide (len.toNat % 64 = 0 ∨ r < len.toNat % 64) := by
  unfold upCeilOf
  simp only [lowSix_toNat]
  split_ifs with h
  · rw [decide_eq_true (.inl h)]
    exact Nat.testBit_two_pow_sub_one 64 r ▸ decide_eq_true hr
  · rw [testBit_foldl_or (fun i => i) (fun i hi => by omega)]
    exact decide_eq_decide.mpr ⟨fun ⟨i, hi, e⟩ => .inr (e ▸ hi), fun h' => ⟨r, by omega, rfl⟩⟩

/-! ## Reads and writes of `data` -/

theorem wordAt_of_lt {d : List UInt64} {i : ℤ} {j : ℕ} (hi : i = j) (hj : j < d.length) :
    wordAt d i = .ok (d.getD j 0) := by
  subst hi
  rw [wordAt, if_pos ⟨Int.natCast_nonneg j, by omega⟩, Int.toNat_natCast]

theorem setWordAt_of_lt {d : List UInt64} {i : ℤ} {j : ℕ} (hi : i = j) (hj : j < d.length) (w : UInt64) :
    setWordAt d i w = .ok (d.set j w) := by
  subst hi
  rw [setWordAt, if_pos ⟨Int.natCast_nonneg j, by omega⟩, Int.toNat_natCast]

theorem getD_set_of_lt {d : List UInt64} {j : ℕ} (hj : j < d.length) (w : UInt64) (i : ℕ) :
    (d.set j w).getD i 0 = if i = j then w else d.getD i 0 := by
  rw [List.getD_eq_getElem?_getD, List.getElem?_set, List.getD_eq_getElem?_getD]
  by_cases e : i = j
  · rw [if_pos e.symm, if_pos hj, if_pos e]
    rfl
  · rw [if_neg (Ne.symm e), if_neg e]

/-- The step of every loop below: a write at `k` of its final word grows the region `Q` where
the list already holds its final words `f` by `k`; outside it, the words are still `g`. -/
theorem getD_set_extend {d : List UInt64} {k : ℕ} (hk : k < d.length) {Q Q' : ℕ → Prop}
    [DecidablePred Q] [DecidablePred Q'] {f g : ℕ → UInt64}
    (hget : ∀ j, d.getD j 0 = if Q j then f j else g j) (hQ : ∀ j, Q' j ↔ Q j ∨ j = k) (j : ℕ) :
    (d.set k (f k)).getD j 0 = if Q' j then f j else g j := by
  rw [getD_set_of_lt hk, hget]
  by_cases hjk : j = k
  · rw [if_pos hjk, if_pos ((hQ j).2 (.inr hjk)), hjk]
  · rw [if_neg hjk]
    by_cases hj : Q j
    · rw [if_pos hj, if_pos ((hQ j).2 (.inl hj))]
    · rw [if_neg hj, if_neg fun h => ((hQ j).1 h).elim hj hjk]

/-! ## Moving whole words -/

section WordLoops

variable {size m : ℕ} {index : ℤ} {d : List UInt64}

/-- The copy loop of `leftShiftData`, up from `data[0]`: word `j` takes word `j + index`. -/
theorem leftShiftData_copy_ok (hidx : index = m) (hm : m ≤ size) (hd : d.length = size) :
    ∃ d', loopFrom 1 (fun i d => do setWordAt d i (← wordAt d (i + index))) (size - index).toNat 0 d = .ok d' ∧
      d'.length = size ∧ ∀ j, d'.getD j 0 = if j < size - m then d.getD (j + m) 0 else d.getD j 0 := by
  rw [show ((size : ℤ) - index).toNat = size - m by omega]
  refine loopFrom_spec (fun k d' => d'.length = size ∧
      ∀ j, d'.getD j 0 = if j < k then d.getD (j + m) 0 else d.getD j 0) _ ?_
    ⟨hd, fun j => by rw [if_neg (Nat.not_lt_zero j)]⟩ fun _ h => h
  rintro k d' hk ⟨hlen, hget⟩
  refine ⟨d'.set k (d.getD (k + m) 0), ?_, by rw [List.length_set, hlen],
    getD_set_extend (by omega) hget fun j => by omega⟩
  rw [wordAt_of_lt (j := k + m) (by omega) (by omega), ok_bind, hget, if_neg (by omega),
    setWordAt_of_lt (j := k) (by omega) (by omega)]

theorem leftShiftData_clear_ok (hidx : index = m) (hm : m ≤ size) (hd : d.length = size) :
    ∃ d', loopFrom 1 (fun i d => setWordAt d i 0) index.toNat (size - index) d = .ok d' ∧
      d'.length = size ∧ ∀ j, d'.getD j 0 = if size - m ≤ j ∧ j < size then 0 else d.getD j 0 := by
  rw [show index.toNat = m by omega]
  refine loopFrom_spec (fun k d' => d'.length = size ∧
      ∀ j, d'.getD j 0 = if size - m ≤ j ∧ j < size - m + k then 0 else d.getD j 0) _ ?_
    ⟨hd, fun j => by rw [if_neg (by omega)]⟩ fun d' ⟨hlen, hget⟩ => ⟨hlen, fun j => by rw [hget]; simp only [Nat.sub_add_cancel hm]⟩
  rintro k d' hk ⟨hlen, hget⟩
  exact ⟨d'.set (size - m + k) 0, setWordAt_of_lt (by omega) (by omega) 0, by rw [List.length_set, hlen],
    getD_set_extend (f := fun _ => 0) (by omega) hget fun j => by omega⟩

/-- `leftShiftData(n)`: word `j` takes word `j + index`, and the last `index` words are
cleared. -/
theorem leftShiftData_ok {n : ℤ} (hn : 0 ≤ n) (hle : n / 64 ≤ size) (hd : d.length = size) :
    ∃ d', leftShiftData size n d = .ok d' ∧ d'.length = size ∧
      ∀ j, d'.getD j 0 = if j + (n / 64).toNat < size then d.getD (j + (n / 64).toNat) 0 else 0 := by
  have hidx : n / 64 = ((n / 64).toNat : ℤ) := (Int.toNat_of_nonneg (Int.ediv_nonneg hn (by decide))).symm
  obtain ⟨d₁, h₁, hlen₁, hget₁⟩ := leftShiftData_copy_ok hidx (by omega) hd
  obtain ⟨d₂, h₂, hlen₂, hget₂⟩ := leftShiftData_clear_ok hidx (by omega) hlen₁
  refine ⟨d₂, ?_, hlen₂, fun j => ?_⟩
  · simp only [leftShiftData, h₁, ok_bind]
    exact h₂
  · rw [hget₂, hget₁]
    by_cases hj : j + (n / 64).toNat < size
    · rw [if_neg (by omega), if_pos (by omega), if_pos hj]
    · by_cases hlow : size - (n / 64).toNat ≤ j ∧ j < size
      · rw [if_pos hlow, if_neg hj]
      · rw [if_neg hlow, if_neg (by omega), if_neg hj]
        exact List.getD_eq_default _ _ (by omega)

/-- The copy loop of `rightShiftData`, down from the last word: word `j` takes word
`j - index`. -/
theorem rightShiftData_copy_ok (hidx : index = m) (hm : m ≤ size) (hd : d.length = size) :
    ∃ d', loopFrom (-1) (fun i d => do setWordAt d i (← wordAt d (i - index))) (size - index).toNat
        ((size : ℤ) - 1) d = .ok d' ∧
      d'.length = size ∧ ∀ j, d'.getD j 0 = if m ≤ j ∧ j < size then d.getD (j - m) 0 else d.getD j 0 := by
  rw [show ((size : ℤ) - index).toNat = size - m by omega]
  refine loopFrom_spec (fun k d' => d'.length = size ∧
      ∀ j, d'.getD j 0 = if size - k ≤ j ∧ j < size then d.getD (j - m) 0 else d.getD j 0) _ ?_
    ⟨hd, fun j => by rw [if_neg (by omega)]⟩ fun d' ⟨hlen, hget⟩ => ⟨hlen, fun j => by rw [hget]; simp only [Nat.sub_sub_self hm]⟩
  rintro k d' hk ⟨hlen, hget⟩
  refine ⟨d'.set (size - 1 - k) (d.getD (size - 1 - k - m) 0), ?_, by rw [List.length_set, hlen],
    getD_set_extend (f := fun j => d.getD (j - m) 0) (by omega) hget fun j => by omega⟩
  rw [wordAt_of_lt (j := size - 1 - k - m) (by omega) (by omega), ok_bind, hget, if_neg (by omega),
    setWordAt_of_lt (j := size - 1 - k) (by omega) (by omega)]

theorem rightShiftData_clear_ok (hidx : index = m) (hm : m ≤ size) (hd : d.length = size) :
    ∃ d', loopFrom (-1) (fun i d => setWordAt d i 0) index.toNat (index - 1) d = .ok d' ∧
      d'.length = size ∧ ∀ j, d'.getD j 0 = if j < m then 0 else d.getD j 0 := by
  rw [show index.toNat = m by omega]
  refine loopFrom_spec (fun k d' => d'.length = size ∧
      ∀ j, d'.getD j 0 = if m - k ≤ j ∧ j < m then 0 else d.getD j 0) _ ?_
    ⟨hd, fun j => by rw [if_neg (by omega)]⟩ fun d' ⟨hlen, hget⟩ => ⟨hlen, fun j => by rw [hget]; simp only [Nat.sub_self, Nat.zero_le, true_and]⟩
  rintro k d' hk ⟨hlen, hget⟩
  exact ⟨d'.set (m - 1 - k) 0, setWordAt_of_lt (by omega) (by omega) 0, by rw [List.length_set, hlen],
    getD_set_extend (f := fun _ => 0) (by omega) hget fun j => by omega⟩

/-- `rightShiftData(n)`: word `j` takes word `j - index`, and the first `index` words are
cleared. -/
theorem rightShiftData_ok {n : ℤ} (hn : 0 ≤ n) (hle : n / 64 ≤ size) (hd : d.length = size) :
    ∃ d', rightShiftData size n d = .ok d' ∧ d'.length = size ∧
      ∀ j, d'.getD j 0 = if (n / 64).toNat ≤ j ∧ j < size then d.getD (j - (n / 64).toNat) 0 else 0 := by
  have hidx : n / 64 = ((n / 64).toNat : ℤ) := (Int.toNat_of_nonneg (Int.ediv_nonneg hn (by decide))).symm
  obtain ⟨d₁, h₁, hlen₁, hget₁⟩ := rightShiftData_copy_ok hidx (by omega) hd
  obtain ⟨d₂, h₂, hlen₂, hget₂⟩ := rightShiftData_clear_ok hidx (by omega) hlen₁
  refine ⟨d₂, ?_, hlen₂, fun j => ?_⟩
  · simp only [rightShiftData, h₁, ok_bind]
    exact h₂
  · rw [hget₂, hget₁]
    by_cases hj : (n / 64).toNat ≤ j ∧ j < size
    · rw [if_neg (by omega), if_pos hj, if_pos hj]
    · by_cases hlow : j < (n / 64).toNat
      · rw [if_pos hlow, if_neg hj]
      · rw [if_neg hlow, if_neg hj, if_neg hj]
        exact List.getD_eq_default _ _ (by omega)

theorem wordsBit_moveUp {e : List UInt64} (hlen : e.length = d.length)
    (he : ∀ j, e.getD j 0 = if j + m < d.length then d.getD (j + m) 0 else 0) (p : ℕ) :
    wordsBit e p = (decide (p < 64 * d.length) && decide (64 * m ≤ p) && wordsBit d (p - 64 * m)) := by
  by_cases hp : p < 64 * d.length
  · rw [wordsBit_eq (by omega), hlen, he, decide_eq_true hp, Bool.true_and]
    by_cases hm : 64 * m ≤ p
    · rw [if_pos (by omega), wordsBit_eq (by omega), show (p - 64 * m) / 64 = p / 64 - m by omega,
        show (p - 64 * m) % 64 = p % 64 by omega, show d.length - 1 - p / 64 + m = d.length - 1 - (p / 64 - m) by omega,
        decide_eq_true hm, Bool.true_and]
    · rw [if_neg (by omega), decide_eq_false hm, Bool.false_and, UInt64.toNat_zero, Nat.zero_testBit]
  · rw [wordsBit_of_le (by omega), decide_eq_false hp, Bool.false_and, Bool.false_and]

theorem wordsBit_moveDown {e : List UInt64} (hlen : e.length = d.length)
    (he : ∀ j, e.getD j 0 = if m ≤ j ∧ j < d.length then d.getD (j - m) 0 else 0) (p : ℕ) :
    wordsBit e p = (decide (p < 64 * d.length) && wordsBit d (p + 64 * m)) := by
  by_cases hp : p < 64 * d.length
  · rw [wordsBit_eq (by omega), hlen, he, decide_eq_true hp, Bool.true_and]
    by_cases hm : p / 64 + m < d.length
    · rw [if_pos (by omega), wordsBit_eq (by omega), show (p + 64 * m) / 64 = p / 64 + m by omega,
        show (p + 64 * m) % 64 = p % 64 by omega, show d.length - 1 - p / 64 - m = d.length - 1 - (p / 64 + m) by omega]
    · rw [if_neg (by omega), wordsBit_of_le (by omega), UInt64.toNat_zero, Nat.zero_testBit]
  · rw [wordsBit_of_le (by omega), decide_eq_false hp, Bool.false_and]

end WordLoops

/-! ## Moving bits between neighbouring words -/

/-- A turn of the bit loops: read word `j`, write it shifted with the carry in, and carry its
shifted-out bits on. -/
theorem carryTurn_eq {d : List UInt64} {i : ℤ} {j : ℕ} (hi : i = j) (hj : j < d.length)
    (f g : UInt64 → UInt64) (c : UInt64) :
    (do let word ← wordAt d i; let d ← setWordAt d i (g word ||| c); pure (d, f word) :
      Except Panic (List UInt64 × UInt64)) = .ok (d.set j (g (d.getD j 0) ||| c), f (d.getD j 0)) := by
  rw [wordAt_of_lt hi hj, ok_bind, setWordAt_of_lt hi hj, ok_bind]
  rfl

theorem maskFirst_eq {e : List UInt64} (hpos : 0 < e.length) (u : UInt64) :
    (do setWordAt e 0 ((← wordAt e 0) &&& u) : Except Panic (List UInt64)) = .ok (e.set 0 (e.getD 0 0 &&& u)) := by
  rw [wordAt_of_lt (i := 0) (j := 0) rfl hpos, ok_bind, setWordAt_of_lt (i := 0) (j := 0) rfl hpos]

theorem goShr_zero (s : ℕ) : goShr 0 s = 0 := by
  unfold goShr
  split_ifs
  · rfl
  · exact UInt64.zero_shiftRight

/-- `data[0] &= upCeil` keeps exactly the positions below `len`. -/
theorem wordsBit_maskFirst {len : UInt64} {e : List UInt64} (he : e.length = wordCount len) (hpos : 0 < e.length)
    (p : ℕ) : wordsBit (e.set 0 (e.getD 0 0 &&& upCeilOf len)) p = (decide (p < len.toNat) && wordsBit e p) := by
  rw [wordCount_toNat] at he
  by_cases hp : p / 64 < e.length
  · rw [wordsBit_eq (by rwa [List.length_set]), wordsBit_eq hp, List.length_set, getD_set_of_lt hpos]
    split_ifs with htop
    · -- the word of `data[0]`: `upCeil` keeps its positions below `len`
      have hiff : (len.toNat % 64 = 0 ∨ p % 64 < len.toNat % 64) ↔ p < len.toNat := by omega
      rw [htop, UInt64.toNat_and, Nat.testBit_and, testBit_upCeilOf len (Nat.mod_lt _ (by decide))]
      cases (e.getD 0 0).toNat.testBit (p % 64) <;> simp [hiff]
    · rw [decide_eq_true (by omega), Bool.true_and]
  · rw [wordsBit_of_le (by rw [List.length_set]; omega), wordsBit_of_le (by omega), Bool.and_false]

section BitLoops

variable {size : ℕ} {d : List UInt64}

/-- The loop of `leftShiftBit`, down from the last word: word `j` shifted up by `v`, with the
bits shifted out of word `j + 1` carried in. -/
theorem leftShiftBit_loop_ok (hd : d.length = size) (v : ℕ) (tp : UInt64) (pos : ℕ) :
    ∃ st : List UInt64 × UInt64, loopFrom (-1) (fun i (st : List UInt64 × UInt64) => do
        let word ← wordAt st.1 i
        let d ← setWordAt st.1 i ((word <<< v.toUInt64) ||| st.2)
        pure (d, goShr (word &&& tp) pos)) size ((size : ℤ) - 1) (d, 0) = .ok st ∧ st.1.length = size ∧
      ∀ j < size, st.1.getD j 0 = (d.getD j 0 <<< v.toUInt64) ||| goShr (d.getD (j + 1) 0 &&& tp) pos := by
  refine loopFrom_spec (fun k (st : List UInt64 × UInt64) => st.1.length = size ∧
      (∀ j, st.1.getD j 0 = if size - k ≤ j ∧ j < size then
        (d.getD j 0 <<< v.toUInt64) ||| goShr (d.getD (j + 1) 0 &&& tp) pos else d.getD j 0) ∧
      st.2 = goShr (d.getD (size - k) 0 &&& tp) pos) _ ?_ ⟨hd, fun j => by rw [if_neg (by omega)], ?_⟩
    fun st ⟨hlen, hget, _⟩ => ⟨hlen, fun j hj => by rw [hget, if_pos ⟨by omega, hj⟩]⟩
  · rintro k ⟨d', c⟩ hk ⟨hlen, hget, rfl⟩
    dsimp only at hlen hget ⊢
    have hw : d'.getD (size - 1 - k) 0 = d.getD (size - 1 - k) 0 := by rw [hget, if_neg (by omega)]
    refine ⟨_, carryTurn_eq (d := d') (j := size - 1 - k) (by omega) (by omega) _ _ _, ?_, ?_, ?_⟩
    · rw [List.length_set, hlen]
    · rw [hw, show size - k = size - 1 - k + 1 by omega]
      exact getD_set_extend (by omega) hget fun j => by omega
    · rw [hw, show size - (k + 1) = size - 1 - k by omega]
  · -- nothing is carried into the last word
    rw [Nat.sub_zero, List.getD_eq_default _ _ hd.le, UInt64.zero_and, goShr_zero]

/-- The loop of `rightShiftBit`, up from `data[0]`: word `j` shifted down by `v`, with the
bits shifted out of word `j - 1` carried in. -/
theorem rightShiftBit_loop_ok (hd : d.length = size) (v : ℕ) (tp : UInt64) (pos : ℕ) :
    ∃ st : List UInt64 × UInt64, loopFrom 1 (fun i (st : List UInt64 × UInt64) => do
        let word ← wordAt st.1 i
        let d ← setWordAt st.1 i ((word >>> v.toUInt64) ||| st.2)
        pure (d, goShl (word &&& tp) pos)) size 0 (d, 0) = .ok st ∧ st.1.length = size ∧
      ∀ j < size, st.1.getD j 0 =
        (d.getD j 0 >>> v.toUInt64) ||| if j = 0 then 0 else goShl (d.getD (j - 1) 0 &&& tp) pos := by
  refine loopFrom_spec (fun k (st : List UInt64 × UInt64) => st.1.length = size ∧
      (∀ j, st.1.getD j 0 = if j < k then
        (d.getD j 0 >>> v.toUInt64) ||| (if j = 0 then 0 else goShl (d.getD (j - 1) 0 &&& tp) pos)
        else d.getD j 0) ∧
      st.2 = if k = 0 then 0 else goShl (d.getD (k - 1) 0 &&& tp) pos) _ ?_
    ⟨hd, fun j => by rw [if_neg (Nat.not_lt_zero j)], rfl⟩
    fun st ⟨hlen, hget, _⟩ => ⟨hlen, fun j hj => by rw [hget, if_pos hj]⟩
  rintro k ⟨d', c⟩ hk ⟨hlen, hget, rfl⟩
  dsimp only at hlen hget ⊢
  have hw : d'.getD k 0 = d.getD k 0 := by rw [hget, if_neg (by omega)]
  refine ⟨_, carryTurn_eq (d := d') (j := k) (by omega) (by omega) _ _ _, ?_, ?_, ?_⟩
  · rw [List.length_set, hlen]
  · rw [hw]
    exact getD_set_extend (f := fun j => (d.getD j 0 >>> v.toUInt64) |||
      (if j = 0 then 0 else goShl (d.getD (j - 1) 0 &&& tp) pos)) (by omega) hget fun j => by omega
  · rw [hw, if_neg (Nat.succ_ne_zero k), Nat.add_sub_cancel]

/-- Bit `p` after the loop of `leftShiftBit` is bit `p - v` before it, up to the last word. -/
theorem wordsBit_shiftUp {e : List UInt64} {v : ℕ} (hv : v < 64) (hlen : e.length = d.length)
    (he : ∀ j < d.length, e.getD j 0 = (d.getD j 0 <<< v.toUInt64) |||
      goShr (d.getD (j + 1) 0 &&& (List.range v).foldl (fun tp i => tp ||| (1 : UInt64) <<< (63 - i).toUInt64) 0)
        (64 - v)) (p : ℕ) :
    wordsBit e p = (decide (p < 64 * d.length) && decide (v ≤ p) && wordsBit d (p - v)) := by
  by_cases hp : p < 64 * d.length
  · rw [wordsBit_eq (by omega), hlen, he _ (by omega), UInt64.toNat_or, Nat.testBit_or, testBit_shl _ hv,
      testBit_goShr, UInt64.toNat_and, Nat.testBit_and, testBit_topMask (by omega), decide_eq_true hp, Bool.true_and]
    have hr : p % 64 < 64 := Nat.mod_lt _ (by decide)
    rcases Nat.lt_or_ge (p % 64) v with hrv | hrv
    · -- the bit comes from the word below, carried in
      rcases Nat.eq_zero_or_pos (p / 64) with h0 | h0
      · rw [List.getD_eq_default _ _ (show d.length ≤ d.length - 1 - p / 64 + 1 by omega)]
        simp [hrv, show ¬ v ≤ p by omega]
      · rw [wordsBit_eq (show (p - v) / 64 < d.length by omega), show (p - v) / 64 = p / 64 - 1 by omega,
          show (p - v) % 64 = 64 - v + p % 64 by omega,
          show d.length - 1 - (p / 64 - 1) = d.length - 1 - p / 64 + 1 by omega]
        simp [show ¬ v ≤ p % 64 by omega, show v ≤ p by omega, show 64 - v < 64 by omega, hr,
          show 64 - v + p % 64 < 64 by omega]
    · -- the bit stays in its word
      rw [wordsBit_eq (show (p - v) / 64 < d.length by omega), show (p - v) / 64 = p / 64 by omega,
        show (p - v) % 64 = p % 64 - v by omega]
      simp [hrv, hr, show v ≤ p by omega, show ¬ 64 - v + p % 64 < 64 by omega]
  · rw [wordsBit_of_le (by omega), decide_eq_false hp, Bool.false_and, Bool.false_and]

/-- Bit `p` after the loop of `rightShiftBit` is bit `p + v` before it. -/
theorem wordsBit_shiftDown {e : List UInt64} {v : ℕ} (hv : v < 64) (hlen : e.length = d.length)
    (he : ∀ j < d.length, e.getD j 0 = (d.getD j 0 >>> v.toUInt64) |||
      if j = 0 then 0 else goShl (d.getD (j - 1) 0 &&& (((1 : UInt64) <<< v.toUInt64) - 1)) (64 - v)) (p : ℕ) :
    wordsBit e p = (decide (p < 64 * d.length) && wordsBit d (p + v)) := by
  by_cases hp : p < 64 * d.length
  · rw [wordsBit_eq (by omega), hlen, he _ (by omega), UInt64.toNat_or, Nat.testBit_or, testBit_shr _ hv,
      decide_eq_true hp, Bool.true_and]
    have hr : p % 64 < 64 := Nat.mod_lt _ (by decide)
    rcases Nat.lt_or_ge (p % 64 + v) 64 with hrv | hrv
    · -- the bit stays in its word
      have hcarry : (if d.length - 1 - p / 64 = 0 then (0 : UInt64)
          else goShl (d.getD (d.length - 1 - p / 64 - 1) 0 &&& (((1 : UInt64) <<< v.toUInt64) - 1)) (64 - v)).toNat.testBit
            (p % 64) = false := by
        split_ifs
        · rw [UInt64.toNat_zero, Nat.zero_testBit]
        · rw [testBit_goShl]
          simp [show ¬ 64 - v ≤ p % 64 by omega]
      rw [hcarry, Bool.or_false, wordsBit_eq (show (p + v) / 64 < d.length by omega), show (p + v) / 64 = p / 64 by omega,
        show (p + v) % 64 = v + p % 64 by omega]
    · -- the bit comes from the word above, carried in
      rw [testBit_of_64_le _ (by omega), Bool.false_or]
      split_ifs with htop
      · rw [UInt64.toNat_zero, Nat.zero_testBit, wordsBit_of_le (by omega)]
      · rw [testBit_goShl, UInt64.toNat_and, Nat.testBit_and, testBit_lowMask hv,
          wordsBit_eq (show (p + v) / 64 < d.length by omega), show (p + v) / 64 = p / 64 + 1 by omega,
          show (p + v) % 64 = p % 64 - (64 - v) by omega,
          show d.length - 1 - (p / 64 + 1) = d.length - 1 - p / 64 - 1 by omega]
        simp [hr, show 64 - v < 64 by omega, show 64 - v ≤ p % 64 by omega, show p % 64 - (64 - v) < v by omega]
  · rw [wordsBit_of_le (by omega), decide_eq_false hp, Bool.false_and]

end BitLoops

/-! ## The shifts of a bit set -/

section Shifts

variable {size : ℕ} {len : UInt64} {d : List UInt64}

/-- `leftShiftBit(n)` on at least one word: bit `p` becomes bit `p - n % 64`, below `len`. -/
theorem leftShiftBit_ok (hd : d.length = size) (hsize : size = wordCount len) (hpos : 0 < size) (n : ℤ) :
    ∃ e, leftShiftBit size (upCeilOf len) n d = .ok e ∧ e.length = size ∧
      ∀ p, wordsBit e p =
        (decide (p < len.toNat) && decide ((n % 64).toNat ≤ p) && wordsBit d (p - (n % 64).toNat)) := by
  have hv : (n % 64).toNat < 64 := by omega
  obtain ⟨⟨e, c⟩, h, hlen, hget⟩ := leftShiftBit_loop_ok hd (n % 64).toNat
    ((List.range (n % 64).toNat).foldl (fun tp i => tp ||| (1 : UInt64) <<< (63 - i).toUInt64) 0)
    (64 - (n % 64).toNat)
  dsimp only at hlen hget
  refine ⟨e.set 0 (e.getD 0 0 &&& upCeilOf len), ?_, by rw [List.length_set, hlen], fun p => ?_⟩
  · simp only [leftShiftBit, h, ok_bind]
    exact maskFirst_eq (by omega) _
  · rw [wordsBit_maskFirst (hlen.trans hsize) (by omega),
      wordsBit_shiftUp hv (hlen.trans hd.symm) fun j hj => hget j (by omega)]
    by_cases hp : p < len.toNat
    · have hwords : p < 64 * d.length := by rw [hd, hsize, wordCount_toNat]; omega
      simp [hp, hwords]
    · simp [hp]

/-- `rightShiftBit(n)` on at least one word: bit `p` becomes bit `p + n % 64`, below `len`. -/
theorem rightShiftBit_ok (hd : d.length = size) (hsize : size = wordCount len) (hpos : 0 < size) (n : ℤ) :
    ∃ e, rightShiftBit size (upCeilOf len) n d = .ok e ∧ e.length = size ∧
      ∀ p, wordsBit e p = (decide (p < len.toNat) && wordsBit d (p + (n % 64).toNat)) := by
  have hv : (n % 64).toNat < 64 := by omega
  obtain ⟨⟨e, c⟩, h, hlen, hget⟩ := rightShiftBit_loop_ok hd (n % 64).toNat
    (((1 : UInt64) <<< (n % 64).toNat.toUInt64) - 1) (64 - (n % 64).toNat)
  dsimp only at hlen hget
  refine ⟨e.set 0 (e.getD 0 0 &&& upCeilOf len), ?_, by rw [List.length_set, hlen], fun p => ?_⟩
  · simp only [rightShiftBit, h, ok_bind]
    exact maskFirst_eq (by omega) _
  · rw [wordsBit_maskFirst (hlen.trans hsize) (by omega),
      wordsBit_shiftDown hv (hlen.trans hd.symm) fun j hj => hget j (by omega)]
    by_cases hp : p < len.toNat
    · have hwords : p < 64 * d.length := by rw [hd, hsize, wordCount_toNat]; omega
      simp [hp, hwords]
    · simp [hp]

end Shifts

theorem BitSet.update_ok {b : BitSet} {f : List UInt64 → Except Panic (List UInt64)}
    (hf : ∀ {d d'}, f d = .ok d' → d'.length = d.length) {d : List UInt64} (h : f b.data = .ok d) :
    ∃ b', b.update f hf = .ok b' ∧ b'.len = b.len ∧ b'.data = d := by
  unfold BitSet.update
  split
  · rename_i d' h'
    rw [h] at h'
    cases h'
    exact ⟨_, rfl, rfl, rfl⟩
  · rename_i e h'
    rw [h] at h'
    cases h'

namespace BitSet

variable {b : BitSet} {n : ℤ}

/-- `LeftShift(n)` on a set with a word, by at most `size` words: position `p` of the result is
position `p - n` of the set, for `n ≤ p < len`. -/
theorem leftShift_bit (hn : 0 ≤ n) (hsize : 0 < b.size) (hle : n / 64 ≤ b.size) :
    ∃ b', b.leftShift n = .ok b' ∧ b'.len = b.len ∧
      ∀ p, b'.bit p = (decide (p < b.len.toNat) && decide (n.toNat ≤ p) && b.bit (p - n.toNat)) := by
  obtain ⟨d₁, h₁, hlen₁, hget₁⟩ := leftShiftData_ok hn hle b.length_data
  obtain ⟨d₂, h₂, -, hbit₂⟩ := leftShiftBit_ok hlen₁ b.size_eq hsize n
  have hwords : leftShiftData b.size n b.data >>= leftShiftBit b.size b.upCeil n = .ok d₂ := by
    rw [h₁, ok_bind, b.upCeil_eq]
    exact h₂
  unfold BitSet.leftShift
  generalize_proofs hf
  obtain ⟨b', hb', hlen', hdata'⟩ := update_ok hf hwords
  refine ⟨b', hb', hlen', fun p => ?_⟩
  have hmove := wordsBit_moveUp (hlen₁.trans b.length_data.symm) (fun j => by rw [hget₁, b.length_data])
  rw [bit_eq_wordsBit, hdata', hbit₂, hmove, bit_eq_wordsBit]
  -- `n` is `index` words and `n % 64` bits
  have hn' : n.toNat = 64 * (n / 64).toNat + (n % 64).toNat := by omega
  generalize (n / 64).toNat = m at hn'
  generalize (n % 64).toNat = v at hn'
  by_cases hp : p < b.len.toNat
  · have hwords : p - v < 64 * b.data.length := by rw [b.length_data]; have := b.len_le; omega
    by_cases hnp : n.toNat ≤ p
    · rw [show p - v - 64 * m = p - n.toNat by omega]
      simp [hp, hnp, hwords, show v ≤ p by omega, show 64 * m ≤ p - v by omega]
    · by_cases hvp : v ≤ p
      · simp [hnp, hvp, show ¬ 64 * m ≤ p - v by omega]
      · simp [hnp, hvp]
  · simp [hp]

/-- `RightShift(n)` on a set with a word, by at most `size` words: position `p` of the result
is position `p + n` of the set, for `p < len`. -/
theorem rightShift_bit (hn : 0 ≤ n) (hsize : 0 < b.size) (hle : n / 64 ≤ b.size) :
    ∃ b', b.rightShift n = .ok b' ∧ b'.len = b.len ∧
      ∀ p, b'.bit p = (decide (p < b.len.toNat) && b.bit (p + n.toNat)) := by
  obtain ⟨d₁, h₁, hlen₁, hget₁⟩ := rightShiftData_ok hn hle b.length_data
  obtain ⟨d₂, h₂, -, hbit₂⟩ := rightShiftBit_ok hlen₁ b.size_eq hsize n
  have hwords : rightShiftData b.size n b.data >>= rightShiftBit b.size b.upCeil n = .ok d₂ := by
    rw [h₁, ok_bind, b.upCeil_eq]
    exact h₂
  unfold BitSet.rightShift
  generalize_proofs hf
  obtain ⟨b', hb', hlen', hdata'⟩ := update_ok hf hwords
  refine ⟨b', hb', hlen', fun p => ?_⟩
  have hmove := wordsBit_moveDown (hlen₁.trans b.length_data.symm) (fun j => by rw [hget₁, b.length_data])
  rw [bit_eq_wordsBit, hdata', hbit₂, hmove, bit_eq_wordsBit]
  have hn' : n.toNat = 64 * (n / 64).toNat + (n % 64).toNat := by omega
  rw [show p + (n % 64).toNat + 64 * (n / 64).toNat = p + n.toNat by omega]
  by_cases hin : p + (n % 64).toNat < 64 * b.data.length
  · rw [decide_eq_true hin, Bool.true_and]
  · rw [decide_eq_false hin, Bool.false_and, wordsBit_of_le (by omega), Bool.and_false]

/-- `LeftShift(n)` in range gives a clean set: the positions of the set moved up by `n`, those
that reach `len` dropped. -/
theorem leftShift_alpha (hn : 0 ≤ n) (hsize : 0 < b.size) (hle : n / 64 ≤ b.size) :
    ∃ b', b.leftShift n = .ok b' ∧ b'.len = b.len ∧ b'.Clean ∧
      b'.alpha = (b.alpha.image (· + n.toNat)).filter (· < b.len.toNat) := by
  obtain ⟨b', hb', hlen', hbit⟩ := leftShift_bit hn hsize hle
  refine ⟨b', hb', hlen', fun p hp => ?_, ?_⟩
  · rw [hlen'] at hp
    rw [hbit, decide_eq_false (Nat.not_lt.mpr hp), Bool.false_and, Bool.false_and]
  · ext q
    rw [mem_alpha, hlen', hbit, Finset.mem_filter, Finset.mem_image]
    constructor
    · rintro ⟨hq, h⟩
      simp only [Bool.and_eq_true, decide_eq_true_eq] at h
      exact ⟨⟨q - n.toNat, mem_alpha.mpr ⟨by omega, h.2⟩, by omega⟩, hq⟩
    · rintro ⟨⟨a, ha, rfl⟩, hq⟩
      rw [mem_alpha] at ha
      simp [hq, ha.2]

/-- `RightShift(n)` in range of a clean set gives a clean set: the positions of the set from
`n` up, moved down by `n`. -/
theorem rightShift_alpha (hb : b.Clean) (hn : 0 ≤ n) (hsize : 0 < b.size) (hle : n / 64 ≤ b.size) :
    ∃ b', b.rightShift n = .ok b' ∧ b'.len = b.len ∧ b'.Clean ∧
      b'.alpha = (b.alpha.filter (n.toNat ≤ ·)).image (· - n.toNat) := by
  obtain ⟨b', hb', hlen', hbit⟩ := rightShift_bit hn hsize hle
  refine ⟨b', hb', hlen', fun p hp => ?_, ?_⟩
  · rw [hlen'] at hp
    rw [hbit, decide_eq_false (Nat.not_lt.mpr hp), Bool.false_and]
  · ext q
    rw [mem_alpha, hlen', hbit, Finset.mem_image]
    constructor
    · rintro ⟨hq, h⟩
      simp only [Bool.and_eq_true, decide_eq_true_eq] at h
      exact ⟨q + n.toNat, Finset.mem_filter.mpr ⟨mem_alpha.mpr ⟨hb.lt_of_bit h.2, h.2⟩, by omega⟩, by omega⟩
    · rintro ⟨a, ha, rfl⟩
      rw [Finset.mem_filter, mem_alpha] at ha
      obtain ⟨⟨hlt, hbit'⟩, hna⟩ := ha
      have hq : a - n.toNat < b.len.toNat := by omega
      simp [hq, Nat.sub_add_cancel hna, hbit']

end BitSet

end WeedgePkg.Container
