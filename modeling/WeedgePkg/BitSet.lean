import Mathlib.Data.Finset.Card
import Mathlib.Data.UInt
import WeedgePkg.CountedLoop
import WeedgePkg.LaneSums

/-!
# `container/set.BitSet`

Position `p` of a bit set of length `len` is bit `p % 64` of word `size - 1 - p / 64`: the
last word holds the lowest positions and `data[0]` the highest, of which only the `len % 64`
low bits are positions (`upCeil` masks them). The word-wise operations align two sets at
their last words. The shifts move words, then bits with a carry between words, and mask
`data[0]` with `upCeil`; a shift that indexes outside `data` panics.
-/

namespace WeedgePkg.Container

open CountedLoop

/-- How a call panics. -/
inductive Panic where
  | indexOutOfRange
  deriving DecidableEq, Repr

/-- `size` of `NewBitSet(len)`: one word per 64 positions, rounded up. -/
def wordCount (len : UInt64) : ℕ := (len >>> 6).toNat + if len &&& 0x3f > 0 then 1 else 0

/-- `upCeil` of `NewBitSet(len)`: the low `len & mask` bits, or all of them. -/
def upCeilOf (len : UInt64) : UInt64 :=
  let firstSize := (len &&& 0x3f).toNat
  let upCeil := (List.range firstSize).foldl (fun u i => u ||| (1 : UInt64) <<< i.toUInt64) 0
  if firstSize = 0 then 0xFFFFFFFFFFFFFFFF else upCeil

/-- `BitSet`: the words, the mask of the first word, the length and the number of words. -/
structure BitSet where
  data : List UInt64
  upCeil : UInt64
  len : UInt64
  size : ℕ
  size_eq : size = wordCount len
  length_data : data.length = size
  upCeil_eq : upCeil = upCeilOf len

def newBitSet (len : UInt64) : BitSet :=
  ⟨List.replicate (wordCount len) 0, upCeilOf len, len, wordCount len, rfl, List.length_replicate, rfl⟩

def BitSet.withData (b : BitSet) (d : List UInt64) (h : d.length = b.size) : BitSet :=
  { b with data := d, length_data := h }

/-! ## Positions -/

/-- `_getPos(pos)`: the word and the bit of a position. -/
def BitSet.getPos (b : BitSet) (pos : UInt64) : ℤ × ℕ :=
  ((b.size : ℤ) - (pos >>> 6).toNat - 1, (pos &&& 0x3f).toNat)

/-- `_get(index, offset)` -/
def BitSet.getBit (b : BitSet) (index : ℤ) (offset : ℕ) : ℤ :=
  if b.data.getD index.toNat 0 &&& (1 : UInt64) <<< offset.toUInt64 > 0 then 1 else 0

/-- `Set(pos, value)`: the new set and the old bit, or `-1` and no change for a position
past `len` or a value other than `0` and `1`. -/
def BitSet.set (b : BitSet) (pos : UInt64) (value : ℤ) : BitSet × ℤ :=
  if pos ≥ b.len ∨ ¬(value = 0 ∨ value = 1) then (b, -1)
  else
    let (index, offset) := b.getPos pos
    let oldVal := b.getBit index offset
    let bit := (1 : UInt64) <<< offset.toUInt64
    let word := b.data.getD index.toNat 0
    -- `value == 0` sets the bit and then flips it
    let word := if value = 1 then word ||| bit else (word ||| bit) ^^^ bit
    (b.withData (b.data.set index.toNat word) (by rw [List.length_set, b.length_data]), oldVal)

/-- `Get(pos)`: the bit, or `-1` past `len`. -/
def BitSet.get (b : BitSet) (pos : UInt64) : ℤ :=
  if pos ≥ b.len then -1
  else
    let (index, offset) := b.getPos pos
    b.getBit index offset

/-! ## Counting -/

/-- `swar(i)`: the population count of a word in parallel fields. -/
def swar (i : UInt64) : UInt64 :=
  let m1 : UInt64 := 0x5555555555555555
  let m2 : UInt64 := 0x3333333333333333
  let m4 : UInt64 := 0x0F0F0F0F0F0F0F0F
  let h01 : UInt64 := 0x0101010101010101
  let i := (i &&& m1) + ((i >>> 1) &&& m1)
  let i := (i &&& m2) + ((i >>> 2) &&& m2)
  let i := (i &&& m4) + ((i >>> 4) &&& m4)
  (i * h01) >>> 56

def BitSet.count (b : BitSet) : UInt64 := b.data.foldl (fun count w => count + swar w) 0

/-- One step of `swar`: `(i & m) + ((i >> s) & m)`. -/
def laneStep (s m i : UInt64) : UInt64 := (i &&& m) + ((i >>> s) &&& m)

section Swar

open LaneSums

theorem swar_eq_laneStep (i : UInt64) :
    swar i = (laneStep 4 0x0F0F0F0F0F0F0F0F (laneStep 2 0x3333333333333333 (laneStep 1 0x5555555555555555 i)) *
      0x0101010101010101) >>> 56 := rfl

/-- A step of `swar` on lanes of width `k` that fill the word adds neighbouring lanes. -/
theorem laneStep_toNat {k n : ℕ} {f : ℕ → ℕ} {s m i : UInt64} (hk : 1 ≤ k) (hwidth : 2 * k * n = 64)
    (hs : s.toNat = k) (hm : m.toNat = lowMask k n) (hi : i.toNat = ofLanes k (2 * n) f)
    (hf : ∀ j, f j < 2 ^ k) (htop : f (2 * n) = 0) :
    (laneStep s m i).toNat = ofLanes (2 * k) n (pairs f) := by
  have hlt : ofLanes (2 * k) n (pairs f) < 2 ^ 64 := hwidth ▸ ofLanes_lt fun j _ => pairs_lt_two_pow hk hf j
  have hn : 0 < n := Nat.pos_of_ne_zero fun h => by rw [h, Nat.mul_zero] at hwidth; exact absurd hwidth (by decide)
  have hkn : 2 * k ≤ 2 * k * n := Nat.le_mul_of_pos_right _ hn
  have hk64 : k % 64 = k := Nat.mod_eq_of_lt (by omega)
  rw [laneStep, UInt64.toNat_add, UInt64.toNat_and, UInt64.toNat_and, UInt64.toNat_shiftRight, hs, hk64, hm, hi,
    pairSum_ofLanes hf htop, Nat.mod_eq_of_lt hlt]

/-- `swar(i)` counts the set bits of `i`. -/
theorem swar_toNat (x : UInt64) : (swar x).toNat = sumLanes 64 (fun i => (x.toNat.testBit i).toNat) := by
  let b : ℕ → ℕ := fun i => (x.toNat.testBit i).toNat
  have hb : ∀ j, b j ≤ 1 := fun j => Bool.toNat_le _
  have hbz : ∀ j, 2 * 32 ≤ j → b j = 0 := fun j hj => by
    have : x.toNat.testBit j = false := Nat.testBit_lt_two_pow (x.toNat_lt.trans_le (Nat.pow_le_pow_right (by decide) hj))
    simp only [b, this, Bool.toNat_false]
  -- the three steps: lanes of 2, 4 and 8 bits holding the counts of their bits
  have h1 := laneStep_toNat (k := 1) (n := 32) (s := 1) (m := 0x5555555555555555) (i := x) le_rfl rfl rfl
    (by decide) (ofLanes_bits x.toNat_lt) (fun j => Nat.lt_succ_of_le (hb j)) (hbz _ le_rfl)
  have h2 := laneStep_toNat (k := 2) (n := 16) (s := 2) (m := 0x3333333333333333) (by decide) rfl rfl (by decide) h1
    (fun j => Nat.lt_succ_of_le ((pairs_le hb j).trans (by decide))) (pairs_eq_zero hbz _ le_rfl)
  have h3 := laneStep_toNat (k := 4) (n := 8) (s := 4) (m := 0x0F0F0F0F0F0F0F0F) (by decide) rfl rfl (by decide) h2
    (fun j => Nat.lt_succ_of_le ((pairs_le (pairs_le hb) j).trans (by decide)))
    (pairs_eq_zero (pairs_eq_zero hbz) _ le_rfl)
  -- the multiplication sums the eight bytes into the top one
  have hsum : sumLanes (7 + 1) (pairs (pairs (pairs b))) < 2 ^ 8 :=
    (sumLanes_le fun j _ => pairs_le (pairs_le (pairs_le hb)) j).trans_lt (by decide)
  have hones : (0x0101010101010101 : UInt64).toNat = ofLanes 8 (7 + 1) (fun _ => 1) := by decide
  rw [swar_eq_laneStep, UInt64.toNat_shiftRight, UInt64.toNat_mul, h3, hones, Nat.shiftRight_eq_div_pow]
  rw [show (56 : UInt64).toNat % 64 = 8 * 7 from rfl, ofLanes_mul_ones_top hsum, sumLanes_pairs, sumLanes_pairs,
    sumLanes_pairs]

theorem cpop_toNat_eq_sumLanes {w : ℕ} (x : BitVec w) :
    x.cpop.toNat = sumLanes w (fun i => (x.toNat.testBit i).toNat) := by
  have hrec : ∀ n acc, x.cpopNatRec n acc = acc + sumLanes n (fun i => (x.toNat.testBit i).toNat) := by
    intro n
    induction n with
    | zero => intro acc; rfl
    | succ n ih =>
      intro acc
      rw [BitVec.cpopNatRec_succ, ih, sumLanes_succ_top, BitVec.testBit_toNat]
      omega
  rw [BitVec.toNat_cpop, hrec, Nat.zero_add]

theorem swar_toNat_cpop (x : UInt64) : (swar x).toNat = x.toBitVec.cpop.toNat := by
  rw [swar_toNat, cpop_toNat_eq_sumLanes, UInt64.toNat_toBitVec]

/-- `swar(x)` is the population count of `x`, for every 64-bit word. -/
theorem swar_eq_cpop (x : UInt64) : (swar x).toBitVec = x.toBitVec.cpop := by
  apply BitVec.eq_of_toNat_eq
  rw [UInt64.toNat_toBitVec, swar_toNat_cpop]

/-- `Count()` is the number of set bits of the words, modulo `2^64`. -/
theorem BitSet.count_toNat (b : BitSet) : b.count.toNat = (b.data.map fun w => w.toBitVec.cpop.toNat).sum % 2 ^ 64 := by
  have hfold : ∀ (d : List UInt64) (acc : UInt64),
      (d.foldl (fun count w => count + swar w) acc).toNat = (acc.toNat + (d.map fun w => w.toBitVec.cpop.toNat).sum) % 2 ^ 64 := by
    intro d
    induction d with
    | nil => intro acc; simp
    | cons w d ih =>
      intro acc
      rw [List.foldl_cons, ih, UInt64.toNat_add, swar_toNat_cpop, List.map_cons, List.sum_cons, Nat.mod_add_mod,
        Nat.add_assoc]
  rw [BitSet.count, hfold, UInt64.toNat_zero, Nat.zero_add]

end Swar

/-! ## Word-wise operations -/

theorem wordCount_mono {a b : UInt64} (h : a ≤ b) : wordCount a ≤ wordCount b := by
  have h' : a.toNat ≤ b.toNat := UInt64.le_iff_toNat_le.mp h
  have hlo : ∀ x : UInt64, (x >>> 6).toNat = x.toNat / 64 := fun x => by
    simp [UInt64.toNat_shiftRight, Nat.shiftRight_eq_div_pow]
  have hpos : ∀ x : UInt64, (x &&& 0x3f > 0) ↔ x.toNat % 64 ≠ 0 := fun x => by
    rw [gt_iff_lt, UInt64.lt_iff_toNat_lt, UInt64.toNat_and]
    have : (0x3f : UInt64).toNat = 2 ^ 6 - 1 := rfl
    rw [this, Nat.and_two_pow_sub_one_eq_mod]
    simp only [UInt64.toNat_zero]
    omega
  unfold wordCount
  rw [hlo, hlo]
  split_ifs with ha hb hb <;> simp only [hpos] at ha hb <;> omega

/-- `sortByLength(a, b)`: the shorter set first, `a` on a tie. -/
def sortByLength (a b : BitSet) : BitSet × BitSet := if a.len ≤ b.len then (a, b) else (b, a)

theorem sortByLength_size_le (a b : BitSet) : (sortByLength a b).1.size ≤ (sortByLength a b).2.size := by
  unfold sortByLength
  split_ifs with h
  · rw [a.size_eq, b.size_eq]
    exact wordCount_mono h
  · rw [a.size_eq, b.size_eq]
    exact wordCount_mono (UInt64.le_of_lt (UInt64.not_le.mp h))

/-- The words of `c` with those of `s`, aligned at the last word, combined by `op`; the
first `c.size - s.size` words come from `high`. This is the loop
`res.data[c.size-s.size+i] = s.data[i] op c.data[c.size-s.size+i]` over a copy `high` of
`c`'s words or of zeros. -/
def alignedWords (op : UInt64 → UInt64 → UInt64) (s c : BitSet) (high : List UInt64) : List UInt64 :=
  high.take (c.size - s.size) ++ List.zipWith op s.data (c.data.drop (c.size - s.size))

theorem alignedWords_length (op : UInt64 → UInt64 → UInt64) {s c : BitSet} {high : List UInt64}
    (hle : s.size ≤ c.size) (hhigh : high.length = c.size) :
    (alignedWords op s c high).length = c.size := by
  simp only [alignedWords, List.length_append, List.length_take, List.length_zipWith, List.length_drop,
    hhigh, s.length_data, c.length_data]
  omega

def BitSet.clone (b : BitSet) : BitSet :=
  (newBitSet b.len).withData b.data (by rw [b.length_data, b.size_eq]; rfl)

theorem BitSet.clone_size (b : BitSet) : b.clone.size = b.size := b.size_eq.symm

/-- The result before the loop of `And` (`NewBitSet(c.len)`) or of `Or` and `Xor` (`c.Clone()`). -/
def combineInit (fromLonger : Bool) (c : BitSet) : BitSet := if fromLonger then c.clone else newBitSet c.len

theorem combineInit_size (fromLonger : Bool) (c : BitSet) : (combineInit fromLonger c).size = c.size := by
  unfold combineInit
  split <;> exact c.size_eq.symm

/-- The shared body of `And`, `Or` and `Xor`: the result has the longer set's length; its
first words are zeros for `And` and the longer set's for `Or` and `Xor`. -/
def combine (op : UInt64 → UInt64 → UInt64) (fromLonger : Bool) (a b : BitSet) : BitSet :=
  let s := (sortByLength a b).1
  let c := (sortByLength a b).2
  let res := combineInit fromLonger c
  res.withData (alignedWords op s c res.data)
    ((alignedWords_length op (sortByLength_size_le a b)
      (res.length_data.trans (combineInit_size fromLonger c))).trans (combineInit_size fromLonger c).symm)

def BitSet.and (a b : BitSet) : BitSet := combine (· &&& ·) false a b

def BitSet.or (a b : BitSet) : BitSet := combine (· ||| ·) true a b

def BitSet.xor (a b : BitSet) : BitSet := combine (· ^^^ ·) true a b

/-- `Not()`: every word complemented, `data[0]` included. -/
def BitSet.not (b : BitSet) : BitSet :=
  b.clone.withData (b.data.map (~~~ ·)) (by rw [List.length_map, b.length_data, b.clone_size])

/-- The loops of `Diff` and `InPlaceDiff`: `a`'s words with `b`'s bits cleared, aligned at
the last word. -/
def diffWords (a b : BitSet) : List UInt64 :=
  if a.size > b.size then
    a.data.take (a.size - b.size) ++
      List.zipWith (fun x y => x &&& ~~~y) (a.data.drop (a.size - b.size)) b.data
  else List.zipWith (fun x y => x &&& ~~~y) a.data (b.data.drop (b.size - a.size))

theorem diffWords_length (a b : BitSet) : (diffWords a b).length = a.size := by
  unfold diffWords
  split_ifs with h
  · simp only [List.length_append, List.length_take, List.length_zipWith, List.length_drop, a.length_data,
      b.length_data]
    omega
  · simp only [List.length_zipWith, List.length_drop, a.length_data, b.length_data]
    omega

def BitSet.diff (a b : BitSet) : BitSet :=
  a.clone.withData (diffWords a b) (by rw [diffWords_length, a.clone_size])

def BitSet.inPlaceDiff (a b : BitSet) : BitSet := a.withData (diffWords a b) (diffWords_length a b)

/-! ## Shifts -/

/-- `data[i]`, which panics outside the slice. -/
def wordAt (d : List UInt64) (i : ℤ) : Except Panic UInt64 :=
  if 0 ≤ i ∧ i < d.length then .ok (d.getD i.toNat 0) else .error .indexOutOfRange

/-- `data[i] = w` -/
def setWordAt (d : List UInt64) (i : ℤ) (w : UInt64) : Except Panic (List UInt64) :=
  if 0 ≤ i ∧ i < d.length then .ok (d.set i.toNat w) else .error .indexOutOfRange

/-- Go's `x << s` for a count that may reach 64. -/
def goShl (x : UInt64) (s : ℕ) : UInt64 := if 64 ≤ s then 0 else x <<< s.toUInt64

/-- Go's `x >> s` for a count that may reach 64. -/
def goShr (x : UInt64) (s : ℕ) : UInt64 := if 64 ≤ s then 0 else x >>> s.toUInt64

/-- `leftShiftData(n)`: `index = n >> shift` words towards `data[0]`, zeros behind. -/
def leftShiftData (size : ℕ) (n : ℤ) (d : List UInt64) : Except Panic (List UInt64) := do
  let index := n / 64
  let d ← loopFrom 1 (fun i d => do setWordAt d i (← wordAt d (i + index))) (size - index).toNat 0 d
  loopFrom 1 (fun i d => setWordAt d i 0) index.toNat (size - index) d

/-- `leftShiftBit(n)`: each word shifted up by `n & mask`, the bits shifted out carried
into the word before, then `data[0]` masked. -/
def leftShiftBit (size : ℕ) (upCeil : UInt64) (n : ℤ) (d : List UInt64) : Except Panic (List UInt64) := do
  let v := (n % 64).toNat
  let tp := (List.range v).foldl (fun tp i => tp ||| (1 : UInt64) <<< (63 - i).toUInt64) 0
  let pos := 64 - v
  let (d, _) ← loopFrom (-1) (fun i (st : List UInt64 × UInt64) => do
      let word ← wordAt st.1 i
      let tpLstv := goShr (word &&& tp) pos
      let d ← setWordAt st.1 i ((word <<< v.toUInt64) ||| st.2)
      pure (d, tpLstv)) size ((size : ℤ) - 1) (d, 0)
  setWordAt d 0 ((← wordAt d 0) &&& upCeil)

/-- `rightShiftData(n)`: `index` words away from `data[0]`, zeros in front. -/
def rightShiftData (size : ℕ) (n : ℤ) (d : List UInt64) : Except Panic (List UInt64) := do
  let index := n / 64
  let d ← loopFrom (-1) (fun i d => do setWordAt d i (← wordAt d (i - index))) (size - index).toNat
    ((size : ℤ) - 1) d
  loopFrom (-1) (fun i d => setWordAt d i 0) index.toNat (index - 1) d

/-- `rightShiftBit(n)`: each word shifted down by `n & mask`, the bits shifted out carried
into the word after, then `data[0]` masked. -/
def rightShiftBit (size : ℕ) (upCeil : UInt64) (n : ℤ) (d : List UInt64) : Except Panic (List UInt64) := do
  let v := (n % 64).toNat
  let tp := ((1 : UInt64) <<< v.toUInt64) - 1
  let pos := 64 - v
  let (d, _) ← loopFrom 1 (fun i (st : List UInt64 × UInt64) => do
      let word ← wordAt st.1 i
      let tpLstv := goShl (word &&& tp) pos
      let d ← setWordAt st.1 i ((word >>> v.toUInt64) ||| st.2)
      pure (d, tpLstv)) size 0 (d, 0)
  setWordAt d 0 ((← wordAt d 0) &&& upCeil)

theorem setWordAt_length {d d' : List UInt64} {i : ℤ} {w : UInt64} (h : setWordAt d i w = .ok d') :
    d'.length = d.length := by
  unfold setWordAt at h
  split_ifs at h
  cases h
  exact List.length_set

theorem bind_setWordAt_length {d d' : List UInt64} {i : ℤ} {x : Except Panic UInt64} {g : UInt64 → UInt64}
    (h : (x >>= fun w => setWordAt d i (g w)) = .ok d') : d'.length = d.length := by
  obtain ⟨w, -, hw⟩ := bind_eq_ok.mp h
  exact setWordAt_length hw

theorem loopFrom_keeps_length {σ : Type} (f : σ → List UInt64) {step : ℤ} {body : ℤ → σ → Except Panic σ}
    (hbody : ∀ i st st', body i st = .ok st' → (f st').length = (f st).length)
    {count : ℕ} {i : ℤ} {st st' : σ} (h : loopFrom step body count i st = .ok st') :
    (f st').length = (f st).length :=
  loopFrom_invariant (fun s => (f s).length = (f st).length) (fun i _ _ hs hb => (hbody i _ _ hb).trans hs)
    count i st st' rfl h

theorem leftShiftData_length {size : ℕ} {n : ℤ} {d d' : List UInt64} (h : leftShiftData size n d = .ok d') :
    d'.length = d.length := by
  obtain ⟨d₁, h₁, h₂⟩ := bind_eq_ok.mp h
  have e₁ := loopFrom_keeps_length id (fun _ _ _ hb => bind_setWordAt_length hb) h₁
  exact (loopFrom_keeps_length id (fun _ _ _ hb => setWordAt_length hb) h₂).trans e₁

theorem rightShiftData_length {size : ℕ} {n : ℤ} {d d' : List UInt64} (h : rightShiftData size n d = .ok d') :
    d'.length = d.length := by
  obtain ⟨d₁, h₁, h₂⟩ := bind_eq_ok.mp h
  have e₁ := loopFrom_keeps_length id (fun _ _ _ hb => bind_setWordAt_length hb) h₁
  exact (loopFrom_keeps_length id (fun _ _ _ hb => setWordAt_length hb) h₂).trans e₁

theorem carryTurn_length {d : List UInt64} {i : ℤ} {st' : List UInt64 × UInt64}
    {f g : UInt64 → UInt64}
    (h : (do let word ← wordAt d i; let d ← setWordAt d i (g word); pure (d, f word)) = .ok st') :
    st'.1.length = d.length := by
  obtain ⟨word, -, h₁⟩ := bind_eq_ok.mp h
  obtain ⟨d₁, h₂, h₃⟩ := bind_eq_ok.mp h₁
  cases h₃
  exact setWordAt_length h₂

theorem leftShiftBit_length {size : ℕ} {upCeil : UInt64} {n : ℤ} {d d' : List UInt64}
    (h : leftShiftBit size upCeil n d = .ok d') : d'.length = d.length := by
  obtain ⟨⟨d₁, _⟩, h₁, h₂⟩ := bind_eq_ok.mp h
  have e₁ := loopFrom_keeps_length Prod.fst (fun _ _ _ hb => carryTurn_length hb) h₁
  exact (bind_setWordAt_length h₂).trans e₁

theorem rightShiftBit_length {size : ℕ} {upCeil : UInt64} {n : ℤ} {d d' : List UInt64}
    (h : rightShiftBit size upCeil n d = .ok d') : d'.length = d.length := by
  obtain ⟨⟨d₁, _⟩, h₁, h₂⟩ := bind_eq_ok.mp h
  have e₁ := loopFrom_keeps_length Prod.fst (fun _ _ _ hb => carryTurn_length hb) h₁
  exact (bind_setWordAt_length h₂).trans e₁

/-- A method that rewrites the words in place and may panic. -/
def BitSet.update (b : BitSet) (f : List UInt64 → Except Panic (List UInt64))
    (hf : ∀ {d d'}, f d = .ok d' → d'.length = d.length) : Except Panic BitSet :=
  match h : f b.data with
  | .ok d => .ok (b.withData d ((hf h).trans b.length_data))
  | .error e => .error e

def BitSet.leftShift (b : BitSet) (n : ℤ) : Except Panic BitSet :=
  b.update (fun d => leftShiftData b.size n d >>= leftShiftBit b.size b.upCeil n) fun h => by
    obtain ⟨d₁, h₁, h₂⟩ := bind_eq_ok.mp h
    exact (leftShiftBit_length h₂).trans (leftShiftData_length h₁)

def BitSet.rightShift (b : BitSet) (n : ℤ) : Except Panic BitSet :=
  b.update (fun d => rightShiftData b.size n d >>= rightShiftBit b.size b.upCeil n) fun h => by
    obtain ⟨d₁, h₁, h₂⟩ := bind_eq_ok.mp h
    exact (rightShiftBit_length h₂).trans (rightShiftData_length h₁)

/-! ## Shifts that index outside `data` -/

theorem setWordAt_outside {d : List UInt64} {i : ℤ} (w : UInt64) (h : i < 0 ∨ d.length ≤ i) :
    setWordAt d i w = .error .indexOutOfRange := by
  unfold setWordAt
  rw [if_neg (by omega)]

theorem wordAt_nil (i : ℤ) : wordAt [] i = .error .indexOutOfRange := by
  simp [wordAt]

/-- More than `size` words of shift: the clearing loop starts at `data[size - index]`, below 0. -/
theorem leftShiftData_past_end {size : ℕ} {n : ℤ} (d : List UInt64) (h : (size : ℤ) < n / 64) :
    leftShiftData size n d = .error .indexOutOfRange := by
  obtain ⟨k, hk⟩ : ∃ k, (n / 64).toNat = k + 1 := ⟨(n / 64).toNat - 1, by omega⟩
  have hturns : ((size : ℤ) - n / 64).toNat = 0 := by omega
  have hfirst : setWordAt d ((size : ℤ) - n / 64) 0 = .error .indexOutOfRange :=
    setWordAt_outside 0 (by omega)
  simp only [leftShiftData, hturns, loopFrom_zero, hk, ok_bind]
  refine loopFrom_succ_of_error ?_ k
  exact hfirst

/-- More than `size` words of shift: the clearing loop starts at `data[index - 1]`, past the end. -/
theorem rightShiftData_past_end {size : ℕ} {n : ℤ} {d : List UInt64} (hd : d.length = size)
    (h : (size : ℤ) < n / 64) : rightShiftData size n d = .error .indexOutOfRange := by
  obtain ⟨k, hk⟩ : ∃ k, (n / 64).toNat = k + 1 := ⟨(n / 64).toNat - 1, by omega⟩
  have hturns : ((size : ℤ) - n / 64).toNat = 0 := by omega
  have hfirst : setWordAt d (n / 64 - 1) 0 = .error .indexOutOfRange := setWordAt_outside 0 (by omega)
  simp only [rightShiftData, hturns, loopFrom_zero, hk, ok_bind]
  refine loopFrom_succ_of_error ?_ k
  exact hfirst

theorem leftShiftData_nil {n : ℤ} (h : n / 64 = 0) : leftShiftData 0 n [] = .ok [] := by
  simp only [leftShiftData, h, Nat.cast_zero, sub_zero, add_zero, Int.toNat_zero, loopFrom_zero, ok_bind]

theorem rightShiftData_nil {n : ℤ} (h : n / 64 = 0) : rightShiftData 0 n [] = .ok [] := by
  simp only [rightShiftData, h, Nat.cast_zero, sub_zero, Int.toNat_zero, loopFrom_zero, ok_bind]

theorem leftShiftBit_nil (upCeil : UInt64) (n : ℤ) : leftShiftBit 0 upCeil n [] = .error .indexOutOfRange := by
  simp only [leftShiftBit, loopFrom_zero, ok_bind, wordAt_nil]
  rfl

theorem rightShiftBit_nil (upCeil : UInt64) (n : ℤ) : rightShiftBit 0 upCeil n [] = .error .indexOutOfRange := by
  simp only [rightShiftBit, loopFrom_zero, ok_bind, wordAt_nil]
  rfl

theorem BitSet.update_error {b : BitSet} {f : List UInt64 → Except Panic (List UInt64)}
    (hf : ∀ {d d'}, f d = .ok d' → d'.length = d.length) {e : Panic} (h : f b.data = .error e) :
    b.update f hf = .error e := by
  unfold BitSet.update
  split <;> simp_all

theorem BitSet.data_eq_nil {b : BitSet} (h : b.size = 0) : b.data = [] :=
  List.length_eq_zero_iff.mp (b.length_data.trans h)

/-- A shift of an empty set, or by more words than the set has, panics. -/
theorem BitSet.leftShift_panics (b : BitSet) {n : ℤ} (hn : 0 ≤ n) (h : b.size = 0 ∨ (b.size : ℤ) < n / 64) :
    b.leftShift n = .error .indexOutOfRange := by
  have hwords : leftShiftData b.size n b.data >>= leftShiftBit b.size b.upCeil n = .error .indexOutOfRange := by
    rcases Int.lt_or_le (b.size : ℤ) (n / 64) with hpast | hin
    · rw [leftShiftData_past_end _ hpast]
      rfl
    · have hsize : b.size = 0 := by omega
      rw [hsize, BitSet.data_eq_nil hsize, leftShiftData_nil (by omega), ok_bind, leftShiftBit_nil]
  unfold BitSet.leftShift
  generalize_proofs hf
  exact BitSet.update_error hf hwords

theorem BitSet.rightShift_panics (b : BitSet) {n : ℤ} (hn : 0 ≤ n) (h : b.size = 0 ∨ (b.size : ℤ) < n / 64) :
    b.rightShift n = .error .indexOutOfRange := by
  have hwords : rightShiftData b.size n b.data >>= rightShiftBit b.size b.upCeil n = .error .indexOutOfRange := by
    rcases Int.lt_or_le (b.size : ℤ) (n / 64) with hpast | hin
    · rw [rightShiftData_past_end b.length_data hpast]
      rfl
    · have hsize : b.size = 0 := by omega
      rw [hsize, BitSet.data_eq_nil hsize, rightShiftData_nil (by omega), ok_bind, rightShiftBit_nil]
  unfold BitSet.rightShift
  generalize_proofs hf
  exact BitSet.update_error hf hwords

theorem shift_panics_out_of_range :
    (∀ n : ℕ, (newBitSet 0).leftShift n = .error .indexOutOfRange ∧
        (newBitSet 0).rightShift n = .error .indexOutOfRange) ∧
      (newBitSet 64).leftShift 128 = .error .indexOutOfRange ∧
      (newBitSet 64).rightShift 128 = .error .indexOutOfRange := by
  have hempty : (newBitSet 0).size = 0 := rfl
  have hone : ((newBitSet 64).size : ℤ) < 128 / 64 := by decide
  refine ⟨fun n => ⟨?_, ?_⟩, ?_, ?_⟩
  · exact BitSet.leftShift_panics _ (Int.natCast_nonneg n) (.inl hempty)
  · exact BitSet.rightShift_panics _ (Int.natCast_nonneg n) (.inl hempty)
  · exact BitSet.leftShift_panics _ (by decide) (.inr hone)
  · exact BitSet.rightShift_panics _ (by decide) (.inr hone)

/-! ## The set a bit set stands for -/

/-- `alpha(b)`: the positions below `len` that `Get` reads as `1`. -/
def BitSet.alpha (b : BitSet) : Finset ℕ :=
  (Finset.range b.len.toNat).filter fun p => b.get p.toUInt64 = 1

/-- The bits of `data[0]` outside `upCeil`, which stand for no position. -/
def BitSet.ghostBits (b : BitSet) : UInt64 := b.data.headD 0 &&& ~~~b.upCeil

theorem newBitSet_not_ghost_bits :
    (newBitSet 1).ghostBits = 0 ∧ (newBitSet 1).not.ghostBits ≠ 0 ∧
      (newBitSet 1).not.count = 64 ∧ (newBitSet 1).not.alpha = {0} ∧
      ((newBitSet 2).not.rightShift 1).map BitSet.alpha = .ok {0, 1} := by
  decide +kernel

end WeedgePkg.Container
