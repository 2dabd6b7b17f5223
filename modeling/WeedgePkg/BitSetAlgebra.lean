import WeedgePkg.BitSet
import Mathlib.Algebra.BigOperators.Group.Finset.Piecewise
import Mathlib.Data.Finset.SymmDiff

/-!
# What the operations of `BitSet` do to its positions

`word j` is the word of positions `64 j` to `64 j + 63`, that is `data[size - 1 - j]`, and
`bit p` is bit `p % 64` of word `p / 64`; below `len`, `Get(pos)` reads `bit pos`. A set is
clean when no bit at or past `len` is set. The word-wise operations compute every bit exactly;
on clean sets `And`, `Or` and `Xor` are the intersection, union and symmetric difference of
the positions, `Diff` and `InPlaceDiff` their difference, `Set` adds or removes one position
and `Count` is the number of positions, and each result is clean. `Not` complements the
positions below `len` but sets every bit past it.
-/

namespace WeedgePkg.Container

/-! ## Words and bits -/

/-- The word of positions `64 j` to `64 j + 63`, or `0` past the last word. -/
def BitSet.word (b : BitSet) (j : ℕ) : UInt64 := b.data.reverse.getD j 0

def BitSet.bit (b : BitSet) (p : ℕ) : Bool := (b.word (p / 64)).toNat.testBit (p % 64)

/-- No bit at or past `len` is set. -/
def BitSet.Clean (b : BitSet) : Prop := ∀ p, b.len.toNat ≤ p → b.bit p = false

theorem wordCount_toNat (len : UInt64) : wordCount len = (len.toNat + 63) / 64 := by
  have hlo : (len >>> 6).toNat = len.toNat / 64 := by
    simp [UInt64.toNat_shiftRight, Nat.shiftRight_eq_div_pow]
  have hpos : (len &&& 0x3f > 0) ↔ len.toNat % 64 ≠ 0 := by
    rw [gt_iff_lt, UInt64.lt_iff_toNat_lt, UInt64.toNat_and]
    have : (0x3f : UInt64).toNat = 2 ^ 6 - 1 := rfl
    rw [this, Nat.and_two_pow_sub_one_eq_mod]
    simp only [UInt64.toNat_zero]
    omega
  unfold wordCount
  rw [hlo]
  split_ifs with h <;> simp only [hpos] at h <;> omega

namespace BitSet

variable (b : BitSet)

theorem len_le : b.len.toNat ≤ 64 * b.size := by
  rw [b.size_eq, wordCount_toNat]
  omega

theorem size_lt : 64 * b.size < b.len.toNat + 64 := by
  rw [b.size_eq, wordCount_toNat]
  omega

variable {b}

theorem word_of_le {j : ℕ} (h : b.size ≤ j) : b.word j = 0 :=
  List.getD_eq_default _ _ (by rw [List.length_reverse, b.length_data]; exact h)

theorem word_eq {j : ℕ} (h : j < b.size) : b.word j = b.data.getD (b.size - 1 - j) 0 := by
  rw [word, List.getD_reverse j (by rw [b.length_data]; exact h), b.length_data]

theorem bit_of_le {p : ℕ} (h : 64 * b.size ≤ p) : b.bit p = false := by
  rw [bit, word_of_le (by omega), UInt64.toNat_zero, Nat.zero_testBit]

end BitSet

theorem shiftCount_toNat {k : ℕ} (hk : k < 64) : k.toUInt64.toNat % 64 = k := by
  rw [Nat.toUInt64_eq, UInt64.toNat_ofNat']
  omega

theorem one_shiftLeft_toNat {k : ℕ} (hk : k < 64) : ((1 : UInt64) <<< k.toUInt64).toNat = 2 ^ k := by
  rw [UInt64.toNat_shiftLeft, shiftCount_toNat hk, UInt64.toNat_one, Nat.one_shiftLeft,
    Nat.mod_eq_of_lt (Nat.pow_lt_pow_right (by decide) hk)]

theorem and_one_shiftLeft_pos (w : UInt64) {k : ℕ} (hk : k < 64) :
    w &&& (1 : UInt64) <<< k.toUInt64 > 0 ↔ w.toNat.testBit k = true := by
  rw [gt_iff_lt, UInt64.lt_iff_toNat_lt, UInt64.toNat_and, one_shiftLeft_toNat hk, Nat.and_two_pow,
    UInt64.toNat_zero]
  cases w.toNat.testBit k <;> simp

namespace BitSet

variable {b : BitSet}

theorem getPos_index {pos : UInt64} (h : pos.toNat / 64 < b.size) :
    (b.getPos pos).1.toNat = b.size - 1 - pos.toNat / 64 := by
  have hdiv : (pos >>> 6).toNat = pos.toNat / 64 := by
    simp [UInt64.toNat_shiftRight, Nat.shiftRight_eq_div_pow]
  simp only [getPos, hdiv]
  omega

theorem getPos_offset (pos : UInt64) : (b.getPos pos).2 = pos.toNat % 64 := by
  have : (0x3f : UInt64).toNat = 2 ^ 6 - 1 := rfl
  simp only [getPos, UInt64.toNat_and, this, Nat.and_two_pow_sub_one_eq_mod]

/-- Below `len`, `Get(pos)` reads bit `pos`. -/
theorem get_of_lt {pos : UInt64} (h : pos < b.len) : b.get pos = if b.bit pos.toNat then 1 else 0 := by
  have hp := UInt64.lt_iff_toNat_lt.mp h
  have hlt : pos.toNat / 64 < b.size := by have := b.len_le; omega
  have hbit : (b.data.getD (b.getPos pos).1.toNat 0 &&& (1 : UInt64) <<< (b.getPos pos).2.toUInt64 > 0) ↔
      b.bit pos.toNat = true := by
    rw [getPos_index hlt, getPos_offset, ← word_eq hlt]
    exact and_one_shiftLeft_pos _ (Nat.mod_lt _ (by decide))
  simp only [get, ge_iff_le, if_neg (UInt64.not_le.mpr h), getBit]
  by_cases hb : b.bit pos.toNat = true
  · rw [if_pos (hbit.mpr hb), if_pos hb]
  · rw [if_neg (fun h' => hb (hbit.mp h')), if_neg hb]

theorem mem_alpha {p : ℕ} : p ∈ b.alpha ↔ p < b.len.toNat ∧ b.bit p = true := by
  unfold alpha
  rw [Finset.mem_filter, Finset.mem_range]
  refine and_congr_right fun hp => ?_
  have hto : p.toUInt64.toNat = p := by
    rw [Nat.toUInt64_eq, UInt64.toNat_ofNat']
    exact Nat.mod_eq_of_lt (hp.trans b.len.toNat_lt)
  rw [get_of_lt (UInt64.lt_iff_toNat_lt.mpr (by rw [hto]; exact hp)), hto]
  cases b.bit p <;> simp

/-- Two sets of one length with the same bits below it stand for the same positions. -/
theorem alpha_eq_of_bit {c : BitSet} (hlen : c.len = b.len) (hbit : ∀ p < b.len.toNat, c.bit p = b.bit p) :
    c.alpha = b.alpha := by
  ext p
  rw [mem_alpha, mem_alpha, hlen]
  exact and_congr_right fun hp => by rw [hbit p hp]

end BitSet

/-! ## `NewBitSet` and `Clone` -/

theorem newBitSet_word (len : UInt64) (j : ℕ) : (newBitSet len).word j = 0 := by
  simp [BitSet.word, newBitSet, List.reverse_replicate, List.getD_eq_getElem?_getD, List.getElem?_replicate]
  split_ifs <;> rfl

theorem newBitSet_bit (len : UInt64) (p : ℕ) : (newBitSet len).bit p = false := by
  rw [BitSet.bit, newBitSet_word, UInt64.toNat_zero, Nat.zero_testBit]

theorem newBitSet_clean (len : UInt64) : (newBitSet len).Clean := fun p _ => newBitSet_bit len p

theorem newBitSet_alpha (len : UInt64) : (newBitSet len).alpha = ∅ := by
  ext p
  simp [BitSet.mem_alpha, newBitSet_bit]

@[simp] theorem BitSet.clone_len (b : BitSet) : b.clone.len = b.len := rfl

@[simp] theorem BitSet.clone_bit (b : BitSet) (p : ℕ) : b.clone.bit p = b.bit p := rfl

theorem BitSet.Clean.lt_of_bit {b : BitSet} (hb : b.Clean) {p : ℕ} (h : b.bit p = true) : p < b.len.toNat := by
  by_contra hle
  rw [hb p (Nat.le_of_not_lt hle)] at h
  cases h

/-! ## `And`, `Or` and `Xor` -/

theorem testBit_not (y : UInt64) (i : ℕ) : (~~~y).toNat.testBit i = (decide (i < 64) && !y.toNat.testBit i) := by
  rw [← UInt64.toNat_toBitVec, UInt64.toBitVec_not, BitVec.testBit_toNat, BitVec.getLsbD_not,
    ← BitVec.testBit_toNat, UInt64.toNat_toBitVec]

/-- Two word lists aligned at their last words and combined: from the lowest, the combined
words of the shorter list, then nothing. -/
theorem reverse_zipWith_drop_getD (op : UInt64 → UInt64 → UInt64) (xs ys : List UInt64)
    (hle : xs.length ≤ ys.length) (j : ℕ) :
    (List.zipWith op xs (ys.drop (ys.length - xs.length))).reverse.getD j 0 =
      if j < xs.length then op (xs.reverse.getD j 0) (ys.reverse.getD j 0) else 0 := by
  have hzip : (List.zipWith op xs (ys.drop (ys.length - xs.length))).reverse =
      List.zipWith op xs.reverse (ys.reverse.take xs.length) := by
    rw [List.reverse_zipWith (by simp only [List.length_drop]; omega), List.reverse_drop]
    congr 2
    omega
  rw [hzip]
  split_ifs with hj
  · have h1 : j < xs.reverse.length := by rw [List.length_reverse]; exact hj
    have h2 : j < ys.reverse.length := by rw [List.length_reverse]; omega
    simp only [List.getD_eq_getElem?_getD, List.getElem?_zipWith, List.getElem?_take, if_pos hj,
      List.getElem?_eq_getElem h1, List.getElem?_eq_getElem h2]
    rfl
  · exact List.getD_eq_default _ _ (by simp only [List.length_zipWith, List.length_reverse, List.length_take]; omega)

theorem reverse_take_getD {l : List UInt64} {n j : ℕ} (hn : n ≤ l.length) (hj : n ≤ j) :
    (l.take (l.length - n)).reverse.getD (j - n) 0 = l.reverse.getD j 0 := by
  rw [List.reverse_take, List.getD_eq_getElem?_getD, List.getElem?_drop, List.getD_eq_getElem?_getD]
  congr 2
  omega

/-- The words of `alignedWords`, from the lowest: the combined words of `s`, then `high`'s. -/
theorem alignedWords_word (op : UInt64 → UInt64 → UInt64) {s c : BitSet} {high : List UInt64}
    (hle : s.size ≤ c.size) (hhigh : high.length = c.size) (j : ℕ) :
    (alignedWords op s c high).reverse.getD j 0 =
      if j < s.size then op (s.word j) (c.word j) else high.reverse.getD j 0 := by
  have hzip := reverse_zipWith_drop_getD op s.data c.data (by rw [s.length_data, c.length_data]; exact hle)
  rw [s.length_data, c.length_data] at hzip
  have hlen : (List.zipWith op s.data (c.data.drop (c.size - s.size))).reverse.length = s.size := by
    simp only [List.length_reverse, List.length_zipWith, List.length_drop, s.length_data, c.length_data]
    omega
  rw [alignedWords, List.reverse_append]
  split_ifs with hj
  · rw [List.getD_append _ _ _ _ (by omega), hzip, if_pos hj]
    rfl
  · rw [List.getD_append_right _ _ _ _ (by omega), hlen, ← hhigh, reverse_take_getD (by omega) (by omega)]

theorem combine_word (op : UInt64 → UInt64 → UInt64) (fromLonger : Bool) (a b : BitSet) (j : ℕ) :
    (combine op fromLonger a b).word j =
      if j < (sortByLength a b).1.size then op ((sortByLength a b).1.word j) ((sortByLength a b).2.word j)
      else (combineInit fromLonger (sortByLength a b).2).word j :=
  alignedWords_word op (sortByLength_size_le a b)
    ((combineInit _ _).length_data.trans (combineInit_size _ _)) j

theorem combineInit_bit (fromLonger : Bool) (c : BitSet) (p : ℕ) :
    (combineInit fromLonger c).bit p = (fromLonger && c.bit p) := by
  cases fromLonger
  · exact newBitSet_bit _ p
  · rfl

theorem sortByLength_cases (a b : BitSet) : sortByLength a b = (a, b) ∨ sortByLength a b = (b, a) := by
  unfold sortByLength
  split_ifs
  · exact .inl rfl
  · exact .inr rfl

theorem combine_len_toNat (op : UInt64 → UInt64 → UInt64) (fromLonger : Bool) (a b : BitSet) :
    (combine op fromLonger a b).len.toNat = max a.len.toNat b.len.toNat := by
  show (combineInit fromLonger (sortByLength a b).2).len.toNat = _
  have hinit : (combineInit fromLonger (sortByLength a b).2).len = (sortByLength a b).2.len := by
    cases fromLonger <;> rfl
  rw [hinit]
  unfold sortByLength
  split_ifs with h
  · exact (max_eq_right (UInt64.le_iff_toNat_le.mp h)).symm
  · exact (max_eq_left (Nat.le_of_lt (UInt64.lt_iff_toNat_lt.mp (UInt64.not_le.mp h)))).symm

/-- The shared loop of `And`, `Or` and `Xor` combines every bit, whichever set is longer:
past the shorter set's words its bits are zero. -/
theorem combine_bit {op : UInt64 → UInt64 → UInt64} {f : Bool → Bool → Bool}
    (hop : ∀ x y i, (op x y).toNat.testBit i = f (x.toNat.testBit i) (y.toNat.testBit i))
    (hcomm : ∀ x y, f x y = f y x) {fromLonger : Bool} (hfl : ∀ y, f false y = (fromLonger && y))
    (a b : BitSet) (p : ℕ) : (combine op fromLonger a b).bit p = f (a.bit p) (b.bit p) := by
  have hsort : f ((sortByLength a b).1.bit p) ((sortByLength a b).2.bit p) = f (a.bit p) (b.bit p) := by
    rcases sortByLength_cases a b with h | h <;> rw [h]
    exact hcomm _ _
  rw [← hsort, BitSet.bit, combine_word]
  split_ifs with hj
  · exact hop _ _ _
  · show (combineInit fromLonger _).bit p = _
    rw [combineInit_bit, BitSet.bit_of_le (b := (sortByLength a b).1) (by omega), hfl]

@[simp] theorem BitSet.and_bit (a b : BitSet) (p : ℕ) : (a.and b).bit p = (a.bit p && b.bit p) :=
  combine_bit (fun x y i => by rw [UInt64.toNat_and, Nat.testBit_and]) Bool.and_comm (fun _ => rfl) a b p

@[simp] theorem BitSet.or_bit (a b : BitSet) (p : ℕ) : (a.or b).bit p = (a.bit p || b.bit p) :=
  combine_bit (fun x y i => by rw [UInt64.toNat_or, Nat.testBit_or]) Bool.or_comm (fun _ => rfl) a b p

@[simp] theorem BitSet.xor_bit (a b : BitSet) (p : ℕ) : (a.xor b).bit p = (a.bit p ^^ b.bit p) :=
  combine_bit (fun x y i => by rw [UInt64.toNat_xor, Nat.testBit_xor]) Bool.xor_comm
    (fun y => by cases y <;> rfl) a b p

section Clean

variable {a b : BitSet}

theorem BitSet.Clean.and (ha : a.Clean) (b : BitSet) : (a.and b).Clean := fun p hp => by
  rw [BitSet.and, combine_len_toNat] at hp
  rw [BitSet.and_bit, ha p (le_of_max_le_left hp)]
  rfl

theorem BitSet.Clean.or (ha : a.Clean) (hb : b.Clean) : (a.or b).Clean := fun p hp => by
  rw [BitSet.or, combine_len_toNat] at hp
  rw [BitSet.or_bit, ha p (le_of_max_le_left hp), hb p (le_of_max_le_right hp)]
  rfl

theorem BitSet.Clean.xor (ha : a.Clean) (hb : b.Clean) : (a.xor b).Clean := fun p hp => by
  rw [BitSet.xor, combine_len_toNat] at hp
  rw [BitSet.xor_bit, ha p (le_of_max_le_left hp), hb p (le_of_max_le_right hp)]
  rfl

theorem BitSet.alpha_and (ha : a.Clean) (hb : b.Clean) : (a.and b).alpha = a.alpha ∩ b.alpha := by
  ext p
  rw [Finset.mem_inter, BitSet.mem_alpha, BitSet.mem_alpha, BitSet.mem_alpha, BitSet.and, combine_len_toNat,
    ← BitSet.and, BitSet.and_bit, Bool.and_eq_true]
  constructor
  · rintro ⟨-, ha', hb'⟩
    exact ⟨⟨ha.lt_of_bit ha', ha'⟩, hb.lt_of_bit hb', hb'⟩
  · rintro ⟨⟨hpa, ha'⟩, -, hb'⟩
    exact ⟨lt_max_of_lt_left hpa, ha', hb'⟩

theorem BitSet.alpha_or (ha : a.Clean) (hb : b.Clean) : (a.or b).alpha = a.alpha ∪ b.alpha := by
  ext p
  rw [Finset.mem_union, BitSet.mem_alpha, BitSet.mem_alpha, BitSet.mem_alpha, BitSet.or, combine_len_toNat,
    ← BitSet.or, BitSet.or_bit, Bool.or_eq_true]
  constructor
  · rintro ⟨-, ha' | hb'⟩
    · exact .inl ⟨ha.lt_of_bit ha', ha'⟩
    · exact .inr ⟨hb.lt_of_bit hb', hb'⟩
  · rintro (⟨hpa, ha'⟩ | ⟨hpb, hb'⟩)
    · exact ⟨lt_max_of_lt_left hpa, .inl ha'⟩
    · exact ⟨lt_max_of_lt_right hpb, .inr hb'⟩

theorem BitSet.alpha_xor (ha : a.Clean) (hb : b.Clean) : (a.xor b).alpha = symmDiff a.alpha b.alpha := by
  ext p
  rw [Finset.mem_symmDiff, BitSet.mem_alpha, BitSet.mem_alpha, BitSet.mem_alpha, BitSet.xor, combine_len_toNat,
    ← BitSet.xor, BitSet.xor_bit]
  cases hpa : a.bit p <;> cases hpb : b.bit p
  · simp
  · have := hb.lt_of_bit hpb
    simp [this]
  · have := ha.lt_of_bit hpa
    simp [this]
  · have := ha.lt_of_bit hpa
    have := hb.lt_of_bit hpb
    simp [*]

end Clean

/-! ## `Not` -/

theorem BitSet.not_size (b : BitSet) : b.not.size = b.size := b.size_eq.symm

@[simp] theorem BitSet.not_len (b : BitSet) : b.not.len = b.len := rfl

/-- `Not` complements every bit of every word, those past `len` included. -/
theorem BitSet.not_bit (b : BitSet) (p : ℕ) : b.not.bit p = (decide (p < 64 * b.size) && !b.bit p) := by
  by_cases hp : p < 64 * b.size
  · have hj : p / 64 < b.data.reverse.length := by rw [List.length_reverse, b.length_data]; omega
    have hw : b.not.word (p / 64) = ~~~b.word (p / 64) := by
      simp only [BitSet.word, BitSet.not, BitSet.withData, ← List.map_reverse, List.getD_eq_getElem?_getD,
        List.getElem?_map, List.getElem?_eq_getElem hj]
      rfl
    rw [BitSet.bit, hw, testBit_not, decide_eq_true (Nat.mod_lt _ (by decide)), decide_eq_true hp]
    rfl
  · rw [BitSet.bit_of_le (by rw [BitSet.not_size]; omega), decide_eq_false hp]
    rfl

/-- Below `len`, `Not` complements the positions. -/
theorem BitSet.alpha_not (b : BitSet) : b.not.alpha = Finset.range b.len.toNat \ b.alpha := by
  ext p
  rw [Finset.mem_sdiff, Finset.mem_range, BitSet.mem_alpha, BitSet.mem_alpha, BitSet.not_len, BitSet.not_bit]
  constructor
  · rintro ⟨hp, h⟩
    simp only [Bool.and_eq_true, decide_eq_true_eq, Bool.not_eq_true'] at h
    exact ⟨hp, fun ⟨_, h'⟩ => by rw [h.2] at h'; cases h'⟩
  · rintro ⟨hp, h⟩
    have hlt : p < 64 * b.size := lt_of_lt_of_le hp b.len_le
    refine ⟨hp, ?_⟩
    simp only [Bool.and_eq_true, decide_eq_true_eq, hlt, Bool.not_eq_true', true_and]
    cases hb : b.bit p
    · rfl
    · exact absurd ⟨hp, hb⟩ h

/-- `Not` of a clean set is clean only when `len` fills its words: otherwise the bits of
`data[0]` past `len` are set. -/
theorem BitSet.not_clean_iff {b : BitSet} (hb : b.Clean) : b.not.Clean ↔ b.len.toNat % 64 = 0 := by
  constructor
  · intro h
    by_contra hmod
    have hlt : b.len.toNat < 64 * b.size := by have := b.size_lt; have := b.len_le; omega
    have hbit := h b.len.toNat le_rfl
    rw [BitSet.not_bit, decide_eq_true hlt, hb _ le_rfl] at hbit
    cases hbit
  · intro hmod p hp
    have hfill : 64 * b.size = b.len.toNat := by have := b.size_lt; have := b.len_le; omega
    rw [BitSet.not_bit, decide_eq_false (by rw [BitSet.not_len] at hp; omega)]
    rfl

/-! ## `Diff` and `InPlaceDiff` -/

theorem diffWords_word (a b : BitSet) (j : ℕ) :
    (diffWords a b).reverse.getD j 0 = if j < min a.size b.size then a.word j &&& ~~~b.word j else a.word j := by
  unfold diffWords
  split_ifs with hgt hj hj
  · -- `a` is longer: its first words are kept
    have hcomm : List.zipWith (fun x y => x &&& ~~~y) (a.data.drop (a.size - b.size)) b.data =
        List.zipWith (fun y x => x &&& ~~~y) b.data (a.data.drop (a.data.length - b.data.length)) := by
      rw [List.zipWith_comm, a.length_data, b.length_data]
    have hzip := reverse_zipWith_drop_getD (fun y x => x &&& ~~~y) b.data a.data
      (by rw [a.length_data, b.length_data]; omega) j
    rw [List.reverse_append, List.getD_append _ _ _ _ (by simp [a.length_data, b.length_data]; omega), hcomm,
      hzip, b.length_data, if_pos (by omega)]
    rfl
  · have hlen : (List.zipWith (fun x y => x &&& ~~~y) (a.data.drop (a.size - b.size)) b.data).reverse.length =
        b.size := by
      simp only [List.length_reverse, List.length_zipWith, List.length_drop, a.length_data, b.length_data]
      omega
    have hbj : b.size ≤ j := by omega
    rw [List.reverse_append, List.getD_append_right _ _ _ _ (by omega), hlen]
    have := reverse_take_getD (l := a.data) (n := b.size) (j := j) (by rw [a.length_data]; omega) hbj
    rw [a.length_data] at this
    exact this
  · -- `b` is at least as long: `a`'s words are all combined
    have hzip := reverse_zipWith_drop_getD (fun x y => x &&& ~~~y) a.data b.data
      (by rw [a.length_data, b.length_data]; omega) j
    rw [a.length_data, b.length_data] at hzip
    rw [hzip, if_pos (by omega)]
    rfl
  · have hzip := reverse_zipWith_drop_getD (fun x y => x &&& ~~~y) a.data b.data
      (by rw [a.length_data, b.length_data]; omega) j
    rw [a.length_data, b.length_data] at hzip
    rw [hzip, if_neg (by omega), BitSet.word_of_le (by omega)]

theorem diffWords_bit (a b : BitSet) (p : ℕ) :
    ((diffWords a b).reverse.getD (p / 64) 0).toNat.testBit (p % 64) = (a.bit p && !b.bit p) := by
  rw [diffWords_word]
  split_ifs with hj
  · rw [UInt64.toNat_and, Nat.testBit_and, testBit_not, decide_eq_true (Nat.mod_lt _ (by decide))]
    rfl
  · rcases Nat.lt_or_ge (p / 64) b.size with ha | hb
    · rw [BitSet.bit_of_le (b := a) (by omega), BitSet.word_of_le (by omega), Bool.false_and, UInt64.toNat_zero,
        Nat.zero_testBit]
    · rw [BitSet.bit_of_le (b := b) (by omega), Bool.not_false, Bool.and_true]
      rfl

@[simp] theorem BitSet.diff_len (a b : BitSet) : (a.diff b).len = a.len := rfl

@[simp] theorem BitSet.inPlaceDiff_len (a b : BitSet) : (a.inPlaceDiff b).len = a.len := rfl

@[simp] theorem BitSet.diff_bit (a b : BitSet) (p : ℕ) : (a.diff b).bit p = (a.bit p && !b.bit p) :=
  diffWords_bit a b p

@[simp] theorem BitSet.inPlaceDiff_bit (a b : BitSet) (p : ℕ) : (a.inPlaceDiff b).bit p = (a.bit p && !b.bit p) :=
  diffWords_bit a b p

theorem BitSet.Clean.diff {a : BitSet} (ha : a.Clean) (b : BitSet) : (a.diff b).Clean := fun p hp => by
  rw [BitSet.diff_bit, ha p hp]
  rfl

theorem BitSet.Clean.inPlaceDiff {a : BitSet} (ha : a.Clean) (b : BitSet) : (a.inPlaceDiff b).Clean := fun p hp => by
  rw [BitSet.inPlaceDiff_bit, ha p hp]
  rfl

theorem BitSet.alpha_diff {a b : BitSet} (hb : b.Clean) : (a.diff b).alpha = a.alpha \ b.alpha := by
  ext p
  rw [Finset.mem_sdiff, BitSet.mem_alpha, BitSet.mem_alpha, BitSet.mem_alpha, BitSet.diff_len, BitSet.diff_bit]
  cases hpb : b.bit p
  · simp
  · have := hb.lt_of_bit hpb
    simp [this]

theorem BitSet.alpha_inPlaceDiff {a b : BitSet} (hb : b.Clean) : (a.inPlaceDiff b).alpha = a.alpha \ b.alpha := by
  rw [← BitSet.alpha_diff hb]
  exact BitSet.alpha_eq_of_bit rfl fun p _ => by rw [BitSet.inPlaceDiff_bit, BitSet.diff_bit]

/-! ## `Set` and `Get` -/

/-- The word `Set` writes: bit `k` set, or set and then flipped, and the others kept. -/
theorem setWord_testBit (w : UInt64) {k : ℕ} (hk : k < 64) (value : ℤ) (i : ℕ) :
    (if value = 1 then w ||| (1 : UInt64) <<< k.toUInt64
      else (w ||| (1 : UInt64) <<< k.toUInt64) ^^^ (1 : UInt64) <<< k.toUInt64).toNat.testBit i =
      if i = k then decide (value = 1) else w.toNat.testBit i := by
  have hki : k = i ↔ i = k := eq_comm
  by_cases hv : value = 1 <;> by_cases hi : i = k <;>
    simp [hv, hi, hki, UInt64.toNat_or, UInt64.toNat_xor, one_shiftLeft_toNat hk, Nat.testBit_or, Nat.testBit_xor]

theorem reverse_set_getD {l : List UInt64} {i j : ℕ} (hi : i < l.length) (w : UInt64) :
    (l.set i w).reverse.getD j 0 = if j = l.length - 1 - i then w else l.reverse.getD j 0 := by
  by_cases hj : j < l.length
  · rw [List.getD_reverse j (by rw [List.length_set]; exact hj), List.getD_reverse j hj, List.length_set,
      List.getD_eq_getElem?_getD, List.getElem?_set, List.getD_eq_getElem?_getD]
    by_cases e : j = l.length - 1 - i
    · rw [if_pos (by omega), if_pos hi, if_pos e]
      rfl
    · rw [if_neg (by omega), if_neg e]
  · rw [List.getD_eq_default _ _ (by rw [List.length_reverse, List.length_set]; omega),
      List.getD_eq_default _ _ (by rw [List.length_reverse]; omega), if_neg (by omega)]

namespace BitSet

variable {b : BitSet} {pos : UInt64} {value : ℤ}

theorem set_of_invalid (h : ¬(pos < b.len ∧ (value = 0 ∨ value = 1))) : b.set pos value = (b, -1) := by
  unfold set
  rw [if_pos]
  by_cases hge : pos ≥ b.len
  · exact .inl hge
  · exact .inr fun hv => h ⟨UInt64.not_le.mp hge, hv⟩

theorem set_valid (h : pos < b.len) (hv : value = 0 ∨ value = 1) : ¬(pos ≥ b.len ∨ ¬(value = 0 ∨ value = 1)) := by
  rintro (hge | hnot)
  · exact UInt64.not_le.mpr h hge
  · exact hnot hv

@[simp] theorem set_len (pos : UInt64) (value : ℤ) : (b.set pos value).1.len = b.len := by
  unfold set
  split_ifs <;> rfl

theorem set_snd (h : pos < b.len) (hv : value = 0 ∨ value = 1) : (b.set pos value).2 = b.get pos := by
  unfold set get
  rw [if_neg (set_valid h hv), if_neg (by rw [ge_iff_le, UInt64.not_le]; exact h)]

theorem set_data (h : pos < b.len) (hv : value = 0 ∨ value = 1) :
    (b.set pos value).1.data = b.data.set (b.getPos pos).1.toNat
      (if value = 1 then b.data.getD (b.getPos pos).1.toNat 0 ||| (1 : UInt64) <<< (b.getPos pos).2.toUInt64
        else (b.data.getD (b.getPos pos).1.toNat 0 ||| (1 : UInt64) <<< (b.getPos pos).2.toUInt64) ^^^
          (1 : UInt64) <<< (b.getPos pos).2.toUInt64) := by
  unfold set
  rw [if_neg (set_valid h hv)]
  rfl

/-- `Set(pos, value)` makes bit `pos` the value and keeps every other bit. -/
theorem set_bit (h : pos < b.len) (hv : value = 0 ∨ value = 1) (p : ℕ) :
    (b.set pos value).1.bit p = if p = pos.toNat then decide (value = 1) else b.bit p := by
  have hp := UInt64.lt_iff_toNat_lt.mp h
  have hlt : pos.toNat / 64 < b.size := by have := b.len_le; omega
  rw [bit, word, set_data h hv, getPos_index hlt, getPos_offset, reverse_set_getD (by rw [b.length_data]; omega),
    b.length_data]
  by_cases hw : p / 64 = pos.toNat / 64
  · rw [if_pos (by omega), ← word_eq hlt, setWord_testBit _ (Nat.mod_lt _ (by decide))]
    by_cases hpp : p = pos.toNat
    · rw [if_pos (by rw [hpp]), if_pos hpp]
    · rw [if_neg (by omega), if_neg hpp, ← hw]
      rfl
  · rw [if_neg (by omega), if_neg (by omega)]
    rfl

/-- `Get` after `Set` reads the value written at its position and the old bit elsewhere. -/
theorem get_set (h : pos < b.len) (hv : value = 0 ∨ value = 1) {q : UInt64} (hq : q < b.len) :
    (b.set pos value).1.get q = if q = pos then value else b.get q := by
  rw [get_of_lt (by rw [set_len]; exact hq), get_of_lt hq, set_bit h hv]
  by_cases e : q = pos
  · subst e
    rw [if_pos rfl, if_pos rfl]
    rcases hv with rfl | rfl <;> rfl
  · rw [if_neg (fun h' => e (UInt64.toNat_inj.mp h')), if_neg e]

theorem Clean.set (hb : b.Clean) (pos : UInt64) (value : ℤ) : (b.set pos value).1.Clean := by
  by_cases hvalid : pos < b.len ∧ (value = 0 ∨ value = 1)
  · intro p hp
    rw [set_len] at hp
    rw [set_bit hvalid.1 hvalid.2, if_neg (by have := UInt64.lt_iff_toNat_lt.mp hvalid.1; omega), hb p hp]
  · rw [set_of_invalid hvalid]
    exact hb

/-- `Set` adds its position for `1` and removes it for `0`. -/
theorem alpha_set (h : pos < b.len) (hv : value = 0 ∨ value = 1) :
    (b.set pos value).1.alpha = if value = 1 then insert pos.toNat b.alpha else b.alpha.erase pos.toNat := by
  have hp := UInt64.lt_iff_toNat_lt.mp h
  ext p
  rw [mem_alpha, set_len, set_bit h hv]
  by_cases hpp : p = pos.toNat
  · subst hpp
    rw [if_pos rfl]
    by_cases hv1 : value = 1 <;> simp [hv1, hp]
  · rw [if_neg hpp]
    by_cases hv1 : value = 1 <;> simp [hv1, hpp, mem_alpha]

end BitSet

/-! ## `Count` -/

theorem sumLanes_eq_sum (m : ℕ) (f : ℕ → ℕ) : LaneSums.sumLanes m f = ∑ i ∈ Finset.range m, f i := by
  induction m generalizing f with
  | zero => rfl
  | succ m ih => rw [LaneSums.sumLanes, ih, Finset.sum_range_succ', Nat.add_comm]

theorem sum_map_eq_sum_range (g : UInt64 → ℕ) (l : List UInt64) :
    (l.map g).sum = ∑ j ∈ Finset.range l.length, g (l.getD j 0) := by
  induction l with
  | nil => rfl
  | cons w l ih =>
    rw [List.map_cons, List.sum_cons, ih, List.length_cons, Finset.sum_range_succ', Nat.add_comm]
    rfl

theorem sum_words (f : ℕ → ℕ) (n : ℕ) :
    ∑ j ∈ Finset.range n, ∑ i ∈ Finset.range 64, f (64 * j + i) = ∑ p ∈ Finset.range (64 * n), f p := by
  induction n with
  | zero => simp
  | succ n ih => rw [Finset.sum_range_succ, ih, Nat.mul_succ, Finset.sum_range_add]

theorem BitSet.sum_map_data (b : BitSet) (g : UInt64 → ℕ) :
    (b.data.map g).sum = ∑ j ∈ Finset.range b.size, g (b.word j) := by
  rw [← List.sum_reverse, ← List.map_reverse, sum_map_eq_sum_range, List.length_reverse, b.length_data]
  rfl

theorem BitSet.cpop_word (b : BitSet) (j : ℕ) :
    (b.word j).toBitVec.cpop.toNat = ∑ i ∈ Finset.range 64, (b.bit (64 * j + i)).toNat := by
  rw [cpop_toNat_eq_sumLanes, sumLanes_eq_sum, UInt64.toNat_toBitVec]
  refine Finset.sum_congr rfl fun i hi => ?_
  have hi' : i < 64 := Finset.mem_range.mp hi
  rw [BitSet.bit, show (64 * j + i) / 64 = j by omega, show (64 * j + i) % 64 = i by omega]

/-- `Count()` is the number of bits set, modulo `2^64`. -/
theorem BitSet.count_toNat_bits (b : BitSet) :
    b.count.toNat = (∑ p ∈ Finset.range (64 * b.size), (b.bit p).toNat) % 2 ^ 64 := by
  rw [BitSet.count_toNat, b.sum_map_data, Finset.sum_congr rfl fun j _ => b.cpop_word j,
    sum_words (fun p => (b.bit p).toNat)]

theorem BitSet.card_alpha (b : BitSet) : b.alpha.card = ∑ p ∈ Finset.range b.len.toNat, (b.bit p).toNat := by
  have halpha : b.alpha = (Finset.range b.len.toNat).filter fun p => b.bit p = true := by
    ext p
    rw [BitSet.mem_alpha, Finset.mem_filter, Finset.mem_range]
  rw [halpha, Finset.card_filter]
  refine Finset.sum_congr rfl fun p _ => ?_
  cases b.bit p <;> rfl

/-- On a clean set `Count()` is the number of positions. -/
theorem BitSet.Clean.count_eq_card {b : BitSet} (hb : b.Clean) : b.count.toNat = b.alpha.card := by
  have hsplit : 64 * b.size = b.len.toNat + (64 * b.size - b.len.toNat) := by have := b.len_le; omega
  have htail : ∑ p ∈ Finset.range (64 * b.size - b.len.toNat), (b.bit (b.len.toNat + p)).toNat = 0 :=
    Finset.sum_eq_zero fun p _ => by rw [hb _ (Nat.le_add_right _ _)]; rfl
  have hcard : b.alpha.card < 2 ^ 64 :=
    (Finset.card_le_card fun p hp => Finset.mem_range.mpr (BitSet.mem_alpha.mp hp).1).trans_lt
      (by rw [Finset.card_range]; exact b.len.toNat_lt)
  rw [BitSet.count_toNat_bits, hsplit, Finset.sum_range_add, htail, Nat.add_zero, ← BitSet.card_alpha,
    Nat.mod_eq_of_lt hcard]

end WeedgePkg.Container
