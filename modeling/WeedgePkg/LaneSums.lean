import Mathlib.Data.Nat.Bitwise
import Mathlib.Tactic.Ring

/-!
# Numbers as lanes of bits

A number is read as `m` lanes of `w` bits, lowest first (`ofLanes`). While no lane
overflows, adding, masking and shifting such numbers act lane by lane, which is what
SIMD-within-a-register code relies on. A multiplication by the number with a `1` in every
lane leaves the running sums of the lanes in the lanes, so its top lane is the sum of all.
-/

namespace LaneSums

/-- The number whose `m` lanes of `w` bits hold `f 0, …, f (m - 1)`, lowest first. -/
def ofLanes (w : ℕ) : ℕ → (ℕ → ℕ) → ℕ
  | 0, _ => 0
  | m + 1, f => f 0 + 2 ^ w * ofLanes w m (fun j => f (j + 1))

/-- `f 0 + … + f (m - 1)` -/
def sumLanes : ℕ → (ℕ → ℕ) → ℕ
  | 0, _ => 0
  | m + 1, f => f 0 + sumLanes m (fun j => f (j + 1))

/-- Neighbouring lanes added: the lanes of twice the width hold these sums. -/
def pairs (f : ℕ → ℕ) (j : ℕ) : ℕ := f (2 * j) + f (2 * j + 1)

variable {w m : ℕ} {f g : ℕ → ℕ}

theorem ofLanes_succ (w m : ℕ) (f : ℕ → ℕ) :
    ofLanes w (m + 1) f = f 0 + 2 ^ w * ofLanes w m (fun j => f (j + 1)) := rfl

theorem ofLanes_congr (h : ∀ j < m, f j = g j) : ofLanes w m f = ofLanes w m g := by
  induction m generalizing f g with
  | zero => rfl
  | succ m ih =>
    rw [ofLanes, ofLanes, h 0 (by omega), ih fun j hj => h (j + 1) (by omega)]

theorem pow_mul_succ (w m : ℕ) : 2 ^ (w * (m + 1)) = 2 ^ w * 2 ^ (w * m) := by
  rw [Nat.mul_succ, Nat.pow_add, Nat.mul_comm]

theorem ofLanes_lt (h : ∀ j < m, f j < 2 ^ w) : ofLanes w m f < 2 ^ (w * m) := by
  induction m generalizing f with
  | zero => simp [ofLanes]
  | succ m ih =>
    have h0 := h 0 (by omega)
    have hrest := ih (f := fun j => f (j + 1)) fun j hj => h (j + 1) (by omega)
    have hmul : 2 ^ w * (ofLanes w m (fun j => f (j + 1)) + 1) ≤ 2 ^ w * 2 ^ (w * m) :=
      Nat.mul_le_mul_left _ hrest
    rw [ofLanes, pow_mul_succ]
    rw [Nat.mul_succ] at hmul
    omega

/-- Lanes add lane by lane; a carry is not involved, since no lane is reduced. -/
theorem ofLanes_add (w m : ℕ) (f g : ℕ → ℕ) :
    ofLanes w m f + ofLanes w m g = ofLanes w m (fun j => f j + g j) := by
  induction m generalizing f g with
  | zero => rfl
  | succ m ih =>
    rw [ofLanes, ofLanes, ofLanes, ← ih, Nat.mul_add]
    omega

theorem ofLanes_succ_top (w m : ℕ) (f : ℕ → ℕ) : ofLanes w (m + 1) f = ofLanes w m f + 2 ^ (w * m) * f m := by
  induction m generalizing f with
  | zero => simp [ofLanes]
  | succ m ih =>
    rw [ofLanes, ih, ofLanes, pow_mul_succ, Nat.mul_add, Nat.mul_assoc]
    omega

theorem ofLanes_const (w m c : ℕ) : ofLanes w m (fun _ => c) = c * ofLanes w m (fun _ => 1) := by
  induction m with
  | zero => rfl
  | succ m ih =>
    rw [ofLanes, ofLanes, ih, Nat.mul_add, Nat.mul_one, Nat.mul_left_comm]

theorem ofLanes_div (h0 : f 0 < 2 ^ w) : ofLanes w (m + 1) f / 2 ^ w = ofLanes w m (fun j => f (j + 1)) := by
  rw [ofLanes, Nat.add_mul_div_left _ _ (Nat.two_pow_pos w), Nat.div_eq_of_lt h0, Nat.zero_add]

/-- Shifting down by one lane, when the lane above the top is empty. -/
theorem ofLanes_shift (h0 : f 0 < 2 ^ w) (htop : f m = 0) :
    ofLanes w m f / 2 ^ w = ofLanes w m (fun j => f (j + 1)) := by
  cases m with
  | zero => simp [ofLanes]
  | succ m =>
    rw [ofLanes_div h0, ofLanes_succ_top w m (fun j => f (j + 1)), htop, Nat.mul_zero, Nat.add_zero]

theorem ofLanes_div_top (h : ∀ j < m, f j < 2 ^ w) : ofLanes w (m + 1) f / 2 ^ (w * m) = f m := by
  rw [ofLanes_succ_top, Nat.add_mul_div_left _ _ (Nat.two_pow_pos _), Nat.div_eq_of_lt (ofLanes_lt h),
    Nat.zero_add]

theorem testBit_add_two_pow_mul {a b : ℕ} (j : ℕ) (ha : a < 2 ^ w) :
    (a + 2 ^ w * b).testBit j = if j < w then a.testBit j else b.testBit (j - w) := by
  rw [Nat.add_comm, Nat.testBit_two_pow_mul_add _ ha]

/-- Masks act lane by lane. -/
theorem ofLanes_and (hf : ∀ j < m, f j < 2 ^ w) (hg : ∀ j < m, g j < 2 ^ w) :
    ofLanes w m f &&& ofLanes w m g = ofLanes w m (fun j => f j &&& g j) := by
  induction m generalizing f g with
  | zero => simp [ofLanes]
  | succ m ih =>
    rw [ofLanes, ofLanes, ofLanes, ← ih (fun j hj => hf (j + 1) (by omega)) (fun j hj => hg (j + 1) (by omega))]
    apply Nat.eq_of_testBit_eq
    intro j
    have hf0 := hf 0 (by omega)
    have hg0 := hg 0 (by omega)
    rw [Nat.testBit_and, testBit_add_two_pow_mul j hf0, testBit_add_two_pow_mul j hg0,
      testBit_add_two_pow_mul j (Nat.and_lt_two_pow _ hg0), Nat.testBit_and, Nat.testBit_and]
    split <;> rfl

/-- Two neighbouring lanes of width `w` are one lane of width `2 * w`. -/
theorem ofLanes_regroup (w m : ℕ) (f : ℕ → ℕ) :
    ofLanes w (2 * m) f = ofLanes (2 * w) m (fun j => f (2 * j) + 2 ^ w * f (2 * j + 1)) := by
  induction m generalizing f with
  | zero => rfl
  | succ m ih =>
    rw [show 2 * (m + 1) = 2 * m + 1 + 1 by omega, ofLanes, ofLanes, ih, ofLanes]
    have hj : ∀ j, 2 * j + 1 + 1 = 2 * (j + 1) := fun j => by omega
    simp only [hj, Nat.mul_zero, Nat.zero_add]
    rw [Nat.two_mul w, Nat.pow_add]
    grind

theorem and_low {u v : ℕ} (hu : u < 2 ^ w) : (u + 2 ^ w * v) &&& (2 ^ w - 1) = u := by
  rw [Nat.and_two_pow_sub_one_eq_mod, Nat.add_mul_mod_self_left, Nat.mod_eq_of_lt hu]

theorem ofLanes_bits {x : ℕ} (hx : x < 2 ^ m) : x = ofLanes 1 m (fun i => (x.testBit i).toNat) := by
  induction m generalizing x with
  | zero => simp [ofLanes]; omega
  | succ m ih =>
    have hx2 : x / 2 < 2 ^ m := by rw [Nat.pow_succ] at hx; omega
    have hbits : (fun j => (x.testBit (j + 1)).toNat) = fun j => ((x / 2).testBit j).toNat := by
      funext j
      rw [Nat.testBit_add_one]
    rw [ofLanes, hbits, ← ih hx2, Nat.testBit_zero, Nat.pow_one]
    rcases Nat.mod_two_eq_zero_or_one x with h | h <;> simp [h] <;> omega

/-! ## One SWAR step -/

section Step

variable {k n : ℕ}

/-- The lanes of the mask with the low half of every lane of width `2 * k` set. -/
def lowMask (k n : ℕ) : ℕ := ofLanes (2 * k) n (fun _ => 2 ^ k - 1)

theorem lowMask_lane_lt : 2 ^ k - 1 < 2 ^ (2 * k) :=
  Nat.lt_of_lt_of_le (Nat.sub_lt (Nat.two_pow_pos k) Nat.one_pos) (Nat.pow_le_pow_right (by decide) (by omega))

theorem lane_pair_lt (hf : ∀ j, f j < 2 ^ k) (j : ℕ) : f j + 2 ^ k * f (j + 1) < 2 ^ (2 * k) := by
  have h0 := hf j
  have hmul : 2 ^ k * (f (j + 1) + 1) ≤ 2 ^ k * 2 ^ k := Nat.mul_le_mul_left _ (hf (j + 1))
  rw [Nat.two_mul, Nat.pow_add]
  rw [Nat.mul_succ] at hmul
  omega

theorem and_lowMask (hf : ∀ j, f j < 2 ^ k) :
    ofLanes k (2 * n) f &&& lowMask k n = ofLanes (2 * k) n (fun j => f (2 * j)) := by
  rw [ofLanes_regroup, lowMask, ofLanes_and (fun j _ => lane_pair_lt hf (2 * j)) (fun _ _ => lowMask_lane_lt)]
  exact ofLanes_congr fun j _ => and_low (hf (2 * j))

/-- `(x >>> k) &&& mask`: the high halves of the lanes of width `2 * k`. -/
theorem shiftRight_and_lowMask (hf : ∀ j, f j < 2 ^ k) (htop : f (2 * n) = 0) :
    (ofLanes k (2 * n) f >>> k) &&& lowMask k n = ofLanes (2 * k) n (fun j => f (2 * j + 1)) := by
  rw [Nat.shiftRight_eq_div_pow, ofLanes_shift (hf 0) htop]
  exact and_lowMask fun j => hf (j + 1)

/-- One step of a SWAR population count, `(x & mask) + ((x >> k) & mask)`: neighbouring lanes
of width `k` are added into lanes of width `2 * k`. -/
theorem pairSum_ofLanes (hf : ∀ j, f j < 2 ^ k) (htop : f (2 * n) = 0) :
    (ofLanes k (2 * n) f &&& lowMask k n) + ((ofLanes k (2 * n) f >>> k) &&& lowMask k n) =
      ofLanes (2 * k) n (pairs f) := by
  rw [and_lowMask hf, shiftRight_and_lowMask hf htop, ofLanes_add]
  rfl

end Step

/-! ## Sums of lanes -/

theorem sumLanes_succ_top (m : ℕ) (f : ℕ → ℕ) : sumLanes (m + 1) f = sumLanes m f + f m := by
  induction m generalizing f with
  | zero => simp [sumLanes]
  | succ m ih =>
    rw [sumLanes, ih, sumLanes]
    omega

theorem sumLanes_pairs (m : ℕ) (f : ℕ → ℕ) : sumLanes m (pairs f) = sumLanes (2 * m) f := by
  induction m generalizing f with
  | zero => rfl
  | succ m ih =>
    have hshift : (fun j => pairs f (j + 1)) = pairs (fun i => f (i + 1 + 1)) := by
      funext j
      rw [pairs, pairs, show 2 * (j + 1) = 2 * j + 1 + 1 by omega]
    rw [show 2 * (m + 1) = 2 * m + 1 + 1 by omega, sumLanes, hshift, ih, sumLanes, sumLanes, pairs]
    simp only [Nat.mul_zero, Nat.zero_add]
    omega

theorem sumLanes_le {B : ℕ} (h : ∀ j < m, f j ≤ B) : sumLanes m f ≤ m * B := by
  induction m generalizing f with
  | zero => simp [sumLanes]
  | succ m ih =>
    have hrest := ih (f := fun j => f (j + 1)) fun j hj => h (j + 1) (by omega)
    have h0 := h 0 (by omega)
    rw [sumLanes, Nat.succ_mul]
    omega

theorem sumLanes_mono {p : ℕ} (hp : p ≤ m) : sumLanes p f ≤ sumLanes m f := by
  induction m with
  | zero => rw [Nat.le_zero.mp hp]
  | succ m ih =>
    rcases Nat.lt_or_ge p (m + 1) with hlt | hge
    · rw [sumLanes_succ_top]
      exact (ih (by omega)).trans (Nat.le_add_right _ _)
    · rw [Nat.le_antisymm hp hge]

theorem pairs_le {B : ℕ} (hf : ∀ j, f j ≤ B) (j : ℕ) : pairs f j ≤ 2 * B := by
  have := hf (2 * j)
  have := hf (2 * j + 1)
  rw [pairs]
  omega

/-- The sum of two lanes of width `k` fits in a lane of width `2 * k`. -/
theorem pairs_lt_two_pow {k : ℕ} (hk : 1 ≤ k) (hf : ∀ j, f j < 2 ^ k) (j : ℕ) : pairs f j < 2 ^ (2 * k) := by
  have h2 : 2 ^ (k + 1) ≤ 2 ^ (2 * k) := Nat.pow_le_pow_right (by decide) (by omega)
  have := hf (2 * j)
  have := hf (2 * j + 1)
  rw [pairs]
  rw [Nat.pow_succ] at h2
  omega

theorem pairs_eq_zero {n : ℕ} (hz : ∀ j, 2 * n ≤ j → f j = 0) : ∀ j, n ≤ j → pairs f j = 0 := by
  intro j hj
  rw [pairs, hz (2 * j) (by omega), hz (2 * j + 1) (by omega)]

/-! ## Summing every lane into the top lane -/

/-- Multiplying by the number with a `1` in every lane puts the running sums of the lanes
into the lanes, up to multiples of `2 ^ (w * m)`. -/
theorem ofLanes_mul_ones (w m : ℕ) (f : ℕ → ℕ) :
    ∃ K, ofLanes w m f * ofLanes w m (fun _ => 1) = ofLanes w m (fun p => sumLanes (p + 1) f) + 2 ^ (w * m) * K := by
  induction m generalizing f with
  | zero => exact ⟨0, rfl⟩
  | succ m ih =>
    obtain ⟨K, hK⟩ := ih (fun j => f (j + 1))
    -- the number with a `1` in every lane, grown at the bottom and at the top
    have hR : 1 + 2 ^ w * ofLanes w m (fun _ => 1) = ofLanes w m (fun _ => 1) + 2 ^ (w * m) :=
      (ofLanes_succ w m fun _ => 1).symm.trans (by rw [ofLanes_succ_top, Nat.mul_one])
    -- the running sums from lane `1` on are `f 0` plus those of the shifted lanes
    have hrun : ofLanes w m (fun p => sumLanes (p + 1 + 1) f) =
        f 0 * ofLanes w m (fun _ => 1) + ofLanes w m (fun p => sumLanes (p + 1) fun j => f (j + 1)) := by
      rw [← ofLanes_const, ofLanes_add]
      rfl
    refine ⟨K + ofLanes w m (fun j => f (j + 1)), ?_⟩
    rw [ofLanes_succ w m f, ofLanes_succ_top w m (fun _ => 1), Nat.mul_one,
      ofLanes_succ w m (fun p => sumLanes (p + 1) f), hrun, pow_mul_succ]
    generalize ofLanes w m (fun j => f (j + 1)) = S at hK ⊢
    generalize ofLanes w m (fun _ => 1) = R at hK hR ⊢
    generalize ofLanes w m (fun p => sumLanes (p + 1) fun j => f (j + 1)) = P at hK ⊢
    calc (f 0 + 2 ^ w * S) * (R + 2 ^ (w * m))
        = f 0 * (R + 2 ^ (w * m)) + 2 ^ w * (S * R) + 2 ^ w * 2 ^ (w * m) * S := by ring
      _ = f 0 * (1 + 2 ^ w * R) + 2 ^ w * (P + 2 ^ (w * m) * K) + 2 ^ w * 2 ^ (w * m) * S := by rw [hR, hK]
      _ = sumLanes (0 + 1) f + 2 ^ w * (f 0 * R + P) + 2 ^ w * 2 ^ (w * m) * (K + S) := by
        simp only [sumLanes, Nat.add_zero]
        ring

/-- The top lane of that product is the sum of all lanes, when that sum fits in a lane. -/
theorem ofLanes_mul_ones_top (hsum : sumLanes (m + 1) f < 2 ^ w) :
    ofLanes w (m + 1) f * ofLanes w (m + 1) (fun _ => 1) % 2 ^ (w * (m + 1)) / 2 ^ (w * m) = sumLanes (m + 1) f := by
  obtain ⟨K, hK⟩ := ofLanes_mul_ones w (m + 1) f
  have hrun : ∀ p < m + 1, sumLanes (p + 1) f < 2 ^ w := fun p hp => (sumLanes_mono (by omega)).trans_lt hsum
  rw [hK, Nat.add_mul_mod_self_left, Nat.mod_eq_of_lt (ofLanes_lt hrun),
    ofLanes_div_top fun p hp => hrun p (by omega)]

end LaneSums
