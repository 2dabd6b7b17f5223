import Mathlib.Tactic.IntervalCases

/-!
# Decimal text of integers

Go's `strconv.Itoa`, `strconv.FormatInt(n, 10)`, `strconv.AppendInt(dst, n, 10)` and the `%d`
verb all write one text: a `-` before a negative number, then its decimal digits, most
significant first. This file fixes that text over byte strings and the left fold that reads
the digits back, exactly over `ℕ` and wrapped over `Int64` as Go's `n = n*10 + d` does.
-/

namespace WeedgePkg

/-- Byte strings: the model of Go's `[]byte` and `string` values. -/
abbrev Bytes := List UInt8

/-- The bytes of a string literal of the source, all of which are ASCII. -/
def ascii (s : String) : Bytes := s.toList.map Char.toUInt8

namespace Decimal

/-- The decimal digits of `n`, most significant first, as ASCII bytes. -/
def natText (n : ℕ) : Bytes := (Nat.toDigits 10 n).map Char.toUInt8

/-- `strconv.FormatInt(n, 10)`: the digits of `|n|`, after a `-` when `n` is negative. -/
def intText (n : ℤ) : Bytes := if n < 0 then 45 :: natText n.natAbs else natText n.toNat

def digitsValue (p : Bytes) : ℕ := p.foldl (fun n b => n * 10 + (b.toNat - 48)) 0

/-- One pass of Go's `n *= 10; n += int64(b - '0')` on an `int64` accumulator. -/
def wrapStep (n : Int64) (b : UInt8) : Int64 := n * 10 + Int64.ofNat (b.toNat - 48)

theorem digitChar_toUInt8 {d : ℕ} (h : d < 10) :
    (Nat.digitChar d).toUInt8 = UInt8.ofNat (48 + d) := by
  interval_cases d <;> rfl

/-- The last digit comes off the end, as `Nat.toDigits` produces it. -/
theorem natText_eq (n : ℕ) :
    natText n = (if n < 10 then [] else natText (n / 10)) ++ [UInt8.ofNat (48 + n % 10)] := by
  unfold natText
  rw [Nat.toDigits_eq_if (by omega)]
  split
  · rename_i h
    simp [digitChar_toUInt8 h, Nat.mod_eq_of_lt h]
  · simp [digitChar_toUInt8 (Nat.mod_lt n (by omega : 10 > 0))]

theorem natText_ne_nil (n : ℕ) : natText n ≠ [] := by
  rw [natText_eq]
  simp

theorem mem_natText {n : ℕ} {b : UInt8} (h : b ∈ natText n) : 48 ≤ b.toNat ∧ b.toNat ≤ 57 := by
  induction n using Nat.strong_induction_on with
  | _ n ih =>
    rw [natText_eq, List.mem_append, List.mem_singleton] at h
    rcases h with h | rfl
    · split at h
      · simp at h
      · exact ih (n / 10) (by omega) h
    · simp only [UInt8.toNat_ofNat']
      omega

/-- Digits are none of the bytes that frame a line or sign a number. -/
theorem natText_no_byte {n : ℕ} {c : UInt8} (hc : c.toNat < 48 ∨ 57 < c.toNat) : c ∉ natText n := by
  intro h
  have := mem_natText h
  omega

theorem natText_length_le {n k : ℕ} (hk : 1 ≤ k) (h : n < 10 ^ k) : (natText n).length ≤ k := by
  induction k generalizing n with
  | zero => omega
  | succ k ih =>
    rw [natText_eq]
    split
    · simp
    · have hk' : 1 ≤ k := by
        rcases k with _ | k
        · simp at h
          omega
        · omega
      have hq : n / 10 < 10 ^ k := by
        rw [Nat.pow_succ] at h
        omega
      have := ih hk' hq
      simp only [List.length_append, List.length_singleton]
      omega

@[simp] theorem digitsValue_nil : digitsValue [] = 0 := rfl

theorem digitsValue_append_singleton (p : Bytes) (b : UInt8) :
    digitsValue (p ++ [b]) = digitsValue p * 10 + (b.toNat - 48) := by
  simp [digitsValue, List.foldl_append]

theorem digitsValue_natText (n : ℕ) : digitsValue (natText n) = n := by
  induction n using Nat.strong_induction_on with
  | _ n ih =>
    rw [natText_eq, digitsValue_append_singleton]
    have hd : (UInt8.ofNat (48 + n % 10)).toNat = 48 + n % 10 := by
      simp only [UInt8.toNat_ofNat']
      omega
    split
    · simp only [digitsValue_nil, hd]
      omega
    · rw [ih (n / 10) (by omega), hd]
      omega

/-- Wrapping at each step agrees with wrapping once at the end. -/
theorem foldl_wrapStep (p : Bytes) (a : ℕ) :
    p.foldl wrapStep (Int64.ofNat a) = Int64.ofNat (p.foldl (fun n b => n * 10 + (b.toNat - 48)) a) := by
  induction p generalizing a with
  | nil => rfl
  | cons b p ih =>
    simp only [List.foldl_cons, ← ih, wrapStep, Int64.ofNat_add, Int64.ofNat_mul]
    rfl

theorem foldl_wrapStep_zero (p : Bytes) : p.foldl wrapStep 0 = Int64.ofNat (digitsValue p) :=
  foldl_wrapStep p 0

theorem intText_nonneg {n : ℤ} (h : 0 ≤ n) : intText n = natText n.toNat := by
  simp [intText, not_lt.mpr h]

theorem intText_neg {n : ℤ} (h : n < 0) : intText n = 45 :: natText n.natAbs := by
  simp [intText, h]

theorem intText_ofNat (n : ℕ) : intText n = natText n := by
  simp [intText]

end Decimal

end WeedgePkg
