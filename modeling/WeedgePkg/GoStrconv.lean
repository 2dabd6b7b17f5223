import WeedgePkg.DecimalText
import WeedgePkg.GoFloat

/-!
# `strconv.ParseUint`, `ParseInt` and `ParseBool`

Go's integer parsers in base 10 at 64 bits. `ParseUint` reads the digits left to right and
stops at the first byte that is not a decimal digit, a syntax error, or at the first digit
that takes the value past `maxUint64`, a range error that returns the largest value. Which of
the two a text gets depends on which comes first. `ParseInt` takes off one sign, calls
`ParseUint` and clamps to the `int64` range, again returning the bound with the error.
-/

namespace WeedgePkg.Strconv

open Decimal GoFloat

def maxUint64 : ℕ := 2 ^ 64 - 1

def isDigit (c : UInt8) : Bool := 48 ≤ c && c ≤ 57

/-- The loop of `ParseUint(s, 10, 64)` over the bytes left, from the value `n` read so far. A
byte that is not a decimal digit is a syntax error: a letter's digit value is at least 10,
not below the base. -/
def parseUintLoop (n : ℕ) : Bytes → ℕ × Option NumError
  | [] => (n, none)
  | c :: s =>
    if !isDigit c then (0, some .errSyntax)
    -- `n >= cutoff`: `n*base` overflows
    else if maxUint64 / 10 + 1 ≤ n then (maxUint64, some .errRange)
    else
      let n1 := (n * 10 + (c.toNat - 48)) % 2 ^ 64
      if n1 < n * 10 ∨ maxUint64 < n1 then (maxUint64, some .errRange)
      else parseUintLoop n1 s

def parseUint (s : Bytes) : UInt64 × Option NumError :=
  if s = [] then (0, some .errSyntax)
  else
    let r := parseUintLoop 0 s
    (UInt64.ofNat r.1, r.2)

/-- `strconv.ParseInt(s, 10, 64)`: the sign, then `ParseUint` and the `int64` range. -/
def parseInt (s : Bytes) : Int64 × Option NumError :=
  match s with
  | [] => (0, some .errSyntax)
  | c :: t =>
    let neg := c == 45
    let r := parseUint (if c = 43 ∨ c = 45 then t else c :: t)
    if r.2 = some .errSyntax then (0, some .errSyntax)
    -- `cutoff := uint64(1 << uint(bitSize-1))`
    else if !neg ∧ 2 ^ 63 ≤ r.1.toNat then (Int64.maxValue, some .errRange)
    else if neg ∧ 2 ^ 63 < r.1.toNat then (Int64.minValue, some .errRange)
    else (if neg then -r.1.toInt64 else r.1.toInt64, none)

def parseBool (str : Bytes) : Bool × Option NumError :=
  if str ∈ ["1", "t", "T", "true", "TRUE", "True"].map ascii then (true, none)
  else if str ∈ ["0", "f", "F", "false", "FALSE", "False"].map ascii then (false, none)
  else (false, some .errSyntax)

theorem parseBool_eq_true_iff (str : Bytes) :
    (parseBool str).1 = true ↔ str ∈ ["1", "t", "T", "true", "TRUE", "True"].map ascii := by
  unfold parseBool
  split_ifs with htrue <;> simpa using htrue

/-! ## The digit loop -/

theorem foldl_digits (a : ℕ) (p : Bytes) :
    p.foldl (fun n b => n * 10 + (b.toNat - 48)) a = a * 10 ^ p.length + digitsValue p := by
  induction p generalizing a with
  | nil => simp
  | cons b p ih =>
    simp only [List.foldl_cons, digitsValue, List.length_cons] at ih ⊢
    rw [ih, ih (0 * 10 + (b.toNat - 48)), pow_succ]
    ring

theorem digitsValue_cons (b : UInt8) (p : Bytes) :
    digitsValue (b :: p) = (b.toNat - 48) * 10 ^ p.length + digitsValue p := by
  simpa [digitsValue] using foldl_digits (b.toNat - 48) p

/-- A digit read onto `n` overflows exactly when `n * 10 + d` passes `maxUint64`: the cutoff
and the wrap test of the source together say that. -/
theorem parseUintLoop_digit {n : ℕ} (hn : n ≤ maxUint64) {c : UInt8} (hc : isDigit c) (s : Bytes) :
    parseUintLoop n (c :: s) =
      if maxUint64 < n * 10 + (c.toNat - 48) then (maxUint64, some .errRange)
      else parseUintLoop (n * 10 + (c.toNat - 48)) s := by
  have hd : c.toNat - 48 < 10 := by
    simp only [isDigit, Bool.and_eq_true, decide_eq_true_eq] at hc
    have : c.toNat ≤ 57 := hc.2
    omega
  simp only [parseUintLoop, hc, Bool.not_true, Bool.false_eq_true, ↓reduceIte]
  unfold maxUint64 at hn ⊢
  by_cases hover : 2 ^ 64 - 1 < n * 10 + (c.toNat - 48)
  · -- `n` is past the cutoff, or else the sum wraps round below `n * 10`
    rw [if_pos hover]
    split_ifs with hcut hbad
    · rfl
    · rfl
    · exfalso
      omega
  · have hcut : ¬(2 ^ 64 - 1) / 10 + 1 ≤ n := by omega
    have hmod : (n * 10 + (c.toNat - 48)) % 2 ^ 64 = n * 10 + (c.toNat - 48) := Nat.mod_eq_of_lt (by omega)
    rw [if_neg hover, if_neg hcut, hmod, if_neg (by omega)]

theorem parseUintLoop_of_digits {n : ℕ} (hn : n ≤ maxUint64) {p : Bytes} (hp : ∀ c ∈ p, isDigit c) :
    parseUintLoop n p =
      if maxUint64 < n * 10 ^ p.length + digitsValue p then (maxUint64, some .errRange)
      else (n * 10 ^ p.length + digitsValue p, none) := by
  induction p generalizing n with
  | nil => simp [parseUintLoop, hn]
  | cons c p ih =>
    have hc := hp c List.mem_cons_self
    rw [parseUintLoop_digit hn hc, digitsValue_cons]
    -- the value read so far only grows with the digits after it
    have hgrow : n * 10 ^ (p.length + 1) + ((c.toNat - 48) * 10 ^ p.length + digitsValue p) =
        (n * 10 + (c.toNat - 48)) * 10 ^ p.length + digitsValue p := by ring
    have hle : n * 10 + (c.toNat - 48) ≤ (n * 10 + (c.toNat - 48)) * 10 ^ p.length + digitsValue p :=
      le_add_right (Nat.le_mul_of_pos_right _ (Nat.pow_pos (by norm_num)))
    simp only [List.length_cons, hgrow]
    by_cases h₁ : maxUint64 < n * 10 + (c.toNat - 48)
    · rw [if_pos h₁, if_pos (lt_of_lt_of_le h₁ hle)]
    · rw [if_neg h₁, ih (not_lt.mp h₁) fun c hc => hp c (List.mem_cons_of_mem _ hc)]

theorem parseUintLoop_syntax {n : ℕ} (hn : n ≤ maxUint64) {ds : Bytes} (hds : ∀ c ∈ ds, isDigit c)
    {c : UInt8} (hc : isDigit c = false) (rest : Bytes) :
    parseUintLoop n (ds ++ c :: rest) =
      if maxUint64 < n * 10 ^ ds.length + digitsValue ds then (maxUint64, some .errRange)
      else (0, some .errSyntax) := by
  induction ds generalizing n with
  | nil => simp [parseUintLoop, hc, hn]
  | cons d ds ih =>
    have hd := hds d List.mem_cons_self
    rw [List.cons_append, parseUintLoop_digit hn hd, digitsValue_cons]
    have hgrow : n * 10 ^ (ds.length + 1) + ((d.toNat - 48) * 10 ^ ds.length + digitsValue ds) =
        (n * 10 + (d.toNat - 48)) * 10 ^ ds.length + digitsValue ds := by ring
    have hle : n * 10 + (d.toNat - 48) ≤ (n * 10 + (d.toNat - 48)) * 10 ^ ds.length + digitsValue ds :=
      le_add_right (Nat.le_mul_of_pos_right _ (Nat.pow_pos (by norm_num)))
    simp only [List.length_cons, hgrow]
    by_cases h₁ : maxUint64 < n * 10 + (d.toNat - 48)
    · rw [if_pos h₁, if_pos (lt_of_lt_of_le h₁ hle)]
    · rw [if_neg h₁, ih (not_lt.mp h₁) fun c hc => hds c (List.mem_cons_of_mem _ hc)]

/-! ## What the parsers return -/

theorem isDigit_iff {c : UInt8} : isDigit c ↔ 48 ≤ c.toNat ∧ c.toNat ≤ 57 := by
  simp [isDigit, UInt8.le_iff_toNat_le]

theorem isDigit_of_mem_natText {n : ℕ} {c : UInt8} (h : c ∈ natText n) : isDigit c :=
  isDigit_iff.mpr (mem_natText h)

theorem parseUint_digits {p : Bytes} (hne : p ≠ []) (hp : ∀ c ∈ p, isDigit c) (hv : digitsValue p ≤ maxUint64) :
    parseUint p = (UInt64.ofNat (digitsValue p), none) := by
  rw [parseUint, if_neg hne, parseUintLoop_of_digits (Nat.zero_le _) hp]
  simp [not_lt.mpr hv]

/-- The decimal text of every `uint64` reads back. -/
theorem parseUint_natText {n : ℕ} (hn : n ≤ maxUint64) : parseUint (natText n) = (UInt64.ofNat n, none) := by
  have hv := digitsValue_natText n
  rw [parseUint_digits (natText_ne_nil n) (fun c hc => isDigit_of_mem_natText hc) (by rw [hv]; exact hn), hv]

/-- Digits past `maxUint64` give the largest value with a range error. -/
theorem parseUint_overflow {p : Bytes} (hp : ∀ c ∈ p, isDigit c) (hv : maxUint64 < digitsValue p) :
    parseUint p = (UInt64.ofNat maxUint64, some .errRange) := by
  have hne : p ≠ [] := by rintro rfl; simp at hv
  rw [parseUint, if_neg hne, parseUintLoop_of_digits (Nat.zero_le _) hp]
  simp [hv]

/-- A byte that is not a digit, after digits that stay in range, is a syntax error. -/
theorem parseUint_syntax {ds : Bytes} (hds : ∀ c ∈ ds, isDigit c) (hv : digitsValue ds ≤ maxUint64)
    {c : UInt8} (hc : isDigit c = false) (rest : Bytes) :
    parseUint (ds ++ c :: rest) = (0, some .errSyntax) := by
  rw [parseUint, if_neg (by simp), parseUintLoop_syntax (Nat.zero_le _) hds hc]
  simp [not_lt.mpr hv]

theorem toNat_ofNat_of_le {m : ℕ} (hm : m ≤ maxUint64) : (UInt64.ofNat m).toNat = m := by
  simp only [UInt64.toNat_ofNat']
  unfold maxUint64 at hm
  omega

theorem toInt64_ofNat_toNat {n : Int64} (hn : 0 ≤ n.toInt) : (UInt64.ofNat n.toInt.toNat).toInt64 = n := by
  have hhi := Int64.toInt_lt n
  apply Int64.toInt_inj.mp
  simp only [UInt64.toInt64_ofNat', Int64.toInt_ofNat']
  rw [Int64.size, Int.bmod_def]
  push_cast
  split_ifs <;> omega

/-- Negating the bits of `m ≤ 2^63`: at `m = 2^63` both wraps meet at `minInt64`. -/
theorem toInt_neg_toInt64_ofNat {m : ℕ} (hm : m ≤ 2 ^ 63) : (-(UInt64.ofNat m).toInt64).toInt = -(m : ℤ) := by
  rw [Int64.toInt_neg]
  simp only [UInt64.toInt64_ofNat', Int64.toInt_ofNat']
  rw [Int64.size, Int.bmod_def, Int.bmod_def]
  push_cast
  split_ifs <;> omega

theorem parseInt_minus (t : Bytes) :
    parseInt (45 :: t) =
      if (parseUint t).2 = some .errSyntax then (0, some .errSyntax)
      else if 2 ^ 63 < (parseUint t).1.toNat then (Int64.minValue, some .errRange)
      else (-(parseUint t).1.toInt64, none) := by
  simp [parseInt]

theorem parseInt_unsigned {c : UInt8} (hc : ¬(c = 43 ∨ c = 45)) (t : Bytes) :
    parseInt (c :: t) =
      if (parseUint (c :: t)).2 = some .errSyntax then (0, some .errSyntax)
      else if 2 ^ 63 ≤ (parseUint (c :: t)).1.toNat then (Int64.maxValue, some .errRange)
      else ((parseUint (c :: t)).1.toInt64, none) := by
  have h45 : (c == 45) = false := by simpa using fun h => hc (.inr h)
  simp only [parseInt, if_neg hc, h45]
  simp

/-- The decimal text of every `int64` reads back, `minInt64` included. -/
theorem parseInt_intText (n : Int64) : parseInt (intText n.toInt) = (n, none) := by
  have hlo := Int64.le_toInt n
  have hhi := Int64.toInt_lt n
  by_cases hneg : n.toInt < 0
  · have hm : n.toInt.natAbs ≤ maxUint64 := by unfold maxUint64; omega
    have hval : -(UInt64.ofNat n.toInt.natAbs).toInt64 = n :=
      Int64.toInt_inj.mp (by rw [toInt_neg_toInt64_ofNat (by omega)]; omega)
    rw [intText_neg hneg, parseInt_minus, parseUint_natText hm, toNat_ofNat_of_le hm, if_neg (by simp),
      if_neg (by omega), hval]
  · obtain ⟨c, t, hct⟩ := List.exists_cons_of_ne_nil (natText_ne_nil n.toInt.toNat)
    have hc := isDigit_iff.mp (isDigit_of_mem_natText (hct ▸ List.mem_cons_self : c ∈ natText n.toInt.toNat))
    have hm : n.toInt.toNat ≤ maxUint64 := by unfold maxUint64; omega
    have hsign : ¬(c = 43 ∨ c = 45) := by
      rintro (rfl | rfl) <;> simp at hc
    rw [intText_nonneg (not_lt.mp hneg), hct, parseInt_unsigned hsign, ← hct, parseUint_natText hm,
      toNat_ofNat_of_le hm, if_neg (by simp), if_neg (by omega), toInt64_ofNat_toNat (not_lt.mp hneg)]

/-- Digits at or past `2^63` clamp to `maxInt64`, with a range error. -/
theorem parseInt_overflow {p : Bytes} (hp : ∀ c ∈ p, isDigit c) (hv : 2 ^ 63 ≤ digitsValue p) :
    parseInt p = (Int64.maxValue, some .errRange) := by
  obtain ⟨c, t, rfl⟩ := List.exists_cons_of_ne_nil (show p ≠ [] by rintro rfl; simp at hv)
  have hsign : ¬(c = 43 ∨ c = 45) := by
    have hc := isDigit_iff.mp (hp c List.mem_cons_self)
    rintro (rfl | rfl) <;> simp at hc
  rw [parseInt_unsigned hsign]
  by_cases hover : maxUint64 < digitsValue (c :: t)
  · rw [parseUint_overflow hp hover, toNat_ofNat_of_le le_rfl]
    simp [maxUint64]
  · rw [parseUint_digits (List.cons_ne_nil c t) hp (not_lt.mp hover), toNat_ofNat_of_le (not_lt.mp hover)]
    simp only [reduceCtorEq, if_false, if_pos hv]

/-- A `'-'` before digits past `2^63` clamps to `minInt64`, with a range error. -/
theorem parseInt_minus_overflow {p : Bytes} (hp : ∀ c ∈ p, isDigit c) (hv : 2 ^ 63 < digitsValue p) :
    parseInt (45 :: p) = (Int64.minValue, some .errRange) := by
  rw [parseInt_minus]
  by_cases hover : maxUint64 < digitsValue p
  · rw [parseUint_overflow hp hover, toNat_ofNat_of_le le_rfl]
    simp [maxUint64]
  · have hne : p ≠ [] := by rintro rfl; simp at hv
    rw [parseUint_digits hne hp (not_lt.mp hover), toNat_ofNat_of_le (not_lt.mp hover)]
    simp only [reduceCtorEq, if_false, if_pos hv]

end WeedgePkg.Strconv
