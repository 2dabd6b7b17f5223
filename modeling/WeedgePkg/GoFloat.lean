import Mathlib.Algebra.Order.Floor.Semiring
import Mathlib.Data.Rat.Floor
import WeedgePkg.DecimalText

/-!
# Go's `float64` and its decimal texts

A binary64 value is `nan`, an infinity or a finite value `(-1)^neg * mant * 2^exp` kept in
its unique normalized form. `strconv.ParseFloat` reads a decimal or hexadecimal literal and
rounds its exact value to the nearest binary64, ties to even; `strconv.FormatFloat` rounds
the exact binary value to a number of decimal digits, ties to even, and lays the digits out
as the `'f'` and `'g'` formats do. Everything here is computed on exact rationals.
-/

namespace WeedgePkg.GoFloat
open Decimal

/-- A finite binary64 value `(-1)^neg * mant * 2^exp` in normalized form: the mantissa has
53 bits unless the exponent is the least one (zeros and subnormals). -/
structure Finite where
  neg : Bool
  mant : ℕ
  exp : ℤ
  mant_lt : mant < 2 ^ 53
  exp_ge : -1074 ≤ exp
  exp_le : exp ≤ 971
  normal : 2 ^ 52 ≤ mant ∨ exp = -1074
  deriving DecidableEq

/-- `float64`; the payload of a NaN is not kept. -/
inductive Float64 where
  | nan
  | inf (neg : Bool)
  | finite (x : Finite)
  deriving DecidableEq

def Finite.abs (x : Finite) : ℚ := x.mant * 2 ^ x.exp

def zero (neg : Bool) : Float64 := .finite ⟨neg, 0, -1074, by norm_num, le_refl _, by norm_num, .inr rfl⟩

/-! ## Rounding to binary64 -/

/-- Round a nonnegative rational to the nearest natural number, ties to even. -/
def roundHalfEven (q : ℚ) : ℕ :=
  if q - ⌊q⌋₊ < 1 / 2 then ⌊q⌋₊
  else if 1 / 2 < q - ⌊q⌋₊ then ⌊q⌋₊ + 1
  else if ⌊q⌋₊ % 2 = 0 then ⌊q⌋₊ else ⌊q⌋₊ + 1

theorem roundHalfEven_le {q : ℚ} {n : ℕ} (hq : 0 ≤ q) (h : q < n) : roundHalfEven q ≤ n := by
  have hfl : ⌊q⌋₊ < n := (Nat.floor_lt hq).mpr h
  unfold roundHalfEven
  split_ifs <;> omega

theorem le_roundHalfEven {q : ℚ} {n : ℕ} (h : (n : ℚ) ≤ q) : n ≤ roundHalfEven q := by
  have hfl : n ≤ ⌊q⌋₊ := Nat.le_floor h
  unfold roundHalfEven
  split_ifs <;> omega

@[simp] theorem roundHalfEven_natCast (n : ℕ) : roundHalfEven n = n := by
  simp [roundHalfEven]

/-- `⌊log₂ a⌋` of a positive rational, from the bit lengths of its numerator and denominator. -/
def log2Floor (a : ℚ) : ℤ :=
  let c : ℤ := (a.num.toNat.log2 : ℤ) - a.den.log2
  if (2 : ℚ) ^ c ≤ a then c else c - 1

/-- A ratio of naturals lies strictly between the powers of two its bit lengths give. -/
theorem ratio_bracket {n d : ℕ} (hn : 0 < n) (hd : 0 < d) :
    (2 : ℚ) ^ ((n.log2 : ℤ) - d.log2 - 1) < (n : ℚ) / d ∧
      (n : ℚ) / d < 2 ^ ((n.log2 : ℤ) - d.log2 + 1) := by
  have n1 : 2 ^ n.log2 ≤ n := Nat.log2_self_le hn.ne'
  have n2 : n < 2 ^ (n.log2 + 1) := Nat.lt_log2_self
  have d1 : 2 ^ d.log2 ≤ d := Nat.log2_self_le hd.ne'
  have d2 : d < 2 ^ (d.log2 + 1) := Nat.lt_log2_self
  have hdq : (0 : ℚ) < d := by exact_mod_cast hd
  have hlo : (2 : ℚ) ^ ((n.log2 : ℤ) - d.log2 - 1) = 2 ^ n.log2 / 2 ^ (d.log2 + 1) := by
    rw [show (n.log2 : ℤ) - d.log2 - 1 = (n.log2 : ℤ) - ((d.log2 + 1 : ℕ) : ℤ) by push_cast; ring,
      zpow_sub₀ two_ne_zero, zpow_natCast, zpow_natCast]
  have hhi : (2 : ℚ) ^ ((n.log2 : ℤ) - d.log2 + 1) = 2 ^ (n.log2 + 1) / 2 ^ d.log2 := by
    rw [show (n.log2 : ℤ) - d.log2 + 1 = ((n.log2 + 1 : ℕ) : ℤ) - (d.log2 : ℤ) by push_cast; ring,
      zpow_sub₀ two_ne_zero, zpow_natCast, zpow_natCast]
  rw [hlo, hhi]
  constructor
  · rw [div_lt_div_iff₀ (by positivity) hdq]
    have : 2 ^ n.log2 * d < n * 2 ^ (d.log2 + 1) := Nat.mul_lt_mul_of_le_of_lt n1 d2 (by positivity)
    exact_mod_cast this
  · rw [div_lt_div_iff₀ hdq (by positivity)]
    have : n * 2 ^ d.log2 < 2 ^ (n.log2 + 1) * d := Nat.mul_lt_mul_of_lt_of_le n2 d1 hd
    exact_mod_cast this

theorem log2Floor_spec {a : ℚ} (ha : 0 < a) :
    (2 : ℚ) ^ log2Floor a ≤ a ∧ a < 2 ^ (log2Floor a + 1) := by
  have hnum : 0 < a.num := Rat.num_pos.mpr ha
  have hn : 0 < a.num.toNat := by omega
  have ha' : a = (a.num.toNat : ℚ) / a.den := by
    have hcast : ((a.num.toNat : ℤ) : ℚ) = a.num := by exact_mod_cast Int.toNat_of_nonneg hnum.le
    rw [← Int.cast_natCast, hcast, Rat.num_div_den]
  obtain ⟨lo, hi⟩ := ratio_bracket hn a.den_pos
  rw [← ha'] at lo hi
  unfold log2Floor
  dsimp only
  split_ifs with h
  · exact ⟨h, hi⟩
  · refine ⟨lo.le, ?_⟩
    simpa using not_le.mp h

/-- The mantissa and exponent a positive rational rounds to, before the overflow check. -/
def roundMant (a : ℚ) : ℕ × ℤ :=
  let e := max (log2Floor a - 52) (-1074)
  let m := roundHalfEven (a / 2 ^ e)
  if m = 2 ^ 53 then (2 ^ 52, e + 1) else (m, e)

theorem roundMant_valid {a : ℚ} (ha : 0 < a) :
    (roundMant a).1 < 2 ^ 53 ∧ -1074 ≤ (roundMant a).2 ∧
      (2 ^ 52 ≤ (roundMant a).1 ∨ (roundMant a).2 = -1074) := by
  obtain ⟨hlo, hhi⟩ := log2Floor_spec ha
  set k := log2Floor a
  set e := max (k - 52) (-1074)
  have hpos : (0 : ℚ) < 2 ^ e := zpow_pos two_pos e
  -- the scaled magnitude is below `2^53`, and at least `2^52` in the normal range
  have hup : a / 2 ^ e < ((2 ^ 53 : ℕ) : ℚ) := by
    rw [div_lt_iff₀ hpos]
    calc a < 2 ^ (k + 1) := hhi
      _ ≤ 2 ^ ((53 : ℕ) + e) := zpow_le_zpow_right₀ one_le_two (by omega)
      _ = ((2 ^ 53 : ℕ) : ℚ) * 2 ^ e := by rw [zpow_add₀ two_ne_zero]; norm_cast
  have hm : roundHalfEven (a / 2 ^ e) ≤ 2 ^ 53 := roundHalfEven_le (by positivity) hup
  have hnorm : e = k - 52 → 2 ^ 52 ≤ roundHalfEven (a / 2 ^ e) := by
    intro he
    apply le_roundHalfEven
    rw [le_div_iff₀ hpos, he]
    calc ((2 ^ 52 : ℕ) : ℚ) * 2 ^ (k - 52) = 2 ^ ((52 : ℕ) + (k - 52)) := by
          rw [zpow_add₀ two_ne_zero]; norm_cast
      _ = 2 ^ k := by congr 1; omega
      _ ≤ a := hlo
  unfold roundMant
  simp only
  split_ifs with h53
  · exact ⟨by norm_num, by omega, .inl le_rfl⟩
  · refine ⟨lt_of_le_of_ne hm h53, le_max_right _ _, ?_⟩
    rcases max_cases (k - 52) (-1074) with ⟨h1, _⟩ | ⟨h1, _⟩
    · exact .inl (hnorm h1)
    · exact .inr h1

/-- A rational magnitude with a sign, rounded to the nearest binary64, ties to even, and
whether it overflowed to an infinity. -/
def roundToFloat (neg : Bool) (a : ℚ) : Float64 × Bool :=
  if ha : 0 < a then
    if he : (roundMant a).2 ≤ 971 then
      (.finite ⟨neg, (roundMant a).1, (roundMant a).2, (roundMant_valid ha).1,
        (roundMant_valid ha).2.1, he, (roundMant_valid ha).2.2⟩, false)
    else (.inf neg, true)
  else (zero neg, false)

/-- `float64(n)` of an integer: the nearest binary64, ties to even. -/
def ofInt (n : ℤ) : Float64 := (roundToFloat (n < 0) n.natAbs).1

def float64frombits (b : UInt64) : Float64 :=
  let neg := b >>> 63 = 1
  let e := ((b >>> 52) &&& 0x7ff).toNat
  let f := (b &&& 0xfffffffffffff).toNat
  have he : e < 2 ^ 11 := by simpa [e] using Nat.and_lt_two_pow _ (show 0x7ff < 2 ^ 11 by norm_num)
  have hf : f < 2 ^ 52 := by
    simpa [f] using Nat.and_lt_two_pow _ (show 0xfffffffffffff < 2 ^ 52 by norm_num)
  if he1 : e = 2047 then (if f = 0 then .inf neg else .nan)
  else if he0 : e = 0 then .finite ⟨neg, f, -1074, by omega, le_refl _, by norm_num, .inr rfl⟩
  else .finite ⟨neg, f + 2 ^ 52, (e : ℤ) - 1075, by omega, by omega, by omega, .inl (by omega)⟩

/-! ## `strconv.ParseFloat` -/

/-- `lower(c)`: an ASCII letter in lower case, for the comparisons of `strconv`. -/
def lower (c : UInt8) : UInt8 := c ||| 0x20

/-- ASCII upper case to lower case, as `commonPrefixLenIgnoreCase` does. -/
def toLowerAscii (c : UInt8) : UInt8 := if 65 ≤ c ∧ c ≤ 90 then c + 32 else c

def commonPrefixLenIgnoreCase : Bytes → Bytes → ℕ
  | c :: s, p :: ps => if toLowerAscii c = p then commonPrefixLenIgnoreCase s ps + 1 else 0
  | _, _ => 0

/-- `special(s)`: an infinity or NaN at the front of `s`, and the bytes it takes. After a
sign only the infinity case applies: the Go switch falls through into it. -/
def special (s : Bytes) : Option (Float64 × ℕ) :=
  match s with
  | [] => none
  | c :: rest =>
    let signed := c = 43 ∨ c = 45
    let t := if signed then rest else s
    let nsign := if signed then 1 else 0
    if signed ∨ c = 105 ∨ c = 73 then
      let n := commonPrefixLenIgnoreCase t (ascii "infinity")
      let n := if 3 < n ∧ n < 8 then 3 else n
      if n = 3 ∨ n = 8 then some (.inf (c = 45), nsign + n) else none
    else if c = 110 ∨ c = 78 then
      if commonPrefixLenIgnoreCase s (ascii "nan") = 3 then some (.nan, 3) else none
    else none

/-- The value of a mantissa digit: `'0'..'9'`, and `'a'..'f'` in either case for hexadecimal. -/
def digitValue (hex : Bool) (c : UInt8) : Option ℕ :=
  if 48 ≤ c ∧ c ≤ 57 then some (c.toNat - 48)
  else if hex ∧ 97 ≤ lower c ∧ lower c ≤ 102 then some ((lower c).toNat - 87)
  else none

/-- The variables of `readFloat`'s mantissa loop. Go keeps at most 19 (16) digits and a
truncation flag; the exact digits are kept here, which is what the correctly rounded
result depends on. -/
structure FloatScan where
  mant : ℕ
  nd : ℕ
  dp : ℤ
  sawdot : Bool
  sawdigits : Bool
  underscores : Bool

/-- The mantissa loop of `readFloat`: digits, underscores and at most one point. -/
def scanMantissa (hex : Bool) (st : FloatScan) : Bytes → FloatScan × Bytes
  | [] => (st, [])
  | c :: s =>
    if c = 95 then scanMantissa hex { st with underscores := true } s
    else if c = 46 then
      if st.sawdot then (st, c :: s) else scanMantissa hex { st with sawdot := true, dp := st.nd } s
    else
      match digitValue hex c with
      | none => (st, c :: s)
      | some v =>
        -- leading zeros only move the point
        if v = 0 ∧ st.nd = 0 then scanMantissa hex { st with sawdigits := true, dp := st.dp - 1 } s
        else scanMantissa hex
          { st with sawdigits := true, nd := st.nd + 1, mant := st.mant * (if hex then 16 else 10) + v } s

/-- The exponent loop of `readFloat`, which stops accumulating at 10000. -/
def scanExponent (e : ℕ) (underscores : Bool) : Bytes → ℕ × Bool × Bytes
  | [] => (e, underscores, [])
  | c :: s =>
    if c = 95 then scanExponent e true s
    else if 48 ≤ c ∧ c ≤ 57 then
      scanExponent (if e < 10000 then e * 10 + (c.toNat - 48) else e) underscores s
    else (e, underscores, c :: s)

/-- The loop of `underscoreOK`; `saw` is `'^'`, `'0'`, `'_'` or `'!'`. -/
def underscoreScan (hex : Bool) (saw : UInt8) : Bytes → Bool
  | [] => saw ≠ 95
  | c :: s =>
    if (48 ≤ c ∧ c ≤ 57) ∨ (hex ∧ 97 ≤ lower c ∧ lower c ≤ 102) then underscoreScan hex 48 s
    else if c = 95 then (if saw ≠ 48 then false else underscoreScan hex 95 s)
    else if saw = 95 then false
    else underscoreScan hex 33 s

/-- `underscoreOK(s)`: underscores stand only between digits or after a base prefix. -/
def underscoreOK (s : Bytes) : Bool :=
  let s := match s with
    | c :: t => if c = 45 ∨ c = 43 then t else s
    | [] => []
  match s with
  | 48 :: b :: t =>
    if lower b = 98 ∨ lower b = 111 ∨ lower b = 120 then underscoreScan (lower b = 120) 48 t
    else underscoreScan false 94 s
  | _ => underscoreScan false 94 s

/-- The exponent part of `readFloat` after the mantissa: the signed exponent, whether an
underscore was seen, and what is left; `none` where Go returns without `ok`. -/
def readExponent (hex underscores : Bool) : Bytes → Option (ℤ × Bool × Bytes)
  | [] => if hex then none else some (0, underscores, [])
  | c :: r =>
    if lower c = (if hex then 112 else 101) then
      match r with
      | [] => none
      | d :: r' =>
        let esign : ℤ := if d = 45 then -1 else 1
        let r2 := if d = 43 ∨ d = 45 then r' else d :: r'
        match r2 with
        | x :: _ =>
          if 48 ≤ x ∧ x ≤ 57 then
            let (e, u, r3) := scanExponent 0 underscores r2
            some (esign * e, u, r3)
          else none
        | [] => none
    else if hex then none else some (0, underscores, c :: r)

/-- `readFloat(s)`: the sign, the exact magnitude of the literal at the front of `s`, and the
bytes after it; `none` where Go's `ok` is false. -/
def readFloat (s : Bytes) : Option (Bool × ℚ × Bytes) :=
  match s with
  | [] => none
  | c :: t =>
    let neg := c = 45
    let s1 := if c = 43 ∨ c = 45 then t else s
    let (hex, s2) := match s1 with
      | 48 :: x :: y :: r => if lower x = 120 then (true, y :: r) else (false, s1)
      | _ => (false, s1)
    let (st, s3) := scanMantissa hex ⟨0, 0, 0, false, false, false⟩ s2
    if !st.sawdigits then none
    else
      let dp : ℤ := if st.sawdot then st.dp else st.nd
      match readExponent hex st.underscores s3 with
      | none => none
      | some (e, underscores, rest) =>
        if underscores ∧ !underscoreOK (s.take (s.length - rest.length)) then none
        else
          let a : ℚ := if hex then st.mant * 2 ^ (4 * (dp - st.nd) + e)
            else st.mant * 10 ^ (dp - st.nd + e)
          some (neg, a, rest)

/-- The `Err` of a `*strconv.NumError`. -/
inductive NumError where
  | errSyntax
  | errRange
  deriving DecidableEq, Repr

/-- `strconv.ParseFloat(s, 64)`: the nearest binary64, ties to even, with `ErrRange` and an
infinity when it overflows, and `0` with `ErrSyntax` unless all of `s` is one literal. -/
def parseFloat (s : Bytes) : Float64 × Option NumError :=
  match special s with
  | some (f, n) => if n = s.length then (f, none) else (zero false, some .errSyntax)
  | none =>
    match readFloat s with
    | none => (zero false, some .errSyntax)
    | some (neg, a, rest) =>
      if rest ≠ [] then (zero false, some .errSyntax)
      else
        let r := roundToFloat neg a
        (r.1, if r.2 then some .errRange else none)

/-! ## `strconv.FormatFloat` -/

/-- `⌊log₁₀ a⌋` of a positive rational, from the decimal lengths of numerator and denominator. -/
def log10Floor (a : ℚ) : ℤ :=
  let c : ℤ := ((natText a.num.toNat).length : ℤ) - (natText a.den).length
  if (10 : ℚ) ^ c ≤ a then c else c - 1

/-- The first `prec` significant digits of a positive magnitude, rounded half to even, as a
number, and the place of the decimal point: `a ≈ 0.d₁…d_prec × 10^dp`. -/
def fixedDigits (a : ℚ) (prec : ℕ) : ℕ × ℤ :=
  let k := log10Floor a
  let n := roundHalfEven (a * 10 ^ ((prec : ℤ) - 1 - k))
  if n = 10 ^ prec then (10 ^ (prec - 1), k + 2) else (n, k + 1)

def trimZeros (d : Bytes) : Bytes := (d.reverse.dropWhile (· = 48)).reverse

/-- `fmtE`: `-d.ddddde±dd` from the digits `d` and the point `dp`. -/
def fmtE (neg : Bool) (d : Bytes) (dp : ℤ) (prec : ℕ) : Bytes :=
  let exp : ℤ := if d = [] then 0 else dp - 1
  let frac := (d.drop 1).take prec
  (if neg then [45] else []) ++ [d.headD 48] ++
    (if prec = 0 then [] else 46 :: (frac ++ List.replicate (prec - frac.length) 48)) ++
    [101, if exp < 0 then 45 else 43] ++
    (if exp.natAbs < 10 then [48, UInt8.ofNat (48 + exp.natAbs)] else natText exp.natAbs)

/-- `fmtF`: `-ddddddd.ddddd` from the digits `d` and the point `dp`. -/
def fmtF (neg : Bool) (d : Bytes) (dp : ℤ) (prec : ℕ) : Bytes :=
  let digit (j : ℤ) : UInt8 := if 0 ≤ j then d.getD j.toNat 48 else 48
  (if neg then [45] else []) ++
    (if 0 < dp then (List.range dp.toNat).map (fun j => digit j) else [48]) ++
    (if prec = 0 then [] else 46 :: (List.range prec).map (fun i => digit (dp + i)))

/-- `formatDigits` for the `'g'` format: `%e` for small and large exponents, else `%f`. -/
def formatDigitsG (neg : Bool) (d : Bytes) (dp : ℤ) (prec : ℕ) : Bytes :=
  let eprec : ℤ := if d.length < prec ∧ dp ≤ d.length then d.length else prec
  let exp := dp - 1
  if exp < -4 ∨ eprec ≤ exp then fmtE neg d dp (min prec d.length - 1)
  else fmtF neg d dp (((if dp < prec then (d.length : ℤ) else prec) - dp).toNat)

/-- `strconv.FormatFloat(f, 'g', prec, 64)` for `prec ≥ 0`. -/
def formatFloatG (f : Float64) (prec : ℕ) : Bytes :=
  match f with
  | .nan => ascii "NaN"
  | .inf neg => if neg then ascii "-Inf" else ascii "+Inf"
  | .finite x =>
    let prec := if prec = 0 then 1 else prec
    if x.mant = 0 then formatDigitsG x.neg [] 0 prec
    else
      let (n, dp) := fixedDigits x.abs prec
      formatDigitsG x.neg (trimZeros (natText n)) dp prec

/-- `strconv.FormatFloat(f, 'f', prec, 64)`: the exact value rounded half to even at `prec`
places. -/
def formatFloatF (f : Float64) (prec : ℕ) : Bytes :=
  match f with
  | .nan => ascii "NaN"
  | .inf neg => if neg then ascii "-Inf" else ascii "+Inf"
  | .finite x =>
    let n := roundHalfEven (x.abs * 10 ^ prec)
    let frac := natText (n % 10 ^ prec)
    (if x.neg then [45] else []) ++ natText (n / 10 ^ prec) ++
      (if prec = 0 then [] else 46 :: (List.replicate (prec - frac.length) 48 ++ frac))

/-- `fmt.Sprintf("%f", f)`: six places; `"+Inf"`, `"-Inf"` and `"NaN"` as `FormatFloat` spells
them. -/
def sprintfF (f : Float64) : Bytes := formatFloatF f 6

end WeedgePkg.GoFloat
