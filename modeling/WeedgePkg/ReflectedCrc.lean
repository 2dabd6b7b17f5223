import Mathlib.Tactic.Common

/-!
# Reflected CRCs, bit by bit and by table

A reflected CRC register of width `w` takes each input byte at its low end and shifts it
out one bit at a time, folding the (reflected) polynomial in whenever a set bit leaves.
Eight such steps depend only on the low byte, so they can be read from a 256-entry table;
`tableStep_eq` says the two agree, because the step is linear over xor.
-/

namespace WeedgePkg.Crc

variable {w : ℕ}

/-- One step of the register: shift right, folding `poly` in when the bit shifted out is set. -/
def bitStep (poly crc : BitVec w) : BitVec w :=
  if crc.getLsbD 0 then (crc >>> 1) ^^^ poly else crc >>> 1

def bits (poly : BitVec w) : ℕ → BitVec w → BitVec w
  | 0, crc => crc
  | n + 1, crc => bits poly n (bitStep poly crc)

theorem bitStep_xor (poly x y : BitVec w) :
    bitStep poly (x ^^^ y) = bitStep poly x ^^^ bitStep poly y := by
  unfold bitStep
  rw [BitVec.getLsbD_xor, BitVec.ushiftRight_xor_distrib]
  apply BitVec.eq_of_getLsbD_eq
  intro i _
  cases x.getLsbD 0 <;> cases y.getLsbD 0 <;>
    simp only [Bool.false_xor, Bool.true_xor, Bool.xor_false, Bool.not_true,
      Bool.false_eq_true, if_true, if_false, BitVec.getLsbD_xor] <;>
    cases (x >>> 1).getLsbD i <;> cases (y >>> 1).getLsbD i <;> cases poly.getLsbD i <;> rfl

theorem bits_xor (poly : BitVec w) (n : ℕ) (x y : BitVec w) :
    bits poly n (x ^^^ y) = bits poly n x ^^^ bits poly n y := by
  induction n generalizing x y with
  | zero => rfl
  | succ n ih => simp only [bits, bitStep_xor, ih]

theorem bits_of_low_zero (poly : BitVec w) (n : ℕ) (z : BitVec w)
    (hz : ∀ i < n, z.getLsbD i = false) : bits poly n z = z >>> n := by
  induction n generalizing z with
  | zero => simp [bits]
  | succ n ih =>
    have hstep : bitStep poly z = z >>> 1 := by
      simp [bitStep, hz 0 (Nat.succ_pos n)]
    have hlow : ∀ i < n, (z >>> 1).getLsbD i = false := by
      intro i hi
      simpa [Nat.add_comm] using hz (i + 1) (by omega)
    rw [bits, hstep, ih _ hlow, ← BitVec.shiftRight_add, Nat.add_comm]

/-- The register after one byte: the byte enters at the low end, then eight steps. -/
def byteStep (poly crc : BitVec w) (b : BitVec 8) : BitVec w :=
  bits poly 8 (crc ^^^ b.setWidth w)

/-- The table entry of a byte: eight steps from that byte alone. -/
def tableEntry (poly : BitVec w) (i : BitVec 8) : BitVec w :=
  bits poly 8 (i.setWidth w)

/-- The table-driven step: the entry of the low byte xor the input byte, xor the rest. -/
def tableStep (poly crc : BitVec w) (b : BitVec 8) : BitVec w :=
  tableEntry poly (crc.setWidth 8 ^^^ b) ^^^ (crc >>> 8)

theorem tableStep_eq (h : 8 ≤ w) (poly crc : BitVec w) (b : BitVec 8) :
    tableStep poly crc b = byteStep poly crc b := by
  -- split the register into its low byte, which meets the input byte, and the rest
  set low : BitVec w := (crc.setWidth 8).setWidth w
  have hsplit : crc ^^^ b.setWidth w = (crc ^^^ low) ^^^ (crc.setWidth 8 ^^^ b).setWidth w := by
    apply BitVec.eq_of_getLsbD_eq
    intro i hi
    simp only [low, BitVec.getLsbD_xor, BitVec.getLsbD_setWidth]
    cases crc.getLsbD i <;> cases b.getLsbD i <;> by_cases hi8 : i < 8 <;> simp [hi8]
  have hhigh : bits poly 8 (crc ^^^ low) = crc >>> 8 := by
    rw [bits_of_low_zero]
    · apply BitVec.eq_of_getLsbD_eq
      intro i hi
      simp [low, BitVec.getLsbD_xor]
    · intro i hi
      simp [low, hi, show i < w by omega]
  rw [byteStep, hsplit, bits_xor, hhigh, tableStep, tableEntry, BitVec.xor_comm]

/-- The CRC of a byte string from the register `init`, bit by bit. -/
def bitwise (poly init : BitVec w) (bytes : List (BitVec 8)) : BitVec w :=
  bytes.foldl (byteStep poly) init

theorem bitwise_append (poly init : BitVec w) (xs ys : List (BitVec 8)) :
    bitwise poly init (xs ++ ys) = bitwise poly (bitwise poly init xs) ys :=
  List.foldl_append

/-- The table-driven loop computes the bitwise CRC. -/
theorem foldl_tableStep (h : 8 ≤ w) (poly init : BitVec w) (bytes : List (BitVec 8)) :
    bytes.foldl (tableStep poly) init = bitwise poly init bytes := by
  have hstep : tableStep poly = byteStep poly := funext fun crc => funext (tableStep_eq h poly crc)
  rw [bitwise, hstep]

end WeedgePkg.Crc
