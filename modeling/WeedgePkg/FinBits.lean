import Mathlib.Data.Finset.Image
import Mathlib.Data.Finset.Range
import Mathlib.Data.Finset.SymmDiff

/-!
# Finite sets of positions below a length

The value a fixed-length bit set stands for: a length and the positions below it that are in
the set. The Boolean operations of two sets take the longer length, the complement is taken
below the length, and a shift moves every position by a count and drops those that leave the
range. Every operation keeps its positions below its length, which is a field.
-/

/-- A set of positions, all below `len`. -/
@[ext] structure FinBits where
  len : ℕ
  elems : Finset ℕ
  lt_len : ∀ p ∈ elems, p < len

namespace FinBits

open scoped symmDiff

variable (a b : FinBits)

/-- No position. -/
def empty (len : ℕ) : FinBits := ⟨len, ∅, fun _ h => absurd h (Finset.notMem_empty _)⟩

/-- Position `p` put in the set or taken out; a position past the length changes nothing. -/
def update (p : ℕ) (v : Bool) : FinBits :=
  if h : p < a.len then
    ⟨a.len, if v then insert p a.elems else a.elems.erase p, fun q hq => by
      split_ifs at hq
      · rcases Finset.mem_insert.mp hq with rfl | hq
        exacts [h, a.lt_len q hq]
      · exact a.lt_len q (Finset.mem_of_mem_erase hq)⟩
  else a

@[simp] theorem update_len (p : ℕ) (v : Bool) : (a.update p v).len = a.len := by
  unfold update
  split_ifs <;> rfl

def inter : FinBits :=
  ⟨max a.len b.len, a.elems ∩ b.elems, fun p hp => lt_max_of_lt_left (a.lt_len p (Finset.mem_inter.mp hp).1)⟩

def union : FinBits :=
  ⟨max a.len b.len, a.elems ∪ b.elems, fun p hp => (Finset.mem_union.mp hp).elim
    (fun h => lt_max_of_lt_left (a.lt_len p h)) (fun h => lt_max_of_lt_right (b.lt_len p h))⟩

def symmDiff : FinBits :=
  ⟨max a.len b.len, a.elems ∆ b.elems, fun p hp => (Finset.mem_symmDiff.mp hp).elim
    (fun h => lt_max_of_lt_left (a.lt_len p h.1)) (fun h => lt_max_of_lt_right (b.lt_len p h.1))⟩

/-- The positions of `a` not in `b`, below `a`'s length. -/
def sdiff : FinBits := ⟨a.len, a.elems \ b.elems, fun p hp => a.lt_len p (Finset.mem_sdiff.mp hp).1⟩

/-- The positions below the length not in the set. -/
def compl : FinBits :=
  ⟨a.len, Finset.range a.len \ a.elems, fun _ hp => Finset.mem_range.mp (Finset.mem_sdiff.mp hp).1⟩

/-- Every position moved up by `n`; those that reach the length are dropped. -/
def shiftUp (n : ℕ) : FinBits :=
  ⟨a.len, (a.elems.image (· + n)).filter (· < a.len), fun _ hp => (Finset.mem_filter.mp hp).2⟩

/-- Every position from `n` up moved down by `n`; those below `n` are dropped. -/
def shiftDown (n : ℕ) : FinBits :=
  ⟨a.len, (a.elems.filter (n ≤ ·)).image (· - n), fun p hp => by
    obtain ⟨q, hq, rfl⟩ := Finset.mem_image.mp hp
    exact lt_of_le_of_lt (Nat.sub_le q n) (a.lt_len q (Finset.mem_filter.mp hq).1)⟩

end FinBits
