import Mathlib.Data.List.GetD

/-!
# Back-references into an output written front to back

A back-reference appends `count` symbols, each a copy of the one `dist` places before it,
so that a copy longer than its distance repeats a pattern. A decoder writes into a buffer
allocated in advance: the part written so far, followed by the fill value.
-/

namespace WeedgePkg.Lz77

variable {α : Type}

/-- `count` symbols appended to `out`, each copied from `dist` places back. -/
def copyBack (dist : ℕ) (fill : α) (out : List α) : ℕ → List α
  | 0 => out
  | count + 1 => copyBack dist fill (out ++ [out.getD (out.length - dist) fill]) count

@[simp] theorem copyBack_zero (dist : ℕ) (fill : α) (out : List α) : copyBack dist fill out 0 = out := rfl

theorem copyBack_succ (dist : ℕ) (fill : α) (out : List α) (count : ℕ) :
    copyBack dist fill out (count + 1) = copyBack dist fill (out ++ [out.getD (out.length - dist) fill]) count :=
  rfl

@[simp] theorem copyBack_length (dist : ℕ) (fill : α) :
    ∀ (out : List α) (count : ℕ), (copyBack dist fill out count).length = out.length + count
  | _, 0 => rfl
  | out, count + 1 => by
    rw [copyBack_succ, copyBack_length, List.length_append, List.length_singleton]
    omega

/-- Writing the next symbol of a buffer moves it from the fill to the written part. -/
theorem set_written (out : List α) (fill v : α) (rest : ℕ) :
    (out ++ List.replicate (rest + 1) fill).set out.length v = (out ++ [v]) ++ List.replicate rest fill := by
  rw [List.set_append_right _ _ (Nat.le_refl _), Nat.sub_self, List.replicate_succ, List.set_cons_zero,
    List.append_assoc, List.singleton_append]

/-- Reading a written symbol of a buffer. -/
theorem getD_written (out : List α) (fill : α) (rest : ℕ) {i : ℕ} (h : i < out.length) :
    (out ++ List.replicate rest fill).getD i fill = out.getD i fill :=
  List.getD_append _ _ _ _ h

end WeedgePkg.Lz77
