import Mathlib.Data.Int.Notation
import Mathlib.Data.Nat.Notation
import Mathlib.Logic.Basic

/-!
# Counted loops that may fail

`for i := start; n turns; i += step { st = body(i, st) }` where a turn may stop the whole
loop with an error, and the rules its runs are proved with: what every turn keeps the loop
keeps, and a loop none of whose turns fails does not fail.
-/

namespace WeedgePkg.CountedLoop

variable {ε σ : Type}

theorem bind_eq_ok {α β : Type} {x : Except ε α} {f : α → Except ε β} {b : β} :
    (x >>= f) = .ok b ↔ ∃ a, x = .ok a ∧ f a = .ok b := by
  cases x with
  | error e =>
    constructor
    · intro h; cases h
    · rintro ⟨_, h, _⟩; cases h
  | ok a =>
    constructor
    · intro h; exact ⟨a, rfl, h⟩
    · rintro ⟨_, h, hf⟩; cases h; exact hf

@[simp] theorem ok_bind {α β : Type} (a : α) (f : α → Except ε β) : (Except.ok a >>= f) = f a := rfl

/-- The loop: `count` turns from index `i`, the index moving by `step`. -/
def loopFrom (step : ℤ) (body : ℤ → σ → Except ε σ) : ℕ → ℤ → σ → Except ε σ
  | 0, _, st => .ok st
  | count + 1, i, st => body i st >>= loopFrom step body count (i + step)

@[simp] theorem loopFrom_zero (step : ℤ) (body : ℤ → σ → Except ε σ) (i : ℤ) (st : σ) :
    loopFrom step body 0 i st = .ok st := rfl

theorem loopFrom_succ (step : ℤ) (body : ℤ → σ → Except ε σ) (count : ℕ) (i : ℤ) (st : σ) :
    loopFrom step body (count + 1) i st = body i st >>= loopFrom step body count (i + step) := rfl

/-- A loop whose first turn fails fails with it. -/
theorem loopFrom_succ_of_error {step : ℤ} {body : ℤ → σ → Except ε σ} {i : ℤ} {st : σ} {e : ε}
    (h : body i st = .error e) (count : ℕ) : loopFrom step body (count + 1) i st = .error e := by
  rw [loopFrom_succ, h]
  rfl

section Invariant

variable {step : ℤ} {body : ℤ → σ → Except ε σ}

/-- What every turn keeps, the loop keeps. -/
theorem loopFrom_invariant (P : σ → Prop) (hbody : ∀ i st st', P st → body i st = .ok st' → P st') :
    ∀ count i st st', P st → loopFrom step body count i st = .ok st' → P st'
  | 0, _, _, _, hP, h => by cases h; exact hP
  | count + 1, i, st, st', hP, h => by
    obtain ⟨st₁, hb, hrest⟩ := bind_eq_ok.mp h
    exact loopFrom_invariant P hbody count (i + step) st₁ st' (hbody i st st₁ hP hb) hrest

/-- A loop whose every turn succeeds, each keeping an invariant indexed by the turns done,
succeeds with the invariant of its last turn. -/
theorem loopFrom_ok : ∀ (P : ℕ → σ → Prop) (count : ℕ) (i : ℤ) (st : σ),
    (∀ k st, k < count → P k st → ∃ st', body (i + k * step) st = .ok st' ∧ P (k + 1) st') →
    P 0 st → ∃ st', loopFrom step body count i st = .ok st' ∧ P count st'
  | _, 0, _, st, _, h0 => ⟨st, rfl, h0⟩
  | P, count + 1, i, st, hbody, h0 => by
    obtain ⟨st₁, hb, h1⟩ := hbody 0 st (Nat.succ_pos _) h0
    rw [Int.natCast_zero, Int.zero_mul, Int.add_zero] at hb
    have hrest : ∀ k st, k < count → P (k + 1) st →
        ∃ st', body (i + step + k * step) st = .ok st' ∧ P (k + 1 + 1) st' := by
      intro k st hk hP
      obtain ⟨st', hb', hP'⟩ := hbody (k + 1) st (by omega) hP
      refine ⟨st', ?_, hP'⟩
      rw [← hb', Int.natCast_succ, Int.add_mul, Int.one_mul]
      ac_rfl
    obtain ⟨st', hloop, hP⟩ := loopFrom_ok (fun k => P (k + 1)) count (i + step) st₁ hrest h1
    exact ⟨st', by rw [loopFrom_succ, hb]; exact hloop, hP⟩

/-- `loopFrom_ok` with what the last turn's invariant gives: the rule of consequence. -/
theorem loopFrom_spec (P : ℕ → σ → Prop) (Q : σ → Prop) {count : ℕ} {i : ℤ} {st : σ}
    (hbody : ∀ k st, k < count → P k st → ∃ st', body (i + k * step) st = .ok st' ∧ P (k + 1) st')
    (h0 : P 0 st) (hQ : ∀ st, P count st → Q st) : ∃ st', loopFrom step body count i st = .ok st' ∧ Q st' :=
  (loopFrom_ok P count i st hbody h0).imp fun _ h => ⟨h.1, hQ _ h.2⟩

end Invariant

end WeedgePkg.CountedLoop
