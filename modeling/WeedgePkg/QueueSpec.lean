import Mathlib.Data.List.Induction
import Mathlib.Data.List.Perm.Subperm
import WeedgePkg.Queue

/-!
# The sequential queue

What `Put`, `PutOrUpdate`, `Poll` and `Dispose` mean one at a time: a list of items and a
flag. A call is an event, its arguments with its results; `Seq.Step` says which results a call
may have on a queue and what it leaves, and `Seq.Run` runs events from the new queue. A `Poll`
times out only on an empty queue, and after `Dispose` every call fails with `ErrDisposed`.
-/

namespace WeedgePkg.Jobutils.Queue

variable {α : Type}

inductive Event (α : Type) where
  | put (items : List α) (err : Option QueueError)
  | putOrUpdate (cmp : α → α → Bool) (item : α) (err : Option QueueError)
  | poll (number : ℕ) (taken : List α) (err : Option QueueError)
  | dispose (items : List α)

structure Seq (α : Type) where
  items : List α
  disposed : Bool

inductive Seq.Step : Seq α → Event α → Seq α → Prop
  | put (items xs : List α) : Seq.Step ⟨items, false⟩ (.put xs none) ⟨items ++ xs, false⟩
  | putDisposed (items xs : List α) : Seq.Step ⟨items, true⟩ (.put xs (some .disposed)) ⟨items, true⟩
  | putOrUpdate (items : List α) (cmp : α → α → Bool) (item : α) :
      Seq.Step ⟨items, false⟩ (.putOrUpdate cmp item none) ⟨putOrUpdateItems cmp item items, false⟩
  | putOrUpdateDisposed (items : List α) (cmp : α → α → Bool) (item : α) :
      Seq.Step ⟨items, true⟩ (.putOrUpdate cmp item (some .disposed)) ⟨items, true⟩
  | poll (items : List α) (number : ℕ) (h : items ≠ []) :
      Seq.Step ⟨items, false⟩ (.poll number (items.take number) none) ⟨items.drop number, false⟩
  | pollTimeout (number : ℕ) : Seq.Step ⟨[], false⟩ (.poll number [] (some .timeout)) ⟨[], false⟩
  | pollDisposed (items : List α) (number : ℕ) :
      Seq.Step ⟨items, true⟩ (.poll number [] (some .disposed)) ⟨items, true⟩
  | dispose (s : Seq α) : Seq.Step s (.dispose s.items) ⟨[], true⟩

/-- The events, in order, from the new queue to `s`. -/
inductive Seq.Run : List (Event α) → Seq α → Prop
  | nil : Seq.Run [] ⟨[], false⟩
  | snoc {es : List (Event α)} {s s' : Seq α} {e : Event α} : Seq.Run es s → Seq.Step s e s' → Seq.Run (es ++ [e]) s'

/-- A `Poll` that timed out. -/
def Event.timedOut : Event α → Bool
  | .poll _ [] (some .timeout) => true
  | _ => false

/-- The items a call adds to the queue. -/
def Event.added : Event α → List α
  | .put xs none => xs
  | .putOrUpdate _ item none => [item]
  | _ => []

/-- The items a call hands out. -/
def Event.removed : Event α → List α
  | .poll _ taken none => taken
  | .dispose items => items
  | _ => []

theorem Seq.Step.eq_of_timedOut {s s' : Seq α} {e : Event α} (h : Seq.Step s e s') (he : e.timedOut) : s' = s := by
  cases h <;> first | rfl | simp [Event.timedOut] at he

theorem Seq.Run.snoc_iff {es : List (Event α)} {e : Event α} {s' : Seq α} :
    Seq.Run (es ++ [e]) s' ↔ ∃ s, Seq.Run es s ∧ Seq.Step s e s' := by
  constructor
  · intro h
    generalize hes : es ++ [e] = es' at h
    cases h with
    | nil => simp at hes
    | snoc hr hs =>
      obtain ⟨rfl, he⟩ := List.append_inj' hes rfl
      cases he
      exact ⟨_, hr, hs⟩
  · rintro ⟨s, hr, hs⟩
    exact .snoc hr hs

/-- Dropping timeouts from a run: a timeout leaves the queue as it was. -/
theorem Seq.Run.filter {β : Type} (f : β → Event α) (p : β → Bool) :
    ∀ {L : List β} {s : Seq α}, Seq.Run (L.map f) s → (∀ x ∈ L, p x = false → (f x).timedOut) →
      Seq.Run ((L.filter p).map f) s := by
  intro L
  induction L using List.reverseRecOn with
  | nil => intro s h _; simpa using h
  | append_singleton L x ih =>
    intro s h hdrop
    rw [List.map_append, List.map_singleton, Seq.Run.snoc_iff] at h
    obtain ⟨s₀, hr, hs⟩ := h
    have hr' := ih hr fun y hy => hdrop y (List.mem_append_left _ hy)
    rw [List.filter_append, List.filter_singleton]
    cases hpx : p x
    · -- the dropped event is a timeout, which changed nothing
      rw [hs.eq_of_timedOut (hdrop x (by simp) hpx)]
      simpa using hr'
    · simpa using Seq.Run.snoc hr' hs

theorem set_subperm (l : List α) (n : ℕ) (a : α) : (l.set n a).Subperm (l ++ [a]) := by
  by_cases hn : n < l.length
  · -- the item written stands where one of `l` stood
    rw [List.set_eq_take_cons_drop a hn]
    have hmid : (List.take n l ++ a :: List.drop (n + 1) l).Perm (a :: l.eraseIdx n) := by
      rw [List.eraseIdx_eq_take_drop_succ]
      exact List.perm_middle
    exact hmid.subperm.trans (((List.eraseIdx_sublist l n).cons_cons a).subperm.trans
      (List.perm_append_singleton a l).symm.subperm)
  · rw [List.set_eq_of_length_le (by omega)]
    exact (List.sublist_append_left l [a]).subperm

theorem putOrUpdateItems_subperm (cmp : α → α → Bool) (item : α) (items : List α) :
    (putOrUpdateItems cmp item items).Subperm (items ++ [item]) := by
  unfold putOrUpdateItems
  split
  · exact set_subperm items _ item
  · exact List.Subperm.refl _

/-- What a run hands out, with what it still holds, is, counted with multiplicity, among what
it was given: no item is handed out twice. -/
theorem Seq.Run.removed_subperm {es : List (Event α)} {s : Seq α} (h : Seq.Run es s) :
    (es.flatMap Event.removed ++ s.items).Subperm (es.flatMap Event.added) := by
  induction h with
  | nil => exact List.Subperm.refl _
  | @snoc es s s' e hr hs ih =>
    cases hs with
    | put items xs =>
      simpa [Event.removed, Event.added] using ih.append (List.Subperm.refl xs)
    | putOrUpdate items cmp item =>
      simp only [List.flatMap_append, List.flatMap_singleton, Event.removed, Event.added, List.append_nil]
      exact ((List.Subperm.refl _).append (putOrUpdateItems_subperm cmp item items)).trans
        (by simpa only [List.append_assoc] using ih.append (List.Subperm.refl [item]))
    | poll items number _ =>
      simpa [Event.removed, Event.added] using ih
    | _ => simpa [Event.removed, Event.added] using ih

end WeedgePkg.Jobutils.Queue
