import WeedgePkg.Queue

/-!
# The handshake of `Put` and `Poll`

A `Poll` that finds no item parks a semaphore in `waiters`: a one-slot `ready` channel and a
`response` WaitGroup. The `Put` that takes it out of `waiters`, or `Dispose`, adds one to
`response` and then sends on `ready` unless it is full, and a `Put` that sent waits for
`response` to come back to zero. The `Poll` receives and calls `Done()`; timing out, it fills
`ready` itself, or finds it full and calls `Done()`. A `Done()` below zero panics.

Every sender holds `q.lock`, so one sends at a time. The `Poll` owes one `Done()` while it
listens with `ready` full, and after it has received; `response` covers what the `Poll` owes,
and one more while a sender is about to send. So in every interleaving of any calls no `Poll`
panics.
-/

namespace WeedgePkg.Jobutils.Queue

variable {τ α : Type}

/-! ## Where the goroutines are -/

namespace PutPc

def holds : PutPc τ → Bool
  | .add _ | .send _ | .wait _ | .unlock _ => true
  | _ => false

def target : PutPc τ → Option τ
  | .add s | .send s | .wait s => some s
  | _ => none

def sendsTo : PutPc τ → Option τ
  | .send s => some s
  | _ => none

end PutPc

namespace DisposePc

def holds : DisposePc τ α → Bool
  | .add _ | .send _ | .unlock _ => true
  | _ => false

def targets : DisposePc τ α → List τ
  | .add left | .send left => left
  | _ => []

def sendsTo : DisposePc τ α → Option τ
  | .send (s :: _) => some s
  | _ => none

end DisposePc

namespace PollPc

def holds : PollPc α → Bool
  | .unlock _ _ | .unlockWait | .timeoutUnlock => true
  | _ => false

/-- Past the first `q.lock.Lock()`: its semaphore is made, if it needs one. -/
def parked : PollPc α → Bool
  | .start | .lock => false
  | _ => true

/-- The `Done()` the call owes: one while it listens with `ready` full, and one once it has
received or found `ready` full at its timeout. -/
def owed (ready : Bool) : PollPc α → ℕ
  | .unlockWait | .select | .timeoutSend => ready.toNat
  | .signal _ | .timeoutDone => 1
  | _ => 0

end PollPc

namespace ExecPc

def holds : ExecPc τ α → Bool
  | .wait | .unlock => true
  | .dispose pc => pc.holds
  | _ => false

def targets : ExecPc τ α → List τ
  | .dispose pc => pc.targets
  | _ => []

def sendsTo : ExecPc τ α → Option τ
  | .dispose pc => pc.sendsTo
  | _ => none

end ExecPc

namespace Thread

def holds : Thread τ α → Bool
  | .put _ pc | .putOrUpdate _ _ pc => pc.holds
  | .poll _ _ pc => pc.holds
  | .dispose pc => pc.holds
  | .execute _ pc _ => pc.holds
  | .worker _ _ => false

def targets : Thread τ α → List τ
  | .put _ pc | .putOrUpdate _ _ pc => pc.target.toList
  | .dispose pc => pc.targets
  | .execute _ pc _ => pc.targets
  | _ => []

def sendsTo : Thread τ α → Option τ
  | .put _ pc | .putOrUpdate _ _ pc => pc.sendsTo
  | .dispose pc => pc.sendsTo
  | .execute _ pc _ => pc.sendsTo
  | _ => none

def parked : Thread τ α → Bool
  | .poll _ _ pc => pc.parked
  | _ => false

def owed (ready : Bool) : Thread τ α → ℕ
  | .poll _ _ pc => pc.owed ready
  | _ => 0

def panicked : Thread τ α → Bool
  | .poll _ _ .panicked => true
  | _ => false

end Thread

/-! ## The invariant -/

/-- The handshake's invariant: only the holder of `q.lock` is in a waking loop, every waiter
and every semaphore a loop has still to wake belongs to a parked `Poll`, `response` covers what
each `Poll` owes and the send about to be made, and no `Poll` has panicked. -/
structure SemaOk (w : World τ α) : Prop where
  holder : ∀ s, (w.threads s).holds → w.q.lock = some s
  waiting : ∀ s ∈ w.q.waiters, (w.threads s).parked
  targets : ∀ s, ∀ t ∈ (w.threads s).targets, (w.threads t).parked
  covered : ∀ t, (w.threads t).owed (w.q.ready t) ≤ w.q.response t
  sending : ∀ s t, (w.threads s).sendsTo = some t → (w.threads t).owed (w.q.ready t) + 1 ≤ w.q.response t
  calm : ∀ s, (w.threads s).panicked = false

theorem Thread.holds_of_sendsTo {th : Thread τ α} {t : τ} (h : th.sendsTo = some t) : th.holds := by
  match th with
  | .put _ (.send _) | .putOrUpdate _ _ (.send _) | .dispose (.send (_ :: _))
  | .execute _ (.dispose (.send (_ :: _))) _ => rfl

theorem Thread.owed_le_one (th : Thread τ α) (r : Bool) : th.owed r ≤ 1 := by
  match th with
  | .poll _ _ pc => cases pc <;> cases r <;> simp [Thread.owed, PollPc.owed]
  | .put .. | .putOrUpdate .. | .dispose _ | .execute .. | .worker .. => exact Nat.zero_le 1

theorem Thread.owed_le_succ (th : Thread τ α) (r r' : Bool) : th.owed r' ≤ th.owed r + 1 :=
  (th.owed_le_one r').trans (Nat.le_add_left 1 _)

namespace SemaOk

variable [DecidableEq τ] {w : World τ α} {s : τ} {q' : Queue τ α} {th' : Thread τ α}

/-- A step of `s` that leaves every other goroutine where it is: the lock is kept, taken while
free or given back by its holder, and the waiters and targets come from those there were. -/
theorem update (h : SemaOk w)
    (hlock : q'.lock = w.q.lock ∨ (w.q.lock = none ∧ q'.lock = some s) ∨
      ((w.threads s).holds ∧ q'.lock = none))
    (hholds : th'.holds → q'.lock = some s)
    (hwaiting : ∀ u ∈ q'.waiters, u ∈ w.q.waiters ∨ (u = s ∧ th'.parked))
    (htargets : ∀ u ∈ th'.targets, u ∈ (w.threads s).targets ∨ u ∈ w.q.waiters)
    (hparked : (w.threads s).parked → th'.parked)
    (hcovered : ∀ t, (Function.update w.threads s th' t).owed (q'.ready t) ≤ q'.response t)
    (hsending : ∀ u t, (Function.update w.threads s th' u).sendsTo = some t →
      (Function.update w.threads s th' t).owed (q'.ready t) + 1 ≤ q'.response t)
    (hcalm : th'.panicked = false) :
    SemaOk ⟨q', Function.update w.threads s th'⟩ := by
  -- a goroutine parked before is parked after
  have hpark : ∀ u, (w.threads u).parked → (Function.update w.threads s th' u).parked := fun u hu => by
    by_cases hus : u = s
    · subst hus; rw [Function.update_self]; exact hparked hu
    · rwa [Function.update_of_ne hus]
  refine ⟨fun u hu => ?_, fun u hu => ?_, fun u t ht => ?_, hcovered, hsending, fun u => ?_⟩ <;>
    dsimp only at *
  · by_cases hus : u = s
    · subst hus; rw [Function.update_self] at hu; exact hholds hu
    · rw [Function.update_of_ne hus] at hu
      have hu' := h.holder u hu
      rcases hlock with hl | ⟨hnone, -⟩ | ⟨hs, -⟩
      · exact hl.trans hu'
      · rw [hnone] at hu'; cases hu'
      · rw [h.holder s hs] at hu'; exact absurd (Option.some.inj hu').symm hus
  · rcases hwaiting u hu with hu | ⟨rfl, hp⟩
    · exact hpark u (h.waiting u hu)
    · rw [Function.update_self]; exact hp
  · by_cases hus : u = s
    · subst hus
      rw [Function.update_self] at ht
      rcases htargets t ht with ht | ht
      · exact hpark t (h.targets u t ht)
      · exact hpark t (h.waiting t ht)
    · rw [Function.update_of_ne hus] at ht
      exact hpark t (h.targets u t ht)
  · by_cases hus : u = s
    · subst hus; rw [Function.update_self]; exact hcalm
    · rw [Function.update_of_ne hus]; exact h.calm u

/-! ### What a step does to the semaphores -/

/-- A step that leaves the semaphores alone, where `s` owes no more and sends on nothing new. -/
theorem covered_frame (h : SemaOk w) (hready : q'.ready = w.q.ready) (hresp : q'.response = w.q.response)
    (howed : ∀ r, th'.owed r ≤ (w.threads s).owed r) :
    ∀ t, (Function.update w.threads s th' t).owed (q'.ready t) ≤ q'.response t := fun t => by
  rw [hready, hresp]
  by_cases hts : t = s
  · subst hts; rw [Function.update_self]; exact (howed _).trans (h.covered t)
  · rw [Function.update_of_ne hts]; exact h.covered t

theorem sending_frame (h : SemaOk w) (hready : q'.ready = w.q.ready) (hresp : q'.response = w.q.response)
    (howed : ∀ r, th'.owed r ≤ (w.threads s).owed r)
    (hsends : ∀ t, th'.sendsTo = some t → (w.threads s).sendsTo = some t) :
    ∀ u t, (Function.update w.threads s th' u).sendsTo = some t →
      (Function.update w.threads s th' t).owed (q'.ready t) + 1 ≤ q'.response t := fun u t hu => by
  have hu' : (w.threads u).sendsTo = some t := by
    by_cases hus : u = s
    · subst hus; rw [Function.update_self] at hu; exact hsends t hu
    · rwa [Function.update_of_ne hus] at hu
  rw [hready, hresp]
  by_cases hts : t = s
  · subst hts; rw [Function.update_self]; exact (Nat.add_le_add_right (howed _) 1).trans (h.sending u t hu')
  · rw [Function.update_of_ne hts]; exact h.sending u t hu'

/-- `response.Add(1)` on the semaphore `t₀` that `s` then sends on. -/
theorem covered_add (h : SemaOk w) {t₀ : τ} (hready : q'.ready = w.q.ready)
    (hresp : q'.response = Function.update w.q.response t₀ (w.q.response t₀ + 1))
    (howed : ∀ r, th'.owed r ≤ (w.threads s).owed r) :
    ∀ t, (Function.update w.threads s th' t).owed (q'.ready t) ≤ q'.response t := fun t => by
  have hle : w.q.response t ≤ q'.response t := by
    rw [hresp]; by_cases ht : t = t₀
    · subst ht; rw [Function.update_self]; exact Nat.le_succ _
    · rw [Function.update_of_ne ht]
  refine le_trans ?_ hle
  rw [hready]
  by_cases hts : t = s
  · subst hts; rw [Function.update_self]; exact (howed _).trans (h.covered t)
  · rw [Function.update_of_ne hts]; exact h.covered t

theorem sending_add (h : SemaOk w) {t₀ : τ} (hready : q'.ready = w.q.ready)
    (hresp : q'.response = Function.update w.q.response t₀ (w.q.response t₀ + 1))
    (howed : ∀ r, th'.owed r ≤ (w.threads s).owed r)
    (hsends : ∀ t, th'.sendsTo = some t → t = t₀ ∨ (w.threads s).sendsTo = some t) :
    ∀ u t, (Function.update w.threads s th' u).sendsTo = some t →
      (Function.update w.threads s th' t).owed (q'.ready t) + 1 ≤ q'.response t := fun u t hu => by
  -- what `t` owes after the step is at most what it owed
  have howe : (Function.update w.threads s th' t).owed (q'.ready t) ≤ (w.threads t).owed (w.q.ready t) := by
    rw [hready]
    by_cases hts : t = s
    · subst hts; rw [Function.update_self]; exact howed _
    · rw [Function.update_of_ne hts]
  refine (Nat.add_le_add_right howe 1).trans ?_
  rw [hresp]
  by_cases ht : t = t₀
  · subst ht; rw [Function.update_self]; exact Nat.add_le_add_right (h.covered t) 1
  · rw [Function.update_of_ne ht]
    have hu' : (w.threads u).sendsTo = some t := by
      by_cases hus : u = s
      · subst hus; rw [Function.update_self] at hu
        exact (hsends t hu).resolve_left ht
      · rwa [Function.update_of_ne hus] at hu
    exact h.sending u t hu'

/-- The send of `s` on `t₀`: `ready` is filled unless it was full, and `s` sends on nothing
more. No other goroutine is about to send, as every sender holds `q.lock`. -/
theorem covered_send (h : SemaOk w) {t₀ : τ} (hs : (w.threads s).sendsTo = some t₀)
    (hready : q'.ready = if w.q.ready t₀ then w.q.ready else Function.update w.q.ready t₀ true)
    (hresp : q'.response = w.q.response) (howed : ∀ r, th'.owed r ≤ (w.threads s).owed r) :
    ∀ t, (Function.update w.threads s th' t).owed (q'.ready t) ≤ q'.response t := fun t => by
  rw [hresp]
  have hown : (Function.update w.threads s th' t).owed (q'.ready t) ≤ (w.threads t).owed (q'.ready t) := by
    by_cases hts : t = s
    · subst hts; rw [Function.update_self]; exact howed _
    · rw [Function.update_of_ne hts]
  refine hown.trans ?_
  by_cases ht : t = t₀
  · subst ht
    exact ((w.threads t).owed_le_succ (w.q.ready t) _).trans (h.sending s t hs)
  · have hr : q'.ready t = w.q.ready t := by
      rw [hready]; split_ifs
      · rfl
      · rw [Function.update_of_ne ht]
    rw [hr]; exact h.covered t

theorem sending_send (h : SemaOk w) {t₀ : τ} (hs : (w.threads s).sendsTo = some t₀) (hsends : th'.sendsTo = none) :
    ∀ u t, (Function.update w.threads s th' u).sendsTo = some t →
      (Function.update w.threads s th' t).owed (q'.ready t) + 1 ≤ q'.response t := fun u t hu => by
  by_cases hus : u = s
  · subst hus; rw [Function.update_self, hsends] at hu; cases hu
  · rw [Function.update_of_ne hus] at hu
    have hlu := h.holder u (Thread.holds_of_sendsTo hu)
    rw [h.holder s (Thread.holds_of_sendsTo hs)] at hlu
    exact absurd (Option.some.inj hlu).symm hus

/-- A step of the `Poll` `s` on its own semaphore: the others are left alone. -/
theorem covered_own (h : SemaOk w) (hready : ∀ t ≠ s, q'.ready t = w.q.ready t)
    (hresp : ∀ t ≠ s, q'.response t = w.q.response t) (hown : th'.owed (q'.ready s) ≤ q'.response s) :
    ∀ t, (Function.update w.threads s th' t).owed (q'.ready t) ≤ q'.response t := fun t => by
  by_cases hts : t = s
  · subst hts; rw [Function.update_self]; exact hown
  · rw [Function.update_of_ne hts, hready t hts, hresp t hts]; exact h.covered t

theorem sending_own (h : SemaOk w) (hready : ∀ t ≠ s, q'.ready t = w.q.ready t)
    (hresp : ∀ t ≠ s, q'.response t = w.q.response t) (hsends : th'.sendsTo = none)
    (hown : ∀ u, (w.threads u).sendsTo = some s → th'.owed (q'.ready s) + 1 ≤ q'.response s) :
    ∀ u t, (Function.update w.threads s th' u).sendsTo = some t →
      (Function.update w.threads s th' t).owed (q'.ready t) + 1 ≤ q'.response t := fun u t hu => by
  have hus : u ≠ s := by rintro rfl; rw [Function.update_self, hsends] at hu; cases hu
  rw [Function.update_of_ne hus] at hu
  by_cases hts : t = s
  · subst hts; rw [Function.update_self]; exact hown u hu
  · rw [Function.update_of_ne hts, hready t hts, hresp t hts]; exact h.sending u t hu

omit [DecidableEq τ] in
theorem no_sender (h : SemaOk w) (hfree : w.q.lock = none) (u : τ) : (w.threads u).sendsTo = none := by
  cases hu : (w.threads u).sendsTo with
  | none => rfl
  | some t => rw [h.holder u (Thread.holds_of_sendsTo hu)] at hfree; cases hfree

/-- A step that takes the lock or gives it back, and leaves the semaphores alone. -/
theorem quiet (h : SemaOk w)
    (hlock : q'.lock = w.q.lock ∨ (w.q.lock = none ∧ q'.lock = some s) ∨
      ((w.threads s).holds ∧ q'.lock = none))
    (hholds : th'.holds → q'.lock = some s)
    (hwaiting : ∀ u ∈ q'.waiters, u ∈ w.q.waiters ∨ (u = s ∧ th'.parked))
    (htargets : ∀ u ∈ th'.targets, u ∈ (w.threads s).targets ∨ u ∈ w.q.waiters)
    (hparked : (w.threads s).parked → th'.parked)
    (hready : q'.ready = w.q.ready) (hresp : q'.response = w.q.response)
    (howed : ∀ r, th'.owed r ≤ (w.threads s).owed r) (hsends : th'.sendsTo = none)
    (hcalm : th'.panicked = false) :
    SemaOk ⟨q', Function.update w.threads s th'⟩ :=
  h.update hlock hholds hwaiting htargets hparked (h.covered_frame hready hresp howed)
    (h.sending_frame hready hresp howed fun t ht => by rw [hsends] at ht; cases ht) hcalm

end SemaOk

/-! ## The waking loop -/

/-- What the head of the waking loop does: it takes the next waiter out of `waiters` and names
it, still holding the lock, and leaves the rest of the queue alone. -/
structure WakeTurn (q : Queue τ α) (r : Queue τ α × PutPc τ) : Prop where
  lock : r.1.lock = q.lock
  ready : r.1.ready = q.ready
  response : r.1.response = q.response
  waiters : ∀ u ∈ r.1.waiters, u ∈ q.waiters
  target : ∀ u ∈ r.2.target.toList, u ∈ q.waiters
  sendsTo : r.2.sendsTo = none

theorem wakeNext_turn (q : Queue τ α) : WakeTurn q (wakeNext q) := by
  unfold wakeNext
  split
  · exact ⟨rfl, rfl, rfl, fun _ hu => hu, by simp [PutPc.target], rfl⟩
  · next sema rest hw =>
    refine ⟨rfl, rfl, rfl, fun u hu => ?_, fun u hu => ?_, rfl⟩
    · simp only [hw]; exact List.mem_cons_of_mem sema hu
    · simp only [PutPc.target, Option.toList_some, List.mem_singleton] at hu
      simp [hw, hu]

theorem afterWake_turn (q : Queue τ α) : WakeTurn q (afterWake q) := by
  unfold afterWake
  split
  · exact ⟨rfl, rfl, rfl, fun _ hu => hu, by simp [PutPc.target], rfl⟩
  · exact wakeNext_turn q

/-! ## Each kind of goroutine keeps the invariant -/

/-- A kind of goroutine that wakes `Poll`s and never parks nor owes a `Done()`, seen through
where it holds the lock, which semaphores it has still to wake and which it is about to send
on. `Put`, `PutOrUpdate`, `Dispose` and `ExecuteInParallel` inside `Dispose` are. -/
structure Waker {π : Type} (mk : π → Thread τ α) (holds : π → Bool) (targets : π → List τ)
    (sendsTo : π → Option τ) : Prop where
  holds : ∀ pc, (mk pc).holds = holds pc
  targets : ∀ pc, (mk pc).targets = targets pc
  sendsTo : ∀ pc, (mk pc).sendsTo = sendsTo pc
  parked : ∀ pc, (mk pc).parked = false
  owed : ∀ pc r, (mk pc).owed r = 0
  panicked : ∀ pc, (mk pc).panicked = false

theorem waker_put (items : List α) :
    Waker (Thread.put (τ := τ) items) PutPc.holds (fun pc => pc.target.toList) PutPc.sendsTo :=
  ⟨fun _ => rfl, fun _ => rfl, fun _ => rfl, fun _ => rfl, fun _ _ => rfl, fun _ => rfl⟩

theorem waker_putOrUpdate (cmp : α → α → Bool) (item : α) :
    Waker (Thread.putOrUpdate (τ := τ) cmp item) PutPc.holds (fun pc => pc.target.toList) PutPc.sendsTo :=
  ⟨fun _ => rfl, fun _ => rfl, fun _ => rfl, fun _ => rfl, fun _ _ => rfl, fun _ => rfl⟩

theorem waker_dispose : Waker (Thread.dispose (τ := τ) (α := α)) DisposePc.holds DisposePc.targets DisposePc.sendsTo :=
  ⟨fun _ => rfl, fun _ => rfl, fun _ => rfl, fun _ => rfl, fun _ _ => rfl, fun _ => rfl⟩

theorem waker_execute (workers : List τ) :
    Waker (fun p : ExecPc τ α × ParState α => Thread.execute workers p.1 p.2) (fun p => p.1.holds)
      (fun p => p.1.targets) (fun p => p.1.sendsTo) :=
  ⟨fun _ => rfl, fun _ => rfl, fun _ => rfl, fun _ => rfl, fun _ _ => rfl, fun _ => rfl⟩

theorem waker_executeDispose (workers : List τ) (par : ParState α) :
    Waker (fun pc => Thread.execute workers (.dispose pc) par) DisposePc.holds DisposePc.targets DisposePc.sendsTo :=
  ⟨fun _ => rfl, fun _ => rfl, fun _ => rfl, fun _ => rfl, fun _ _ => rfl, fun _ => rfl⟩

theorem waker_worker (owner : τ) :
    Waker (Thread.worker (α := α) owner) (fun _ => false) (fun _ => []) (fun _ => none) :=
  ⟨fun _ => rfl, fun _ => rfl, fun _ => rfl, fun _ => rfl, fun _ _ => rfl, fun _ => rfl⟩

theorem mem_of_mem_waitersRemove [DecidableEq τ] {sema u : τ} {waiters : List τ}
    (h : u ∈ waitersRemove sema waiters) : u ∈ waiters := by
  unfold waitersRemove at h
  split_ifs at h
  · cases h
  · exact List.mem_of_mem_filter h

namespace SemaOk

section Waker

variable [DecidableEq τ] {w : World τ α} {s : τ} {π : Type} {mk : π → Thread τ α} {holds : π → Bool}
  {targets : π → List τ} {sendsTo : π → Option τ} {a b : π} {q' : Queue τ α}

/-- A waker's step that sends on nothing and leaves the semaphores alone. -/
theorem wakerQuiet (h : SemaOk w) (hmk : Waker mk holds targets sendsTo) (hs : w.threads s = mk a)
    (hlock : q'.lock = w.q.lock ∨ (w.q.lock = none ∧ q'.lock = some s) ∨ (holds a ∧ q'.lock = none))
    (hholds : holds b → q'.lock = some s) (hwaiting : ∀ u ∈ q'.waiters, u ∈ w.q.waiters)
    (htarget : ∀ u ∈ targets b, u ∈ targets a ∨ u ∈ w.q.waiters)
    (hready : q'.ready = w.q.ready) (hresp : q'.response = w.q.response) (hsends : sendsTo b = none) :
    SemaOk ⟨q', Function.update w.threads s (mk b)⟩ := by
  refine h.quiet ?_ (by rwa [hmk.holds]) (fun u hu => .inl (hwaiting u hu)) ?_ (by simp [hs, hmk.parked])
    hready hresp (fun r => by simp [hmk.owed]) (by rw [hmk.sendsTo, hsends]) (hmk.panicked _)
  · rwa [hs, hmk.holds]
  · rw [hs, hmk.targets]; rwa [hmk.targets]

theorem wakerAdd (h : SemaOk w) (hmk : Waker mk holds targets sendsTo) (hs : w.threads s = mk a)
    (hheld : holds a) {t₀ : τ} (htarget : ∀ u ∈ targets b, u ∈ targets a)
    (hsends : sendsTo b = some t₀) :
    SemaOk ⟨{ w.q with response := Function.update w.q.response t₀ (w.q.response t₀ + 1) },
      Function.update w.threads s (mk b)⟩ := by
  have hlock := h.holder s (by rw [hs, hmk.holds]; exact hheld)
  have howed : ∀ r, (mk b).owed r ≤ (w.threads s).owed r := fun r => by simp [hmk.owed]
  refine h.update (.inl rfl) (fun _ => hlock) (fun u hu => .inl hu) ?_ (by simp [hs, hmk.parked])
    (h.covered_add rfl rfl howed) (h.sending_add rfl rfl howed fun t ht => ?_) (hmk.panicked _)
  · rw [hs, hmk.targets, hmk.targets]; exact fun u hu => .inl (htarget u hu)
  · rw [hmk.sendsTo, hsends] at ht; exact .inl (Option.some.inj ht).symm

theorem wakerSend (h : SemaOk w) (hmk : Waker mk holds targets sendsTo) (hs : w.threads s = mk a)
    {t₀ : τ} (hsend : sendsTo a = some t₀) (hlock : q'.lock = w.q.lock)
    (hwaiting : ∀ u ∈ q'.waiters, u ∈ w.q.waiters)
    (hready : q'.ready = if w.q.ready t₀ then w.q.ready else Function.update w.q.ready t₀ true)
    (hresp : q'.response = w.q.response)
    (htarget : ∀ u ∈ targets b, u ∈ targets a ∨ u ∈ w.q.waiters) (hsends : sendsTo b = none) :
    SemaOk ⟨q', Function.update w.threads s (mk b)⟩ := by
  have hsend' : (w.threads s).sendsTo = some t₀ := by rw [hs, hmk.sendsTo, hsend]
  have hheld := h.holder s (Thread.holds_of_sendsTo hsend')
  refine h.update (.inl hlock) (fun _ => hlock.trans hheld) (fun u hu => .inl (hwaiting u hu)) ?_
    (by simp [hs, hmk.parked]) (h.covered_send hsend' hready hresp fun r => by simp [hmk.owed])
    (h.sending_send hsend' (by rw [hmk.sendsTo, hsends])) (hmk.panicked _)
  rw [hs, hmk.targets, hmk.targets]; exact htarget

end Waker

variable [DecidableEq τ] {w : World τ α} {s : τ} {mk : PutPc τ → Thread τ α}

/-- The waking loop's next turn, after the lock is taken or a waiter woken. -/
theorem putTurn (h : SemaOk w) (hmk : Waker mk PutPc.holds (fun pc => pc.target.toList) PutPc.sendsTo)
    {pc : PutPc τ} (hs : w.threads s = mk pc)
    {q₁ : Queue τ α} {r : Queue τ α × PutPc τ} (hr : WakeTurn q₁ r) (hlock : q₁.lock = some s)
    (hwait : q₁.waiters = w.q.waiters) (hready : q₁.ready = w.q.ready) (hresp : q₁.response = w.q.response)
    (hfree : w.q.lock = none ∨ pc.holds) :
    SemaOk ⟨r.1, Function.update w.threads s (mk r.2)⟩ := by
  refine h.wakerQuiet hmk hs ?_ (fun _ => hr.lock.trans hlock) (fun u hu => hwait ▸ hr.waiters u hu)
    (fun u hu => .inr (hwait ▸ hr.target u hu)) (hr.ready.trans hready) (hr.response.trans hresp) hr.sendsTo
  rcases hfree with hfree | hheld
  · exact .inr (.inl ⟨hfree, hr.lock.trans hlock⟩)
  · left; rw [hr.lock, hlock, h.holder s (by rw [hs, hmk.holds]; exact hheld)]

/-- Every step of `Put` and `PutOrUpdate` keeps the handshake. -/
theorem putStep_ok (h : SemaOk w) (hmk : Waker mk PutPc.holds (fun pc => pc.target.toList) PutPc.sendsTo)
    (change : List α → List α) {pc : PutPc τ} (hs : w.threads s = mk pc) :
    SemaOk ⟨(putStep s change w.q pc).1, Function.update w.threads s (mk (putStep s change w.q pc).2)⟩ := by
  have hheld : pc.holds → w.q.lock = some s := fun hp => h.holder s (by rw [hs, hmk.holds]; exact hp)
  cases pc with
  | start =>
    simp only [putStep]
    exact h.wakerQuiet hmk hs (.inl rfl) (by simp [PutPc.holds]) (fun _ hu => hu) (by simp [PutPc.target])
      rfl rfl rfl
  | lock =>
    simp only [putStep]
    split_ifs with hfree hdisp
    · exact h.wakerQuiet hmk hs (.inr (.inl ⟨hfree, rfl⟩)) (fun _ => rfl) (fun _ hu => hu)
        (by simp [PutPc.target]) rfl rfl rfl
    · exact h.putTurn hmk hs (wakeNext_turn _) rfl rfl rfl rfl (.inl hfree)
    · exact h.wakerQuiet hmk hs (.inl rfl) (by simp [PutPc.holds]) (fun _ hu => hu) (by simp [PutPc.target])
        rfl rfl rfl
  | add sema => exact h.wakerAdd hmk hs rfl (fun _ hu => hu) rfl
  | send sema =>
    simp only [putStep]
    split_ifs with hfull
    · -- `ready` is full: the loop goes on to its next turn
      have hr := afterWake_turn w.q
      exact h.wakerSend hmk hs rfl hr.lock hr.waiters (by rw [hr.ready, if_pos hfull]) hr.response
        (fun u hu => .inr (hr.target u hu)) hr.sendsTo
    · exact h.wakerSend hmk hs rfl rfl (fun _ hu => hu) (by rw [if_neg hfull]) rfl (fun u hu => .inl hu) rfl
  | wait sema =>
    simp only [putStep]
    split_ifs with hzero
    · exact h.putTurn hmk hs (afterWake_turn _) (hheld rfl) rfl rfl rfl (.inr rfl)
    · exact h.wakerQuiet hmk hs (.inl rfl) (fun _ => hheld rfl) (fun _ hu => hu) (fun u hu => .inl hu) rfl rfl rfl
  | unlock err =>
    simp only [putStep]
    exact h.wakerQuiet hmk hs (.inr (.inr ⟨rfl, rfl⟩)) (by simp [PutPc.holds]) (fun _ hu => hu)
      (by simp [PutPc.target]) rfl rfl rfl
  | done err =>
    simp only [putStep]
    exact h.wakerQuiet hmk hs (.inl rfl) (by simp [PutPc.holds]) (fun _ hu => hu) (by simp [PutPc.target])
      rfl rfl rfl

/-- Every step of `Dispose` keeps the handshake, also inside `ExecuteInParallel`. -/
theorem disposeStep_ok {mk : DisposePc τ α → Thread τ α} (h : SemaOk w)
    (hmk : Waker mk DisposePc.holds DisposePc.targets DisposePc.sendsTo) {pc : DisposePc τ α}
    (hs : w.threads s = mk pc) :
    SemaOk ⟨(disposeStep s w.q pc).1, Function.update w.threads s (mk (disposeStep s w.q pc).2)⟩ := by
  have hheld : pc.holds → w.q.lock = some s := fun hp => h.holder s (by rw [hs, hmk.holds]; exact hp)
  -- `disposeFinish` drops the waiters and goes on to the deferred `Unlock`
  have hfinish : ∀ q : Queue τ α, pc.holds → q.lock = w.q.lock → q.ready = w.q.ready →
      q.response = w.q.response →
      SemaOk ⟨(disposeFinish q).1, Function.update w.threads s (mk (disposeFinish q).2)⟩ :=
    fun q hp hl hr hresp => h.wakerQuiet hmk hs (.inl hl) (fun _ => hl.trans (hheld hp))
      (by simp [disposeFinish]) (by simp [disposeFinish, DisposePc.targets]) hr hresp rfl
  cases pc with
  | start =>
    simp only [disposeStep]
    split_ifs with hfree hnone
    · exact h.wakerQuiet hmk hs (.inr (.inl ⟨hfree, rfl⟩)) (fun _ => rfl) (by simp [disposeFinish])
        (by simp [disposeFinish, DisposePc.targets]) rfl rfl rfl
    · exact h.wakerQuiet hmk hs (.inr (.inl ⟨hfree, rfl⟩)) (fun _ => rfl) (fun _ hu => hu) (fun u hu => .inr hu)
        rfl rfl rfl
    · exact h.wakerQuiet hmk hs (.inl rfl) (by simp [DisposePc.holds]) (fun _ hu => hu)
        (by simp [DisposePc.targets]) rfl rfl rfl
  | add left =>
    cases left with
    | nil => exact hfinish w.q rfl rfl rfl rfl
    | cons u left => exact h.wakerAdd hmk hs rfl (fun _ hu => hu) rfl
  | send left =>
    cases left with
    | nil => exact hfinish w.q rfl rfl rfl rfl
    | cons u left =>
      simp only [disposeStep]
      -- after the `select`, `ready` of `u` is full either way
      generalize hq₂ : (if w.q.ready u then w.q else { w.q with ready := Function.update w.q.ready u true }) = q₂
      have hlock : q₂.lock = w.q.lock := by rw [← hq₂]; split <;> rfl
      have hwait : q₂.waiters = w.q.waiters := by rw [← hq₂]; split <;> rfl
      have hready : q₂.ready = if w.q.ready u then w.q.ready else Function.update w.q.ready u true := by
        rw [← hq₂]; split <;> rfl
      have hresp : q₂.response = w.q.response := by rw [← hq₂]; split <;> rfl
      split_ifs with hleft
      · exact h.wakerSend hmk hs rfl hlock (by simp [disposeFinish]) hready hresp
          (by simp [disposeFinish, DisposePc.targets]) rfl
      · exact h.wakerSend hmk hs rfl hlock (fun x hx => hwait ▸ hx) hready hresp
          (fun x hx => .inl (List.mem_cons_of_mem u hx)) rfl
  | unlock d =>
    simp only [disposeStep]
    exact h.wakerQuiet hmk hs (.inr (.inr ⟨rfl, rfl⟩)) (by simp [DisposePc.holds]) (fun _ hu => hu)
      (by simp [DisposePc.targets]) rfl rfl rfl
  | done d =>
    simp only [disposeStep]
    exact h.wakerQuiet hmk hs (.inl rfl) (by simp [DisposePc.holds]) (fun _ hu => hu)
      (by simp [DisposePc.targets]) rfl rfl rfl

/-- Every step of `ExecuteInParallel` keeps the handshake. -/
theorem execStep_ok (h : SemaOk w) (workers : List τ) {pc : ExecPc τ α} {par : ParState α}
    (hs : w.threads s = .execute workers pc par) :
    SemaOk ⟨(execStep s workers w.q par pc).1, Function.update w.threads s
      (.execute workers (execStep s workers w.q par pc).2.1 (execStep s workers w.q par pc).2.2)⟩ := by
  have hmk := waker_execute (α := α) workers
  have hheld : pc.holds → w.q.lock = some s := fun hp => h.holder s (by rw [hs]; exact hp)
  cases pc with
  | start =>
    simp only [execStep]
    split_ifs with hfree hempty
    · -- `if todo == 0 { return }` returns still holding the lock
      refine h.wakerQuiet hmk (a := (.start, par)) (b := (.done, par)) hs ?_ ?_ ?_ ?_ ?_ ?_ ?_
      exacts [.inr (.inl ⟨hfree, rfl⟩), fun _ => rfl, fun _ hu => hu, by simp [ExecPc.targets], rfl, rfl, rfl]
    · refine h.wakerQuiet hmk (a := (.start, par)) (b := (.wait, _)) hs ?_ ?_ ?_ ?_ ?_ ?_ ?_
      exacts [.inr (.inl ⟨hfree, rfl⟩), fun _ => rfl, fun _ hu => hu, by simp [ExecPc.targets], rfl, rfl, rfl]
    · refine h.wakerQuiet hmk (a := (.start, par)) (b := (.start, par)) hs ?_ ?_ ?_ ?_ ?_ ?_ ?_
      exacts [.inl rfl, by simp [ExecPc.holds], fun _ hu => hu, by simp [ExecPc.targets], rfl, rfl, rfl]
  | wait =>
    refine h.wakerQuiet hmk (a := (.wait, par)) (b := (_, par)) hs ?_ ?_ ?_ ?_ ?_ ?_ ?_
    exacts [.inl rfl, fun _ => hheld rfl, fun _ hu => hu, by split <;> simp [ExecPc.targets], rfl, rfl,
      by split <;> rfl]
  | unlock =>
    refine h.wakerQuiet hmk (a := (.unlock, par)) (b := (.dispose .start, par)) hs ?_ ?_ ?_ ?_ ?_ ?_ ?_
    exacts [.inr (.inr ⟨rfl, rfl⟩), by simp [ExecPc.holds, DisposePc.holds], fun _ hu => hu,
      by simp [ExecPc.targets, DisposePc.targets], rfl, rfl, rfl]
  | dispose pc =>
    have hd := h.disposeStep_ok (waker_executeDispose workers par) hs
    simp only [execStep]
    split
    · -- `Dispose` has returned, and so does `ExecuteInParallel`
      next q' d heq =>
      rw [heq] at hd
      have hd' := hd.wakerQuiet hmk (a := (.dispose (.done d), par)) (b := (.done, par)) (Function.update_self _ _ _)
        (.inl rfl) (by simp [ExecPc.holds]) (fun _ hu => hu) (by simp [ExecPc.targets]) rfl rfl rfl
      rwa [Function.update_idem] at hd'
    · next q' pc' _ heq => rw [heq] at hd; exact hd
  | done =>
    exact h.wakerQuiet hmk (a := (.done, par)) (b := (.done, par)) hs (.inl rfl) (by simp [ExecPc.holds]) (fun _ hu => hu)
      (by simp [ExecPc.targets]) rfl rfl rfl

/-- A worker's step moves its `ExecuteInParallel` only within `wg.Wait()`. -/
theorem workerStep_ok (h : SemaOk w) {owner : τ} {workers : List τ} {par : ParState α} {pc : WorkerPc}
    (hs : w.threads s = .worker owner pc) (ho : w.threads owner = .execute workers .wait par) :
    SemaOk ⟨w.q, Function.update (Function.update w.threads owner (.execute workers .wait (workerStep par pc).1))
      s (.worker owner (workerStep par pc).2)⟩ := by
  have hso : s ≠ owner := by rintro rfl; rw [hs] at ho; cases ho
  have h₁ := h.wakerQuiet (waker_execute workers) (a := (.wait, par)) (b := (.wait, (workerStep par pc).1)) ho
    (.inl rfl) (fun _ => h.holder owner (by rw [ho]; rfl)) (fun _ hu => hu) (by simp [ExecPc.targets]) rfl rfl rfl
  exact h₁.wakerQuiet (waker_worker owner) (a := pc) (b := (workerStep par pc).2)
    ((Function.update_of_ne hso _ _).trans hs) (.inl rfl)
    (by simp) (fun _ hu => hu) (by simp) rfl rfl rfl

section Poll

variable {number : ℤ} {timed : Bool} {a b : PollPc α} {q' : Queue τ α}

/-- A step of the `Poll` `s`: it touches no semaphore but its own. -/
theorem pollMove (h : SemaOk w) (hs : w.threads s = .poll number timed a)
    (hlock : q'.lock = w.q.lock ∨ (w.q.lock = none ∧ q'.lock = some s) ∨ (a.holds ∧ q'.lock = none))
    (hholds : b.holds → q'.lock = some s) (hwaiting : ∀ u ∈ q'.waiters, u ∈ w.q.waiters ∨ (u = s ∧ b.parked))
    (hparked : a.parked → b.parked)
    (hready : ∀ t ≠ s, q'.ready t = w.q.ready t) (hresp : ∀ t ≠ s, q'.response t = w.q.response t)
    (hcov : b.owed (q'.ready s) ≤ q'.response s)
    (hsend : ∀ u, (w.threads u).sendsTo = some s → b.owed (q'.ready s) + 1 ≤ q'.response s)
    (hcalm : (Thread.poll (τ := τ) number timed b).panicked = false) :
    SemaOk ⟨q', Function.update w.threads s (.poll number timed b)⟩ :=
  h.update (by rwa [hs]) hholds hwaiting (by simp [Thread.targets]) (by rw [hs]; exact hparked)
    (h.covered_own hready hresp hcov) (h.sending_own hready hresp rfl hsend) hcalm

/-- A step of the `Poll` that leaves the semaphores alone and owes no more than before. -/
theorem pollQuiet (h : SemaOk w) (hs : w.threads s = .poll number timed a)
    (hlock : q'.lock = w.q.lock ∨ (w.q.lock = none ∧ q'.lock = some s) ∨ (a.holds ∧ q'.lock = none))
    (hholds : b.holds → q'.lock = some s) (hwaiting : ∀ u ∈ q'.waiters, u ∈ w.q.waiters)
    (hparked : a.parked → b.parked) (hready : q'.ready = w.q.ready) (hresp : q'.response = w.q.response)
    (howed : ∀ r, b.owed r ≤ a.owed r) (hcalm : (Thread.poll (τ := τ) number timed b).panicked = false) :
    SemaOk ⟨q', Function.update w.threads s (.poll number timed b)⟩ :=
  h.quiet (by rwa [hs]) hholds (fun u hu => .inl (hwaiting u hu)) (by simp [Thread.targets])
    (by rw [hs]; exact hparked) hready hresp (by rw [hs]; exact howed) rfl hcalm

/-- Every step of `Poll` keeps the handshake: in particular `Done()` never finds
`response` at zero. -/
theorem pollStep_ok (h : SemaOk w) (timeUp : Bool) {pc : PollPc α} (hs : w.threads s = .poll number timed pc) :
    SemaOk ⟨(pollStep s number timed timeUp w.q pc).1,
      Function.update w.threads s (.poll number timed (pollStep s number timed timeUp w.q pc).2)⟩ := by
  -- what the `Poll` owes now, and with a sender about to send
  have hcov : pc.owed (w.q.ready s) ≤ w.q.response s := by simpa [hs, Thread.owed] using h.covered s
  have hsend : ∀ u, (w.threads u).sendsTo = some s → pc.owed (w.q.ready s) + 1 ≤ w.q.response s :=
    fun u hu => by simpa [hs, Thread.owed] using h.sending u s hu
  have hheld : pc.holds → w.q.lock = some s := fun hp => h.holder s (by rw [hs]; exact hp)
  cases pc with
  | start =>
    simp only [pollStep]
    split_ifs
    · exact h.pollQuiet hs (.inl rfl) (by simp [PollPc.holds]) (fun _ hu => hu) (by simp [PollPc.parked]) rfl rfl
        (fun r => by simp [PollPc.owed]) rfl
    · exact h.pollQuiet hs (.inl rfl) (by simp [PollPc.holds]) (fun _ hu => hu) (by simp [PollPc.parked]) rfl rfl
        (fun r => by simp [PollPc.owed]) rfl
  | lock =>
    simp only [pollStep, itemsGet]
    split_ifs with hfree hdisp hempty
    · exact h.pollQuiet hs (.inr (.inl ⟨hfree, rfl⟩)) (fun _ => rfl) (fun _ hu => hu) (by simp [PollPc.parked])
        rfl rfl (fun r => by simp [PollPc.owed]) rfl
    · -- `newSema()` and `q.waiters.put(sema)`: nobody sends while the lock was free
      refine h.pollMove hs (.inr (.inl ⟨hfree, rfl⟩)) (fun _ => rfl) (fun u hu => ?_) (by simp [PollPc.parked])
        (fun t ht => Function.update_of_ne ht _ _) (fun t ht => Function.update_of_ne ht _ _)
        (by simp [PollPc.owed]) (fun u hu => ?_) rfl
      · rcases List.mem_append.mp hu with hu | hu
        · exact .inl hu
        · exact .inr ⟨List.mem_singleton.mp hu, rfl⟩
      · rw [h.no_sender hfree u] at hu; cases hu
    · exact h.pollQuiet hs (.inr (.inl ⟨hfree, rfl⟩)) (fun _ => rfl) (fun _ hu => hu) (by simp [PollPc.parked])
        rfl rfl (fun r => by simp [PollPc.owed]) rfl
    · exact h.pollQuiet hs (.inl rfl) (by simp [PollPc.holds]) (fun _ hu => hu) (by simp [PollPc.parked]) rfl rfl
        (fun r => by simp [PollPc.owed]) rfl
  | unlock taken err =>
    simp only [pollStep]
    exact h.pollQuiet hs (.inr (.inr ⟨rfl, rfl⟩)) (by simp [PollPc.holds]) (fun _ hu => hu) (fun _ => rfl)
      rfl rfl (fun r => by simp [PollPc.owed]) rfl
  | unlockWait =>
    simp only [pollStep]
    exact h.pollQuiet hs (.inr (.inr ⟨rfl, rfl⟩)) (by simp [PollPc.holds]) (fun _ hu => hu) (fun _ => rfl)
      rfl rfl (fun _ => le_rfl) rfl
  | select =>
    simp only [pollStep, itemsGet]
    split_ifs with htime hready hdisp
    · exact h.pollQuiet hs (.inl rfl) (by simp [PollPc.holds]) (fun _ hu => hu) (fun _ => rfl) rfl rfl
        (fun _ => le_rfl) rfl
    · -- received after `Dispose` sent: it returns without `Done()`
      exact h.pollMove hs (.inl rfl) (by simp [PollPc.holds]) (fun u hu => .inl hu) (fun _ => rfl)
        (fun t ht => Function.update_of_ne ht _ _) (fun _ _ => rfl) (by simp [PollPc.owed])
        (fun u hu => by have := hsend u hu; simp [PollPc.owed, hready] at this ⊢; omega) rfl
    · -- received from a `Put`: one `Done()` is owed, as it was while `ready` was full
      exact h.pollMove hs (.inl rfl) (by simp [PollPc.holds]) (fun u hu => .inl hu) (fun _ => rfl)
        (fun t ht => Function.update_of_ne ht _ _) (fun _ _ => rfl)
        (by simpa [PollPc.owed, hready] using hcov)
        (fun u hu => by simpa [PollPc.owed, hready] using hsend u hu) rfl
    · exact h.pollQuiet hs (.inl rfl) (by simp [PollPc.holds]) (fun _ hu => hu) (fun _ => rfl) rfl rfl
        (fun _ => le_rfl) rfl
  | signal taken =>
    simp only [pollStep]
    -- `Done()` pays what the call owes, so `response` is not at zero
    have hpos : w.q.response s ≠ 0 := by simp [PollPc.owed] at hcov; omega
    rw [if_neg hpos]
    exact h.pollMove hs (.inl rfl) (by simp [PollPc.holds]) (fun u hu => .inl hu) (fun _ => rfl) (fun _ _ => rfl)
      (fun t ht => Function.update_of_ne ht _ _) (by simp [PollPc.owed])
      (fun u hu => by have := hsend u hu; simp [PollPc.owed] at this ⊢; omega) rfl
  | timeoutSend =>
    simp only [pollStep]
    split_ifs with hready
    · -- a `Put` or `Dispose` filled `ready` first: one `Done()` is owed
      exact h.pollMove hs (.inl rfl) (by simp [PollPc.holds]) (fun u hu => .inl hu) (fun _ => rfl)
        (fun _ _ => rfl) (fun _ _ => rfl) (by simpa [PollPc.owed, hready] using hcov)
        (fun u hu => by simpa [PollPc.owed, hready] using hsend u hu) rfl
    · exact h.pollMove hs (.inl rfl) (by simp [PollPc.holds]) (fun u hu => .inl hu) (fun _ => rfl)
        (fun t ht => Function.update_of_ne ht _ _) (fun _ _ => rfl) (by simp [PollPc.owed])
        (fun u hu => by simpa [PollPc.owed, hready] using hsend u hu) rfl
  | timeoutLock =>
    simp only [pollStep]
    split_ifs with hfree
    · exact h.pollQuiet hs (.inr (.inl ⟨hfree, rfl⟩)) (fun _ => rfl) (fun _ hu => mem_of_mem_waitersRemove hu)
        (fun _ => rfl) rfl rfl (fun r => by simp [PollPc.owed]) rfl
    · exact h.pollQuiet hs (.inl rfl) (by simp [PollPc.holds]) (fun _ hu => hu) (fun _ => rfl) rfl rfl
        (fun _ => le_rfl) rfl
  | timeoutUnlock =>
    simp only [pollStep]
    exact h.pollQuiet hs (.inr (.inr ⟨rfl, rfl⟩)) (by simp [PollPc.holds]) (fun _ hu => hu) (fun _ => rfl)
      rfl rfl (fun r => by simp [PollPc.owed]) rfl
  | timeoutDone =>
    simp only [pollStep]
    have hpos : w.q.response s ≠ 0 := by simp [PollPc.owed] at hcov; omega
    rw [if_neg hpos]
    exact h.pollMove hs (.inl rfl) (by simp [PollPc.holds]) (fun u hu => .inl hu) (fun _ => rfl) (fun _ _ => rfl)
      (fun t ht => Function.update_of_ne ht _ _) (by simp [PollPc.owed])
      (fun u hu => by have := hsend u hu; simp [PollPc.owed] at this ⊢; omega) rfl
  | done taken err =>
    simp only [pollStep]
    exact h.pollQuiet hs (.inl rfl) (by simp [PollPc.holds]) (fun _ hu => hu) (fun _ => rfl) rfl rfl
      (fun _ => le_rfl) rfl
  | panicked =>
    have := h.calm s
    rw [hs] at this
    cases this

end Poll

theorem step (h : SemaOk w) (t : τ) (choice : Bool) : SemaOk (w.step t choice) := by
  unfold World.step
  split
  · next items pc hs =>
    split_ifs with hstart
    · -- `if len(items) == 0 { return nil }` returns before the lock
      obtain ⟨rfl, rfl⟩ := hstart
      exact h.wakerQuiet (waker_put []) hs (.inl rfl) (by simp [PutPc.holds]) (fun _ hu => hu)
        (by simp [PutPc.target]) rfl rfl rfl
    · exact h.putStep_ok (waker_put items) (· ++ items) hs
  · next cmp item pc hs => exact h.putStep_ok (waker_putOrUpdate cmp item) (putOrUpdateItems cmp item) hs
  · next number timed pc hs => exact h.pollStep_ok choice hs
  · next pc hs => exact h.disposeStep_ok waker_dispose hs
  · next workers pc par hs => exact h.execStep_ok workers hs
  · next owner pc hs =>
    split
    · next workers par ho => exact h.workerStep_ok hs ho
    · exact h

theorem run (h : SemaOk w) (sched : List (τ × Bool)) : SemaOk (w.run sched) := by
  induction sched generalizing w with
  | nil => exact h
  | cons tc sched ih => exact ih (h.step tc.1 tc.2)

omit [DecidableEq τ] in
theorem init (calls : τ → Call τ α) : SemaOk (World.init newQueue calls) := by
  refine ⟨fun s hs => ?_, fun s hs => ?_, fun s t ht => ?_, fun t => ?_, fun s t hs => ?_, fun s => ?_⟩ <;>
    simp only [World.init, newQueue] at *
  · generalize calls s = c at hs; cases c <;> cases hs
  · cases hs
  · generalize calls s = c at ht; cases c <;> cases ht
  · generalize calls t = c; cases c <;> exact Nat.zero_le _
  · generalize calls s = c at hs; cases c <;> cases hs
  · generalize calls s = c; cases c <;> rfl

end SemaOk

/-- In no interleaving of `Put`, `PutOrUpdate`, `Poll`, `Dispose` and
`ExecuteInParallel` on a new queue does a `Poll` take `response` below zero. -/
theorem poll_never_panics [DecidableEq τ] (calls : τ → Call τ α) (sched : List (τ × Bool)) (t : τ)
    (number : ℤ) (timed : Bool) :
    ((World.init newQueue calls).run sched).threads t ≠ .poll number timed .panicked := by
  intro ht
  have hcalm := ((SemaOk.init calls).run sched).calm t
  rw [ht] at hcalm
  cases hcalm

end WeedgePkg.Jobutils.Queue
