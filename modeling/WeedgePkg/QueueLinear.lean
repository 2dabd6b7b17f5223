import WeedgePkg.QueueRuns
import WeedgePkg.QueueSemas
import WeedgePkg.QueueSpec

/-!
# `Queue` is linearizable

In every interleaving of `Put`s of at least one item, `PutOrUpdate`s, `Poll`s of at least one
item and `Dispose`s, the calls take effect one at a time, each at one of its own steps, as the
sequential queue of `QueueSpec` says. A `Put`, a `PutOrUpdate` and a `Dispose` take effect
when they take the lock, and so does a `Poll` that finds items or `ErrDisposed`. A `Poll` that
finds no item parks; it is logged there as a timeout, which it becomes if it times out, and if
the `Put` or the `Dispose` that wakes it comes first it takes effect where it receives, with
the `Put` still holding the lock and waiting for it. The log of these points, with the
timeouts that did not happen dropped, is the linearization.
-/

namespace WeedgePkg.Jobutils.Queue

variable {τ α : Type}

/-- The calls the sequential queue describes: an empty `Put` returns before it looks at the
queue, and `Poll` takes at least one item. -/
def Call.Plain : Call τ α → Prop
  | .put items => items ≠ []
  | .putOrUpdate .. | .dispose => True
  | .poll number _ => 1 ≤ number
  | .executeInParallel _ | .worker _ => False

/-- A call that has returned, with its results. -/
def Thread.result : Thread τ α → Option (Event α)
  | .put items (.done err) => some (.put items err)
  | .putOrUpdate cmp item (.done err) => some (.putOrUpdate cmp item err)
  | .poll number _ (.done taken err) => some (.poll number.toNat taken err)
  | .dispose (.done d) => some (.dispose d)
  | _ => none

def Thread.timedOut : Thread τ α → Bool
  | .poll _ _ (.done [] (some .timeout)) => true
  | _ => false

def Thread.listening : Thread τ α → Bool
  | .poll _ _ .select => true
  | _ => false

/-- The semaphore a `Put` waits on for the `Poll` it woke. -/
def Thread.waitsOn : Thread τ α → Option τ
  | .put _ (.wait s) | .putOrUpdate _ _ (.wait s) => some s
  | _ => none

def Thread.disposing : Thread τ α → Bool
  | .dispose (.add _) | .dispose (.send _) => true
  | _ => false

/-- The places whose facts about the queue mention the items. -/
def Thread.usesItems : Thread τ α → Bool
  | .put _ (.add _) | .put _ (.send _) | .putOrUpdate _ _ (.add _) | .putOrUpdate _ _ (.send _) => true
  | .dispose (.add _) | .dispose (.send _) => true
  | _ => false

/-- The sequential queue a queue stands for: nothing is left once it is disposed. -/
def abs (q : Queue τ α) : Seq α := ⟨if q.disposed then [] else q.items, q.disposed⟩

/-- The linearization point of a `Put` or `PutOrUpdate`, `ev err` being the call with its
result: taking the lock. -/
def putPoint (q : Queue τ α) (ev : Option QueueError → Event α) : PutPc τ → Option (Event α)
  | .lock => if q.lock = none then some (ev (if q.disposed then some .disposed else none)) else none
  | _ => none

/-- The linearization points of `Poll`: taking the lock, and receiving on its semaphore. -/
def pollPoint (q : Queue τ α) (t : τ) (number : ℕ) (timed choice : Bool) : PollPc α → Option (Event α)
  | .lock =>
    if q.lock = none then
      some (if q.disposed then .poll number [] (some .disposed)
        else .poll number (q.items.take number) (if q.items = [] then some .timeout else none))
    else none
  | .select =>
    if (timed && choice) = false ∧ q.ready t = true then
      some (if q.disposed then .poll number [] (some .disposed) else .poll number (q.items.take number) none)
    else none
  | _ => none

def disposePoint (q : Queue τ α) : DisposePc τ α → Option (Event α)
  | .start => if q.lock = none then some (.dispose q.items) else none
  | _ => none

/-- The call the step of `t` makes take effect, if the step is a linearization point. -/
def World.point (w : World τ α) (t : τ) (choice : Bool) : Option (Event α) :=
  match w.threads t with
  | .put items pc => putPoint w.q (.put items) pc
  | .putOrUpdate cmp item pc => putPoint w.q (.putOrUpdate cmp item) pc
  | .poll number timed pc => pollPoint w.q t number.toNat timed choice pc
  | .dispose pc => disposePoint w.q pc
  | .execute .. | .worker .. => none

def timeoutEvent (number : ℕ) : Event α := .poll number [] (some .timeout)

/-! ## What each place logs -/

/-- A `Put` or `PutOrUpdate`, `ev err` being the call with its result: its log, and what the
lock it holds in the waking loop keeps true of the queue. -/
def PutPc.Fine (q : Queue τ α) (ev : Option QueueError → Event α) : PutPc τ → List (Event α) → Prop
  | .start, es | .lock, es => es = []
  | .add _, es | .send _, es => es = [ev none] ∧ q.disposed = false ∧ q.items ≠ []
  | .wait _, es => es = [ev none] ∧ q.disposed = false
  | .unlock err, es | .done err, es => es = [ev err]

def PollPc.Fine (q : Queue τ α) (u : τ) (number : ℕ) : PollPc α → List (Event α) → Prop
  | .start, es | .lock, es => es = []
  | .unlock taken err, es => es = [.poll number taken err]
  | .unlockWait, es => es = [timeoutEvent number] ∧ q.ready u = false
  | .select, es | .timeoutSend, es | .timeoutLock, es | .timeoutUnlock, es | .timeoutDone, es =>
    es = [timeoutEvent number]
  | .signal taken, es => es = [timeoutEvent number, .poll number taken none]
  | .done taken err, es =>
    es = [.poll number taken err] ∨ (err ≠ some .timeout ∧ es = [timeoutEvent number, .poll number taken err])
  | .panicked, _ => True

def DisposePc.Fine (q : Queue τ α) : DisposePc τ α → List (Event α) → Prop
  | .start, es => es = []
  | .add _, es | .send _, es => es = [.dispose q.items] ∧ q.disposed = true
  | .unlock d, es | .done d, es => es = [.dispose d]

/-- What holds of goroutine `u` with log `es`: its call is plain, and its log and what its
place says of the queue are as above. -/
def Thread.Fine (q : Queue τ α) (u : τ) : Thread τ α → List (Event α) → Prop
  | .put items pc, es => items ≠ [] ∧ pc.Fine q (.put items) es
  | .putOrUpdate cmp item pc, es => pc.Fine q (.putOrUpdate cmp item) es
  | .poll number _ pc, es => 1 ≤ number ∧ pc.Fine q u number.toNat es
  | .dispose pc, es => pc.Fine q es
  | .execute .., _ | .worker .., _ => False

/-- A goroutine that does not hold the lock says nothing of the queue, and one that holds it
says nothing of the items unless it is in a waking loop. -/
theorem Thread.Fine.frame {q q' : Queue τ α} {u : τ} {th : Thread τ α} {es : List (Event α)}
    (h : th.Fine q u es)
    (hq : th.holds → q'.disposed = q.disposed ∧ q'.ready u = q.ready u ∧ (th.usesItems → q'.items = q.items)) :
    th.Fine q' u es := by
  cases th with
  | put items pc | putOrUpdate _ _ pc =>
    cases pc <;> simp_all [Thread.Fine, PutPc.Fine, Thread.holds, PutPc.holds, Thread.usesItems]
  | poll number timed pc =>
    cases pc <;> simp_all [Thread.Fine, PollPc.Fine, Thread.holds, PollPc.holds]
  | dispose pc =>
    cases pc <;> simp_all [Thread.Fine, DisposePc.Fine, Thread.holds, DisposePc.holds, Thread.usesItems]
  | execute | worker => exact h

section Log

variable [DecidableEq τ]

/-- The linearization points of a run from step `i` on: the step, the goroutine and the call. -/
def World.points : World τ α → ℕ → List (τ × Bool) → List (ℕ × τ × Event α)
  | _, _, [] => []
  | w, i, (t, c) :: sched => ((w.point t c).map fun e => (i, t, e)).toList ++ (w.step t c).points (i + 1) sched

/-- The calls the points of goroutine `u` stand for, in order. -/
def eventsOf (log : List (ℕ × τ × Event α)) (u : τ) : List (Event α) :=
  (log.filter fun p => p.2.1 = u).map fun p => p.2.2

/-- A logged timeout counts only if the `Poll` did time out. -/
def keep (threads : τ → Thread τ α) (p : ℕ × τ × Event α) : Bool :=
  !p.2.2.timedOut || (threads p.2.1).timedOut

/-- The linearization of a run of `calls` on a new queue. -/
def linearization (calls : τ → Call τ α) (sched : List (τ × Bool)) : List (ℕ × τ × Event α) :=
  ((World.init newQueue calls).points 0 sched).filter (keep ((World.init newQueue calls).run sched).threads)

theorem eventsOf_append_of_ne (log : List (ℕ × τ × Event α)) {t u : τ} (hu : u ≠ t) (ev : Option (Event α))
    (i : ℕ) : eventsOf (log ++ (ev.map fun e => (i, t, e)).toList) u = eventsOf log u := by
  cases ev <;> simp [eventsOf, Ne.symm hu]

theorem eventsOf_append_self (log : List (ℕ × τ × Event α)) (t : τ) (ev : Option (Event α)) (i : ℕ) :
    eventsOf (log ++ (ev.map fun e => (i, t, e)).toList) t = eventsOf log t ++ ev.toList := by
  cases ev <;> simp [eventsOf]

end Log

/-! ## Facts of the places -/

def PutPc.waitsOn : PutPc τ → Option τ
  | .wait s => some s
  | _ => none

theorem Thread.holds_of_waitsOn {th : Thread τ α} {u : τ} (h : th.waitsOn = some u) : th.holds := by
  match th, h with
  | .put _ (.wait _), _ | .putOrUpdate _ _ (.wait _), _ => rfl

theorem Thread.waitsOn_of_listening {th : Thread τ α} (h : th.listening) : th.waitsOn = none := by
  match th, h with
  | .poll _ _ .select, _ => rfl

theorem Thread.owed_of_listening {th : Thread τ α} (h : th.listening) (r : Bool) : th.owed r = r.toNat := by
  match th, h with
  | .poll _ _ .select, _ => rfl

theorem abs_eq_of {q q' : Queue τ α} (hitems : q'.items = q.items) (hdisposed : q'.disposed = q.disposed) :
    q'.abs = q.abs := by
  simp [abs, hitems, hdisposed]

theorem abs_of_disposed {q : Queue τ α} (h : q.disposed = true) : q.abs = ⟨[], true⟩ := by
  simp [abs, h]

theorem abs_eq_of_disposed {q q' : Queue τ α} (hq : q.disposed = true) (hq' : q'.disposed = true) :
    q'.abs = q.abs := by
  rw [abs_of_disposed hq, abs_of_disposed hq']

theorem abs_of_not_disposed {q : Queue τ α} (h : q.disposed = false) : q.abs = ⟨q.items, false⟩ := by
  simp [abs, h]

theorem SemaOk.eq_of_holds [DecidableEq τ] {w : World τ α} (h : SemaOk w) {u s : τ} (hu : (w.threads u).holds)
    (hs : (w.threads s).holds) : u = s :=
  Option.some.inj ((h.holder u hu).symm.trans (h.holder s hs))

theorem Thread.usesItems_of_waitsOn {th : Thread τ α} {u : τ} (h : th.waitsOn = some u) : th.usesItems = false := by
  match th, h with
  | .put _ (.wait _), _ | .putOrUpdate _ _ (.wait _), _ => rfl

theorem Thread.holds_of_disposing {th : Thread τ α} (h : th.disposing) : th.holds := by
  match th, h with
  | .dispose (.add _), _ | .dispose (.send _), _ => rfl

theorem putOrUpdateItems_ne_nil (cmp : α → α → Bool) (item : α) (items : List α) :
    putOrUpdateItems cmp item items ≠ [] := by
  unfold putOrUpdateItems
  split
  · next pos h =>
    have hne : items ≠ [] := by
      rintro rfl
      simp at h
    simpa using hne
  · simp

section Wake

@[simp] theorem wakeNext_items (q : Queue τ α) : (wakeNext q).1.items = q.items := by
  unfold wakeNext; split <;> rfl

@[simp] theorem wakeNext_ready (q : Queue τ α) : (wakeNext q).1.ready = q.ready := (wakeNext_turn q).ready

@[simp] theorem afterWake_ready (q : Queue τ α) : (afterWake q).1.ready = q.ready := (afterWake_turn q).ready

@[simp] theorem afterWake_items (q : Queue τ α) : (afterWake q).1.items = q.items := by
  unfold afterWake; split <;> simp

theorem wakeNext_fine [DecidableEq τ] {q : Queue τ α} (hd : q.disposed = false) (hne : q.items ≠ [])
    (ev : Option QueueError → Event α) : PutPc.Fine (wakeNext q).1 ev (wakeNext q).2 [ev none] := by
  unfold wakeNext
  split <;> simp [PutPc.Fine, hd, hne]

theorem afterWake_fine [DecidableEq τ] {q : Queue τ α} (hd : q.disposed = false) (ev : Option QueueError → Event α) :
    PutPc.Fine (afterWake q).1 ev (afterWake q).2 [ev none] := by
  unfold afterWake
  split_ifs with he
  · simp [PutPc.Fine]
  · exact wakeNext_fine hd he ev

end Wake

/-- `Put` of some items and `PutOrUpdate`, seen through their places: `ev err` is the call
with its result and `change` what it does to the items. -/
structure PutKind (mk : PutPc τ → Thread τ α) (ev : Option QueueError → Event α) (change : List α → List α) :
    Prop where
  waker : Waker mk PutPc.holds (fun pc => pc.target.toList) PutPc.sendsTo
  fine : ∀ q u pc es, (mk pc).Fine q u es ↔ pc.Fine q ev es
  listening : ∀ pc, (mk pc).listening = false
  waitsOn : ∀ pc, (mk pc).waitsOn = pc.waitsOn
  disposing : ∀ pc, (mk pc).disposing = false
  nonempty : ∀ items, change items ≠ []
  step : ∀ items, Seq.Step ⟨items, false⟩ (ev none) ⟨change items, false⟩
  stepDisposed : ∀ items, Seq.Step ⟨items, true⟩ (ev (some .disposed)) ⟨items, true⟩

theorem putKind_put {items : List α} (h : items ≠ []) :
    PutKind (Thread.put (τ := τ) items) (.put items) (· ++ items) where
  waker := waker_put items
  fine q u pc es := by simp [Thread.Fine, h]
  listening _ := rfl
  waitsOn pc := by cases pc <;> rfl
  disposing _ := rfl
  nonempty xs := by simp [h]
  step xs := .put xs items
  stepDisposed xs := .putDisposed xs items

theorem putKind_putOrUpdate (cmp : α → α → Bool) (item : α) :
    PutKind (Thread.putOrUpdate (τ := τ) cmp item) (.putOrUpdate cmp item) (putOrUpdateItems cmp item) where
  waker := waker_putOrUpdate cmp item
  fine _ _ _ _ := Iff.rfl
  listening _ := rfl
  waitsOn pc := by cases pc <;> rfl
  disposing _ := rfl
  nonempty := putOrUpdateItems_ne_nil cmp item
  step xs := .putOrUpdate xs cmp item
  stepDisposed xs := .putOrUpdateDisposed xs cmp item

/-! ## The invariant -/

/-- A run of plain calls with its log of linearization points: the handshake holds, every
goroutine is as its place says, a woken `Poll` listens while the `Put` that woke it waits and
there are items to take, a disposed queue is empty unless `Dispose` is still waking its
waiters, and the log is a run of the sequential queue to the queue the run is at. -/
structure Lin [DecidableEq τ] (w : World τ α) (log : List (ℕ × τ × Event α)) : Prop where
  sema : SemaOk w
  fine : ∀ u, (w.threads u).Fine w.q u (eventsOf log u)
  woken : ∀ u, (w.threads u).listening → w.q.ready u = true → w.q.disposed = false →
    (∃ s, (w.threads s).waitsOn = some u) ∧ w.q.items ≠ []
  drained : w.q.disposed = true → w.q.items = [] ∨ ∃ d, (w.threads d).disposing
  seq : Seq.Run (log.map fun p => p.2.2) w.q.abs

namespace Lin

variable [DecidableEq τ] {w : World τ α} {log : List (ℕ × τ × Event α)} {t : τ} {q' : Queue τ α}
  {th' : Thread τ α}

theorem lock_of_woken (h : Lin w log) {u : τ} (hl : (w.threads u).listening) (hr : w.q.ready u = true)
    (hd : w.q.disposed = false) : ∃ s, w.q.lock = some s ∧ (w.threads s).waitsOn = some u := by
  obtain ⟨⟨s, hs⟩, -⟩ := h.woken u hl hr hd
  exact ⟨s, h.sema.holder s (Thread.holds_of_waitsOn hs), hs⟩

/-- The `Put` waiting on a woken `Poll` cannot stop waiting: the `Poll` owes it a `Done()`. -/
theorem response_pos (h : Lin w log) {u : τ} (hl : (w.threads u).listening) (hr : w.q.ready u = true) :
    w.q.response u ≠ 0 := by
  have hcov := h.sema.covered u
  rw [Thread.owed_of_listening hl, hr] at hcov
  simp at hcov
  omega

/-- The drained queue after a step of `t` that leaves the items and the flag, and does not end
a `Dispose`'s loop. -/
theorem drained_frame (h : Lin w log) (hitems : q'.items = w.q.items) (hdisposed : q'.disposed = w.q.disposed)
    (hdisposing : (w.threads t).disposing → th'.disposing) :
    q'.disposed = true → q'.items = [] ∨ ∃ d, (Function.update w.threads t th' d).disposing := by
  intro hd
  rcases h.drained (hdisposed ▸ hd) with he | ⟨d, hdd⟩
  · exact .inl (hitems ▸ he)
  · right
    by_cases hdt : d = t
    · subst hdt
      exact ⟨d, by rw [Function.update_self]; exact hdisposing hdd⟩
    · exact ⟨d, by rwa [Function.update_of_ne hdt]⟩

/-- A step of `t` to `q'` and `th'` whose linearization point, if it is one, is `ev`. -/
theorem next (h : Lin w log) (i : ℕ) {ev : Option (Event α)}
    (hsema : SemaOk ⟨q', Function.update w.threads t th'⟩)
    (hfine : th'.Fine q' t (eventsOf log t ++ ev.toList))
    (hframe : ∀ u ≠ t, (w.threads u).holds →
      q'.disposed = w.q.disposed ∧ q'.ready u = w.q.ready u ∧ ((w.threads u).usesItems → q'.items = w.q.items))
    (hwoken : ∀ u, (Function.update w.threads t th' u).listening → q'.ready u = true → q'.disposed = false →
      (∃ s, (Function.update w.threads t th' s).waitsOn = some u) ∧ q'.items ≠ [])
    (hdrained : q'.disposed = true → q'.items = [] ∨ ∃ d, (Function.update w.threads t th' d).disposing)
    (hrun : (ev = none ∧ q'.abs = w.q.abs) ∨ ∃ e, ev = some e ∧ Seq.Step w.q.abs e q'.abs) :
    Lin ⟨q', Function.update w.threads t th'⟩ (log ++ (ev.map fun e => (i, t, e)).toList) where
  sema := hsema
  fine u := by
    by_cases hu : u = t
    · subst hu
      simpa [eventsOf_append_self] using hfine
    · simp only [Function.update_of_ne hu, eventsOf_append_of_ne log hu]
      exact (h.fine u).frame (hframe u hu)
  woken := hwoken
  drained := hdrained
  seq := by
    rcases hrun with ⟨rfl, habs⟩ | ⟨e, rfl, hstep⟩
    · simpa [habs] using h.seq
    · simpa using Seq.Run.snoc h.seq hstep

/-- A step that is no linearization point and leaves the items, the flag and the other
goroutines' semaphores alone; a `Poll` that starts to listen does so with `ready` empty. -/
theorem quiet (h : Lin w log) (i : ℕ)
    (hsema : SemaOk ⟨q', Function.update w.threads t th'⟩) (hfine : th'.Fine q' t (eventsOf log t))
    (hitems : q'.items = w.q.items) (hdisposed : q'.disposed = w.q.disposed)
    (hready : ∀ u ≠ t, q'.ready u = w.q.ready u)
    (hlisten : th'.listening → ((w.threads t).listening ∧ q'.ready t = w.q.ready t) ∨ q'.ready t = false)
    (hwaits : ∀ u, (w.threads t).waitsOn = some u → th'.waitsOn = some u ∨ w.q.response u = 0)
    (hdisposing : (w.threads t).disposing → th'.disposing) :
    Lin ⟨q', Function.update w.threads t th'⟩ (log ++ ((none : Option (Event α)).map fun e => (i, t, e)).toList) := by
  refine h.next i hsema (by simpa using hfine) (fun u hu _ => ⟨hdisposed, hready u hu, fun _ => hitems⟩) ?_
    (h.drained_frame hitems hdisposed hdisposing) (.inl ⟨rfl, abs_eq_of hitems hdisposed⟩)
  intro u hl hr hd
  rw [hitems]
  rw [hdisposed] at hd
  by_cases hut : u = t
  · subst hut
    rw [Function.update_self] at hl
    rcases hlisten hl with ⟨hl₀, hr₀⟩ | hr₀
    · obtain ⟨⟨s, hs⟩, hne⟩ := h.woken u hl₀ (hr₀ ▸ hr) hd
      -- the `Put` that woke `u` is another goroutine
      have hsu : s ≠ u := by
        rintro rfl
        rw [Thread.waitsOn_of_listening hl₀] at hs
        cases hs
      exact ⟨⟨s, by rwa [Function.update_of_ne hsu]⟩, hne⟩
    · rw [hr₀] at hr
      cases hr
  · rw [Function.update_of_ne hut] at hl
    have hr₀ : w.q.ready u = true := hready u hut ▸ hr
    obtain ⟨⟨s, hs⟩, hne⟩ := h.woken u hl hr₀ hd
    refine ⟨?_, hne⟩
    by_cases hst : s = t
    · subst hst
      rcases hwaits u hs with hw | hz
      · exact ⟨s, by rwa [Function.update_self]⟩
      · exact absurd hz (h.response_pos hl hr₀)
    · exact ⟨s, by rwa [Function.update_of_ne hst]⟩

theorem not_woken_of_free (h : Lin w log) (hfree : w.q.lock = none) (hl' : th'.listening = false)
    (hready : ∀ u ≠ t, q'.ready u = w.q.ready u) (hdisposed : q'.disposed = w.q.disposed) (u : τ)
    (hl : (Function.update w.threads t th' u).listening) (hr : q'.ready u = true) (hd : q'.disposed = false) :
    False := by
  have hut : u ≠ t := by
    rintro rfl
    rw [Function.update_self, hl'] at hl
    cases hl
  rw [Function.update_of_ne hut] at hl
  obtain ⟨s, hs, -⟩ := h.lock_of_woken hl (hready u hut ▸ hr) (hdisposed ▸ hd)
  rw [hfree] at hs
  cases hs

theorem frame_free (h : Lin w log) (hfree : w.q.lock = none) (P : τ → Prop) :
    ∀ u ≠ t, (w.threads u).holds → P u := by
  intro u _ hu
  have := h.sema.holder u hu
  rw [hfree] at this
  cases this

theorem frame_held (h : Lin w log) (ht : (w.threads t).holds) (P : τ → Prop) :
    ∀ u ≠ t, (w.threads u).holds → P u :=
  fun _ hut hu => absurd (h.sema.eq_of_holds hu ht) hut

/-- At most one `Poll` is woken: the `Put`s that woke them both hold the lock. -/
theorem eq_of_woken (h : Lin w log) (hd : w.q.disposed = false) {u v : τ}
    (hu : (w.threads u).listening) (hru : w.q.ready u = true)
    (hv : (w.threads v).listening) (hrv : w.q.ready v = true) : u = v := by
  obtain ⟨s, hs, hsu⟩ := h.lock_of_woken hu hru hd
  obtain ⟨s', hs', hsv⟩ := h.lock_of_woken hv hrv hd
  obtain rfl : s = s' := Option.some.inj (hs.symm.trans hs')
  exact Option.some.inj (hsu.symm.trans hsv)

theorem putStep (h : Lin w log) (i : ℕ) {mk : PutPc τ → Thread τ α} {ev : Option QueueError → Event α}
    {change : List α → List α} (hk : PutKind mk ev change) {pc : PutPc τ} (hs : w.threads t = mk pc) :
    Lin ⟨(Queue.putStep t change w.q pc).1, Function.update w.threads t (mk (Queue.putStep t change w.q pc).2)⟩
      (log ++ ((putPoint w.q ev pc).map fun e => (i, t, e)).toList) := by
  have hsema := h.sema.putStep_ok hk.waker change hs
  have hfine : pc.Fine w.q ev (eventsOf log t) := (hk.fine _ _ _ _).mp (hs ▸ h.fine t)
  have hmk : ∀ {q pc es}, pc.Fine q ev es → (mk pc).Fine q t es := fun hf => (hk.fine _ _ _ _).mpr hf
  have hl' : ∀ pc' (P : Prop), (mk pc').listening → P := fun _ _ hl => absurd hl (by simp [hk.listening])
  have hdisp : ∀ pc', (w.threads t).disposing → (mk pc').disposing := fun _ hd => by
    simp [hs, hk.disposing] at hd
  have hwaits₀ : ∀ P : τ → Prop, pc.waitsOn = none → ∀ u, (w.threads t).waitsOn = some u → P u := by
    intro P hpc u hu
    rw [hs, hk.waitsOn, hpc] at hu
    cases hu
  cases pc with
  | start | add _ | unlock _ | done _ =>
    exact h.quiet i hsema (hmk hfine) rfl rfl (fun _ _ => rfl) (hl' _ _) (hwaits₀ _ rfl) (hdisp _)
  | lock =>
    simp only [Queue.putStep, putPoint] at hsema ⊢
    by_cases hfree : w.q.lock = none
    · simp only [hfree, ↓reduceIte] at hsema ⊢
      have hlog : eventsOf log t = [] := hfine
      by_cases hd : w.q.disposed = true
      · -- `ErrDisposed`, with nothing changed but the lock
        simp only [hd, if_true] at hsema ⊢
        refine h.next i hsema (hmk (by rw [hlog]; rfl)) (h.frame_free hfree _) (fun u _ _ hd' => absurd hd' (by simp))
          (h.drained_frame rfl hd.symm (hdisp _)) (.inr ⟨_, rfl, ?_⟩)
        rw [abs_of_disposed hd, abs_of_disposed rfl]
        exact hk.stepDisposed []
      · simp only [hd, Bool.false_eq_true, if_false] at hsema ⊢
        have hd' : w.q.disposed = false := by simpa using hd
        refine h.next i hsema (hmk ?_) (h.frame_free hfree _) ?_
          (fun hd'' => absurd hd'' (by simp [wakeNext_disposed])) (.inr ⟨_, rfl, ?_⟩)
        · rw [hlog]
          exact wakeNext_fine rfl (hk.nonempty _) ev
        · exact fun u hl hr hdu => (h.not_woken_of_free hfree (hk.listening _)
            (fun u _ => by simp) (by simp [wakeNext_disposed, hd']) u hl hr hdu).elim
        · rw [abs_of_not_disposed hd', abs_of_not_disposed (by simp [wakeNext_disposed])]
          simpa using hk.step w.q.items
    · simp only [hfree, ↓reduceIte] at hsema ⊢
      exact h.quiet i hsema (hmk hfine) rfl rfl (fun _ _ => rfl) (hl' _ _) (hwaits₀ _ rfl) (hdisp _)
  | send sema =>
    obtain ⟨hlog, hd, hne⟩ := hfine
    simp only [Queue.putStep, putPoint] at hsema ⊢
    by_cases hfull : w.q.ready sema = true
    · rw [if_pos hfull] at hsema ⊢
      exact h.quiet i hsema (hmk (by rw [hlog]; exact afterWake_fine hd ev)) (by simp) (by simp [afterWake_disposed])
        (fun u _ => by simp) (hl' _ _) (hwaits₀ _ rfl) (hdisp _)
    · -- the send fills `ready`: the woken `Poll` is `sema`, and the `Put` waits for it
      rw [if_neg hfull] at hsema ⊢
      refine h.next i hsema (hmk ⟨by simpa using hlog, hd⟩)
        (h.frame_held (by rw [hs, hk.waker.holds]; rfl) _) ?_
        (h.drained_frame rfl rfl (hdisp _)) (.inl ⟨rfl, abs_eq_of rfl rfl⟩)
      intro u hl hr hdu
      have hut : u ≠ t := by
        rintro rfl
        rw [Function.update_self, hk.listening] at hl
        cases hl
      by_cases hus : u = sema
      · subst hus
        exact ⟨⟨t, by simp [hk.waitsOn, PutPc.waitsOn]⟩, hne⟩
      · rw [Function.update_of_ne hut] at hl
        have hr₀ : w.q.ready u = true := by simpa [Function.update_of_ne hus] using hr
        obtain ⟨⟨s, hsu⟩, -⟩ := h.woken u hl hr₀ hd
        have hst : s ≠ t := by
          rintro rfl
          rw [hs, hk.waitsOn] at hsu
          cases hsu
        exact ⟨⟨s, by rwa [Function.update_of_ne hst]⟩, hne⟩
  | wait sema =>
    obtain ⟨hlog, hd⟩ := hfine
    simp only [Queue.putStep, putPoint] at hsema ⊢
    by_cases hzero : w.q.response sema = 0
    · rw [if_pos hzero] at hsema ⊢
      refine h.quiet i hsema (hmk (by rw [hlog]; exact afterWake_fine hd ev)) (by simp) (by simp [afterWake_disposed])
        (fun u _ => by simp) (hl' _ _) (fun u hu => .inr ?_) (hdisp _)
      rw [hs, hk.waitsOn] at hu
      cases hu
      exact hzero
    · rw [if_neg hzero] at hsema ⊢
      exact h.quiet i hsema (hmk ⟨hlog, hd⟩) rfl rfl (fun _ _ => rfl) (hl' _ _) (fun u hu => .inl (hs ▸ hu)) (hdisp _)

theorem pollStep (h : Lin w log) (i : ℕ) {number : ℤ} {timed : Bool} (choice : Bool) {pc : PollPc α}
    (hs : w.threads t = .poll number timed pc) :
    Lin ⟨(Queue.pollStep t number timed choice w.q pc).1,
        Function.update w.threads t (.poll number timed (Queue.pollStep t number timed choice w.q pc).2)⟩
      (log ++ ((pollPoint w.q t number.toNat timed choice pc).map fun e => (i, t, e)).toList) := by
  have hsema := h.sema.pollStep_ok choice hs
  obtain ⟨hn, hfine⟩ : 1 ≤ number ∧ pc.Fine w.q t number.toNat (eventsOf log t) := by
    simpa [hs, Thread.Fine] using h.fine t
  have hwaits : ∀ (P : τ → Prop) u, (w.threads t).waitsOn = some u → P u := by
    intro P u hu
    simp [hs, Thread.waitsOn] at hu
  have hdisp : ∀ th : Thread τ α, (w.threads t).disposing → th.disposing := by
    intro th hd
    simp [hs, Thread.disposing] at hd
  cases pc with
  | start =>
    simp only [Queue.pollStep, pollPoint, show ¬number < 1 by omega, ↓reduceIte] at hsema ⊢
    exact h.quiet i hsema ⟨hn, hfine⟩ rfl rfl (fun _ _ => rfl) (by simp [Thread.listening]) (hwaits _) (hdisp _)
  | lock =>
    simp only [Queue.pollStep, pollPoint] at hsema ⊢
    by_cases hfree : w.q.lock = none
    · simp only [hfree, ↓reduceIte] at hsema ⊢
      have hlog : eventsOf log t = [] := hfine
      by_cases hd : w.q.disposed = true
      · simp only [hd, ↓reduceIte] at hsema ⊢
        refine h.next i hsema ⟨hn, by rw [hlog]; rfl⟩ (h.frame_free hfree _) (fun u _ _ hd' => absurd hd' (by simp))
          (h.drained_frame rfl hd.symm (hdisp _)) (.inr ⟨_, rfl, ?_⟩)
        rw [abs_of_disposed hd, abs_of_disposed rfl]
        exact .pollDisposed [] _
      · have hd' : w.q.disposed = false := by simpa using hd
        simp only [hd', Bool.false_eq_true, ↓reduceIte] at hsema ⊢
        by_cases he : w.q.items = []
        · -- no item: the call parks, logged as the timeout it may become
          simp only [he, ↓reduceIte, List.take_nil] at hsema ⊢
          refine h.next i hsema ⟨hn, by rw [hlog]; exact ⟨rfl, by simp⟩⟩ (h.frame_free hfree _)
            (fun u hl hr hdu => (h.not_woken_of_free hfree rfl (fun u hut => by simp [hut]) (by simp [hd'])
              u hl hr hdu).elim) (fun hd'' => absurd hd'' (by simp)) (.inr ⟨_, rfl, ?_⟩)
          rw [abs_of_not_disposed hd', abs_of_not_disposed rfl, he]
          exact .pollTimeout _
        · simp only [he, ↓reduceIte, itemsGet] at hsema ⊢
          refine h.next i hsema ⟨hn, by rw [hlog]; rfl⟩ (h.frame_free hfree _)
            (fun u hl hr hdu => (h.not_woken_of_free hfree rfl (fun _ _ => by rfl) (by simp [hd'])
              u hl hr hdu).elim) (fun hd'' => absurd hd'' (by simp)) (.inr ⟨_, rfl, ?_⟩)
          rw [abs_of_not_disposed hd', abs_of_not_disposed rfl]
          exact .poll _ _ he
    · simp only [hfree, ↓reduceIte] at hsema ⊢
      exact h.quiet i hsema ⟨hn, hfine⟩ rfl rfl (fun _ _ => rfl) (by simp [Thread.listening]) (hwaits _) (hdisp _)
  | unlock _ _ | timeoutUnlock =>
    exact h.quiet i hsema ⟨hn, .inl hfine⟩ rfl rfl (fun _ _ => rfl) (by simp [Queue.pollStep, Thread.listening])
      (hwaits _) (hdisp _)
  | unlockWait =>
    obtain ⟨hlog, hr⟩ := hfine
    exact h.quiet i hsema ⟨hn, hlog⟩ rfl rfl (fun _ _ => rfl) (fun _ => .inr hr) (hwaits _) (hdisp _)
  | select =>
    simp only [Queue.pollStep, pollPoint] at hsema ⊢
    by_cases htime : (timed && choice) = true
    · simp only [htime, ↓reduceIte, Bool.true_eq_false, false_and] at hsema ⊢
      exact h.quiet i hsema ⟨hn, hfine⟩ rfl rfl (fun _ _ => rfl) (by simp [Thread.listening]) (hwaits _) (hdisp _)
    · have htime' : (timed && choice) = false := by simpa using htime
      simp only [htime', Bool.false_eq_true, ↓reduceIte, true_and] at hsema ⊢
      by_cases hr : w.q.ready t = true
      · simp only [hr, ↓reduceIte] at hsema ⊢
        by_cases hd : w.q.disposed = true
        · simp only [hd, ↓reduceIte] at hsema ⊢
          refine h.next i hsema ⟨hn, .inr ⟨by simp, by rw [hfine]; rfl⟩⟩ ?_ (fun u _ _ hd' => absurd hd' (by simp))
            (h.drained_frame rfl hd.symm (hdisp _)) (.inr ⟨_, rfl, ?_⟩)
          · exact fun u hut _ => ⟨hd.symm, by simp [hut], fun _ => rfl⟩
          · rw [abs_of_disposed hd, abs_of_disposed rfl]
            exact .pollDisposed [] _
        · have hd' : w.q.disposed = false := by simpa using hd
          simp only [hd', Bool.false_eq_true, ↓reduceIte, itemsGet] at hsema ⊢
          have hl : (w.threads t).listening := by rw [hs]; rfl
          obtain ⟨⟨s, hsw⟩, hne⟩ := h.woken t hl hr hd'
          refine h.next i hsema ⟨hn, by rw [hfine]; rfl⟩ ?_ ?_ (fun hd'' => absurd hd'' (by simp))
            (.inr ⟨_, rfl, ?_⟩)
          · -- the only other holder is the `Put` that woke `t`: it waits, and says nothing of the items
            intro u hut hu
            obtain rfl : u = s := h.sema.eq_of_holds hu (Thread.holds_of_waitsOn hsw)
            exact ⟨hd'.symm, by simp [hut], fun hui => absurd hui (by simp [Thread.usesItems_of_waitsOn hsw])⟩
          · -- no other `Poll` is woken
            intro u hl' hr' _
            have hut : u ≠ t := by
              rintro rfl
              simp [Thread.listening] at hl'
            rw [Function.update_of_ne hut] at hl'
            exact absurd (h.eq_of_woken hd' hl' (by simpa [hut] using hr') hl hr) hut
          · rw [abs_of_not_disposed hd', abs_of_not_disposed rfl]
            exact .poll _ _ hne
      · simp only [hr, Bool.false_eq_true, ↓reduceIte] at hsema ⊢
        exact h.quiet i hsema ⟨hn, hfine⟩ rfl rfl (fun _ _ => rfl) (fun _ => .inl ⟨by rw [hs]; rfl, rfl⟩)
          (hwaits _) (hdisp _)
  | signal taken =>
    simp only [Queue.pollStep, pollPoint] at hsema ⊢
    split_ifs at hsema ⊢
    · exact h.quiet i hsema ⟨hn, trivial⟩ rfl rfl (fun _ _ => rfl) (by simp [Thread.listening]) (hwaits _) (hdisp _)
    · exact h.quiet i hsema ⟨hn, .inr ⟨by simp, hfine⟩⟩ rfl rfl (fun _ _ => rfl) (by simp [Thread.listening])
        (hwaits _) (hdisp _)
  | timeoutSend =>
    simp only [Queue.pollStep, pollPoint] at hsema ⊢
    split_ifs at hsema ⊢
    · exact h.quiet i hsema ⟨hn, hfine⟩ rfl rfl (fun _ _ => rfl) (by simp [Thread.listening]) (hwaits _) (hdisp _)
    · exact h.quiet i hsema ⟨hn, hfine⟩ rfl rfl (fun u hut => by simp [hut]) (by simp [Thread.listening])
        (hwaits _) (hdisp _)
  | timeoutLock =>
    simp only [Queue.pollStep, pollPoint] at hsema ⊢
    split_ifs at hsema ⊢ <;>
      exact h.quiet i hsema ⟨hn, hfine⟩ rfl rfl (fun _ _ => rfl) (by simp [Thread.listening]) (hwaits _) (hdisp _)
  | timeoutDone =>
    simp only [Queue.pollStep, pollPoint] at hsema ⊢
    split_ifs at hsema ⊢
    · exact h.quiet i hsema ⟨hn, trivial⟩ rfl rfl (fun _ _ => rfl) (by simp [Thread.listening]) (hwaits _) (hdisp _)
    · exact h.quiet i hsema ⟨hn, .inl hfine⟩ rfl rfl (fun _ _ => rfl) (by simp [Thread.listening]) (hwaits _) (hdisp _)
  | done _ _ | panicked =>
    exact h.quiet i hsema ⟨hn, hfine⟩ rfl rfl (fun _ _ => rfl) (by simp [Queue.pollStep, Thread.listening])
      (hwaits _) (hdisp _)

/-- The queue a free lock leaves is what the sequential queue holds: a disposed queue is empty
once `Dispose` has left its loop. -/
theorem abs_of_free (h : Lin w log) (hfree : w.q.lock = none) : w.q.abs = ⟨w.q.items, w.q.disposed⟩ := by
  cases hd : w.q.disposed
  · exact abs_of_not_disposed hd
  · rcases h.drained hd with he | ⟨d, hdd⟩
    · rw [abs_of_disposed hd, he]
    · have hheld := h.sema.holder d (Thread.holds_of_disposing hdd)
      rw [hfree] at hheld
      cases hheld

/-- `Dispose` leaves its waking loop: it empties a queue that was disposed when it took the lock. -/
theorem finish (h : Lin w log) (i : ℕ) {q₁ : Queue τ α} (ht : (w.threads t).holds)
    (hsema : SemaOk ⟨(disposeFinish q₁).1, Function.update w.threads t (.dispose (disposeFinish q₁).2)⟩)
    (hlog : eventsOf log t = [.dispose q₁.items]) (hd : w.q.disposed = true) (hd₁ : q₁.disposed = true) :
    Lin ⟨(disposeFinish q₁).1, Function.update w.threads t (.dispose (disposeFinish q₁).2)⟩
      (log ++ ((none : Option (Event α)).map fun e => (i, t, e)).toList) :=
  h.next i hsema (by rw [hlog]; rfl) (h.frame_held ht _) (fun u _ _ hd' => absurd hd' (by simp [disposeFinish, hd₁]))
    (fun _ => .inl rfl) (.inl ⟨rfl, abs_eq_of_disposed hd hd₁⟩)

theorem disposeStep (h : Lin w log) (i : ℕ) {pc : DisposePc τ α} (hs : w.threads t = .dispose pc) :
    Lin ⟨(Queue.disposeStep t w.q pc).1, Function.update w.threads t (.dispose (Queue.disposeStep t w.q pc).2)⟩
      (log ++ ((disposePoint w.q pc).map fun e => (i, t, e)).toList) := by
  have hsema := h.sema.disposeStep_ok waker_dispose hs
  have hfine : pc.Fine w.q (eventsOf log t) := by simpa [hs, Thread.Fine] using h.fine t
  have hheld : pc.holds → (w.threads t).holds := fun hp => by rw [hs]; exact hp
  have hwaits : ∀ (P : τ → Prop) u, (w.threads t).waitsOn = some u → P u := by
    intro P u hu
    simp [hs, Thread.waitsOn] at hu
  have hnl : ∀ (pc' : DisposePc τ α) (P : Prop), (Thread.dispose pc').listening → P := by
    intro pc' P hl
    simp [Thread.listening] at hl
  cases pc with
  | start =>
    simp only [Queue.disposeStep, disposePoint] at hsema ⊢
    by_cases hfree : w.q.lock = none
    · simp only [hfree, ↓reduceIte] at hsema ⊢
      have hlog : eventsOf log t = [] := hfine
      have hstep : ∀ q' : Queue τ α, q'.disposed = true → Seq.Step w.q.abs (.dispose w.q.items) q'.abs := by
        intro q' hq'
        rw [h.abs_of_free hfree, abs_of_disposed hq']
        exact .dispose _
      split_ifs at hsema ⊢
      · simp only [disposeFinish] at hsema ⊢
        refine h.next i hsema (by rw [hlog]; rfl) (h.frame_free hfree _) (fun u _ _ hd => absurd hd (by simp))
          (fun _ => .inl rfl) (.inr ⟨_, rfl, hstep _ rfl⟩)
      · refine h.next i hsema ⟨by rw [hlog]; rfl, rfl⟩ (h.frame_free hfree _) (fun u _ _ hd => absurd hd (by simp))
          (fun _ => .inr ⟨t, by simp [Thread.disposing]⟩) (.inr ⟨_, rfl, hstep _ rfl⟩)
    · simp only [hfree, ↓reduceIte] at hsema ⊢
      exact h.quiet i hsema hfine rfl rfl (fun _ _ => rfl) (hnl _ _) (hwaits _) (by simp [hs, Thread.disposing])
  | add left =>
    obtain ⟨hlog, hd⟩ := hfine
    cases left with
    | nil =>
      simp only [Queue.disposeStep, disposePoint] at hsema ⊢
      exact h.finish i (hheld rfl) hsema hlog hd hd
    | cons w' left =>
      exact h.quiet i hsema ⟨hlog, hd⟩ rfl rfl (fun _ _ => rfl) (hnl _ _) (hwaits _) (fun _ => rfl)
  | send left =>
    obtain ⟨hlog, hd⟩ := hfine
    cases left with
    | nil =>
      simp only [Queue.disposeStep, disposePoint] at hsema ⊢
      exact h.finish i (hheld rfl) hsema hlog hd hd
    | cons w' left =>
      simp only [Queue.disposeStep, disposePoint] at hsema ⊢
      -- the `select` fills the waiter's `ready` if it is empty, and changes nothing else
      obtain ⟨q₁, hq₁, hitems, hdisposed⟩ : ∃ q₁ : Queue τ α,
          (if w.q.ready w' = true then w.q else { w.q with ready := Function.update w.q.ready w' true }) = q₁ ∧
            q₁.items = w.q.items ∧ q₁.disposed = w.q.disposed :=
        ⟨_, rfl, by split_ifs <;> rfl, by split_ifs <;> rfl⟩
      rw [hq₁] at hsema ⊢
      split_ifs at hsema ⊢
      · exact h.finish i (hheld rfl) hsema (by rw [hlog, hitems]) hd (hdisposed.trans hd)
      · refine h.next i hsema ⟨by rw [hlog, hitems]; rfl, hdisposed.trans hd⟩ (h.frame_held (hheld rfl) _)
          (fun u _ _ hd' => absurd hd' (by simp [hdisposed, hd])) (fun _ => .inr ⟨t, by simp [Thread.disposing]⟩)
          (.inl ⟨rfl, abs_eq_of_disposed hd (hdisposed.trans hd)⟩)
  | unlock _ | done _ =>
    exact h.quiet i hsema hfine rfl rfl (fun _ _ => rfl) (hnl _ _) (hwaits _) (by simp [hs, Thread.disposing])

/-- Every step of a run of plain calls keeps the invariant, its point logged as step `i`. -/
theorem step (h : Lin w log) (t : τ) (c : Bool) (i : ℕ) :
    Lin (w.step t c) (log ++ ((w.point t c).map fun e => (i, t, e)).toList) := by
  have hfine := h.fine t
  rcases hs : w.threads t with ⟨items, pc⟩ | ⟨cmp, item, pc⟩ | ⟨number, timed, pc⟩ | pc | ⟨workers, pc, par⟩ |
    ⟨owner, pc⟩ <;> rw [hs] at hfine
  · have hne : items ≠ [] := hfine.1
    simp only [World.step, World.point, hs, hne, and_false, ↓reduceIte]
    exact h.putStep i (putKind_put hne) hs
  · simp only [World.step, World.point, hs]
    exact h.putStep i (putKind_putOrUpdate cmp item) hs
  · simp only [World.step, World.point, hs]
    exact h.pollStep i c hs
  · simp only [World.step, World.point, hs]
    exact h.disposeStep i hs
  · exact hfine.elim
  · exact hfine.elim

theorem run (h : Lin w log) (sched : List (τ × Bool)) (i : ℕ) : Lin (w.run sched) (log ++ w.points i sched) := by
  induction sched generalizing w log i with
  | nil => simpa [World.run, World.points] using h
  | cons tc sched ih =>
    obtain ⟨t, c⟩ := tc
    simpa [World.run, World.points, List.append_assoc] using ih (h.step t c i) (i + 1)

omit [DecidableEq τ] in
theorem init [DecidableEq τ] (calls : τ → Call τ α) (hcalls : ∀ t, (calls t).Plain) :
    Lin (World.init newQueue calls) [] where
  sema := SemaOk.init calls
  fine u := by
    have hc := hcalls u
    simp only [World.init]
    revert hc
    cases calls u <;> simp [Call.Plain, Call.thread, Thread.Fine, PutPc.Fine, PollPc.Fine, DisposePc.Fine, eventsOf]
  woken u hl := by
    simp only [World.init] at hl
    revert hl
    cases calls u <;> simp [Call.thread, Thread.listening]
  drained hd := by simp [World.init, newQueue] at hd
  seq := by simpa [World.init, newQueue, abs] using Seq.Run.nil

end Lin


/-! ## The linearization -/

section Linearization

variable [DecidableEq τ]

theorem eventsOf_filter_keep (threads : τ → Thread τ α) (L : List (ℕ × τ × Event α)) (u : τ) :
    eventsOf (L.filter (keep threads)) u = (eventsOf L u).filter fun e => !e.timedOut || (threads u).timedOut := by
  simp only [eventsOf, List.filter_filter, List.filter_map]
  congr 1
  apply List.filter_congr
  intro p _
  by_cases hu : p.2.1 = u <;> simp [keep, hu, Bool.and_comm]

/-- A point of a run is a step of the schedule, made by the goroutine it names. -/
theorem mem_points {w : World τ α} {i : ℕ} {sched : List (τ × Bool)} {p : ℕ × τ × Event α}
    (hp : p ∈ w.points i sched) :
    ∃ k c, p.1 = i + k ∧ sched[k]? = some (p.2.1, c) ∧ (w.run (sched.take k)).point p.2.1 c = some p.2.2 := by
  induction sched generalizing w i with
  | nil => simp [World.points] at hp
  | cons tc sched ih =>
    obtain ⟨t, c⟩ := tc
    rw [World.points, List.mem_append] at hp
    rcases hp with hp | hp
    · obtain ⟨e, he, rfl⟩ : ∃ e, w.point t c = some e ∧ (i, t, e) = p := by
        cases h : w.point t c <;> simp_all
      exact ⟨0, c, rfl, rfl, by simpa [World.run] using he⟩
    · obtain ⟨k, c', hk, hs, hpt⟩ := ih hp
      exact ⟨k + 1, c', by omega, by simpa using hs, by simpa [World.run] using hpt⟩

omit [DecidableEq τ] in
theorem World.result_of_point {w : World τ α} {t : τ} {c : Bool} {e : Event α} (h : w.point t c = some e) :
    (w.threads t).result = none := by
  unfold World.point at h
  cases hs : w.threads t with
  | put _ pc | putOrUpdate _ _ pc => rw [hs] at h; cases pc <;> simp_all [putPoint, Thread.result]
  | poll _ _ pc => rw [hs] at h; cases pc <;> simp_all [pollPoint, Thread.result]
  | dispose pc => rw [hs] at h; cases pc <;> simp_all [disposePoint, Thread.result]
  | execute | worker => rfl

omit [DecidableEq τ] in
/-- Of the points of a call that returned, the linearization keeps exactly its result. -/
theorem Thread.Fine.filter_of_result {q : Queue τ α} {u : τ} {th : Thread τ α} {es : List (Event α)}
    {e : Event α} (h : th.Fine q u es) (hr : th.result = some e) :
    es.filter (fun e => !e.timedOut || th.timedOut) = [e] := by
  cases th with
  | put items pc | putOrUpdate _ _ pc =>
    cases pc <;> simp only [Thread.result, reduceCtorEq, Option.some.injEq] at hr
    subst hr
    simp_all [Thread.Fine, PutPc.Fine, Event.timedOut]
  | poll number timed pc =>
    cases pc with
    | done taken err =>
      obtain ⟨-, h⟩ := h
      simp only [Thread.result, Option.some.injEq] at hr
      subst hr
      -- a `Poll` that did not time out drops the timeout it logged when it parked
      rcases h with rfl | ⟨herr, rfl⟩ <;> cases taken <;> rcases err with _ | ⟨_ | _⟩ <;>
        simp_all [Event.timedOut, Thread.timedOut, timeoutEvent]
    | _ => simp [Thread.result] at hr
  | dispose pc =>
    cases pc <;> simp only [Thread.result, reduceCtorEq, Option.some.injEq] at hr
    subst hr
    simp_all [Thread.Fine, DisposePc.Fine, Event.timedOut]
  | execute | worker => simp [Thread.result] at hr

omit [DecidableEq τ] in
/-- A call that has not panicked keeps at most one point. -/
theorem Thread.Fine.filter_length {q : Queue τ α} {u : τ} {th : Thread τ α} {es : List (Event α)}
    (h : th.Fine q u es) (hp : th.panicked = false) :
    (es.filter fun e => !e.timedOut || th.timedOut).length ≤ 1 := by
  have hle : es.length ≤ 1 → (es.filter fun e => !e.timedOut || th.timedOut).length ≤ 1 :=
    (List.length_filter_le _ _).trans
  cases th with
  | put items pc | putOrUpdate _ _ pc => cases pc <;> simp_all [Thread.Fine, PutPc.Fine]
  | poll number timed pc =>
    obtain ⟨-, h⟩ := h
    cases pc with
    | signal taken => simp_all [PollPc.Fine, Event.timedOut, Thread.timedOut, timeoutEvent]
    | done taken err =>
      rcases h with rfl | ⟨herr, rfl⟩
      · exact hle (by simp)
      · rcases err with _ | ⟨_ | _⟩ <;> simp_all [Event.timedOut, Thread.timedOut, timeoutEvent]
    | panicked => simp [Thread.panicked] at hp
    | _ => simp_all [PollPc.Fine]
  | dispose pc => cases pc <;> simp_all [Thread.Fine, DisposePc.Fine]
  | execute | worker => exact h.elim

/-- What linearizability says of the run of `calls` by `sched` on a new queue: the
linearization is a run of the sequential queue to what the queue stands for; it gives every
call that returned its result, and every call at most one point; each point is a step of its
call, made before the call returned; and no item is handed out twice. -/
structure Linearizable (calls : τ → Call τ α) (sched : List (τ × Bool)) : Prop where
  seq : Seq.Run ((linearization calls sched).map fun p => p.2.2) ((World.init newQueue calls).run sched).q.abs
  returned : ∀ t e, (((World.init newQueue calls).run sched).threads t).result = some e →
    eventsOf (linearization calls sched) t = [e]
  once : ∀ t, (eventsOf (linearization calls sched) t).length ≤ 1
  realTime : ∀ p ∈ linearization calls sched, ∃ c, sched[p.1]? = some (p.2.1, c) ∧
    (((World.init newQueue calls).run (sched.take p.1)).threads p.2.1).result = none
  delivered : (((linearization calls sched).map fun p => p.2.2).flatMap Event.removed ++
      ((World.init newQueue calls).run sched).q.abs.items).Subperm
    (((linearization calls sched).map fun p => p.2.2).flatMap Event.added)

theorem queue_linearizable (calls : τ → Call τ α) (hcalls : ∀ t, (calls t).Plain) (sched : List (τ × Bool)) :
    Linearizable calls sched := by
  have h := (Lin.init calls hcalls).run sched 0
  rw [List.nil_append] at h
  -- a dropped point is a timeout that did not happen, and a timeout changes nothing
  have hseq : Seq.Run ((linearization calls sched).map fun p => p.2.2) ((World.init newQueue calls).run sched).q.abs :=
    Seq.Run.filter _ _ h.seq fun p _ hk => by simp_all [keep]
  refine ⟨hseq, fun t e hr => ?_, fun t => ?_, fun p hp => ?_, hseq.removed_subperm⟩
  · rw [linearization, eventsOf_filter_keep]
    exact (h.fine t).filter_of_result hr
  · rw [linearization, eventsOf_filter_keep]
    exact (h.fine t).filter_length (h.sema.calm t)
  · obtain ⟨k, c, hk, hs, hpt⟩ := mem_points (List.mem_filter.mp hp).1
    rw [Nat.zero_add] at hk
    exact ⟨c, hk ▸ hs, hk ▸ World.result_of_point hpt⟩

end Linearization

/-- `Poll(1)` on goroutine `0` and `Put(5)` on goroutine `1`; the others would `Dispose`. -/
def pollPutCalls : ℕ → Call ℕ ℕ
  | 0 => .poll 1 false
  | 1 => .put [5]
  | _ => .dispose

/-- The `Poll` parks, the `Put` wakes it and waits, the `Poll` takes the item and signals, and
the `Put` returns. -/
def pollPutSched : List (ℕ × Bool) :=
  [(0, false), (0, false), (0, false), (1, false), (1, false), (1, false), (1, false), (0, false), (0, false),
    (1, false), (1, false), (1, false)]

theorem pollPutCalls_plain : ∀ t, (pollPutCalls t).Plain
  | 0 => by simp [pollPutCalls, Call.Plain]
  | 1 => by simp [pollPutCalls, Call.Plain]
  | _ + 2 => trivial

theorem pollPut_linearizable : (∀ t, (pollPutCalls t).Plain) ∧ Linearizable pollPutCalls pollPutSched :=
  ⟨pollPutCalls_plain, queue_linearizable pollPutCalls pollPutCalls_plain pollPutSched⟩

example : (linearization pollPutCalls pollPutSched).map (fun p => (p.1, p.2.1)) = [(4, 1), (7, 0)] := by decide

end WeedgePkg.Jobutils.Queue
