import WeedgePkg.RingBuffer

/-!
# `jobutils.Queue`

The blocking job queue as a transition system. Its state is the items, the waiting `Poll`s'
semaphores, the `disposed` flag, the holder of `q.lock`, and for every semaphore the one-slot
buffer of its `ready` channel and the counter of its `response` WaitGroup. A semaphore is
named by the `Poll` that made it. A step is a lock acquire or release, a channel send or
receive (a `select` takes one ready case), or a WaitGroup step. The accesses to the items and
the waiters that follow a step, done under the lock or inside a `Put`'s handshake, belong to
that step. A thread that cannot take its step (a held lock, an empty channel, a WaitGroup
above zero) stays where it is.
-/

namespace WeedgePkg.Jobutils

variable {τ α : Type}

/-- `waiters.remove(sema)` -/
def waitersRemove [DecidableEq τ] (sema : τ) (waiters : List τ) : List τ :=
  if waiters = [] then [] else waiters.filter (· ≠ sema)

/-- `items.get(number, returnItems)`: the first `number` items, and the rest. -/
def itemsGet (number : ℕ) (items : List α) : List α × List α := (items.take number, items.drop number)

/-- The search and the write of `PutOrUpdate`: the first item that `cmp` matches with `item`
is replaced, or `item` is appended. -/
def putOrUpdateItems (cmp : α → α → Bool) (item : α) (items : List α) : List α :=
  match items.findIdx? (fun old => cmp old item) with
  | some pos => items.set pos item
  | none => items ++ [item]

/-- `Queue`, with the state of every semaphore: `ready` is whether its channel holds a value,
`response` its WaitGroup counter. -/
structure Queue (τ α : Type) where
  waiters : List τ
  items : List α
  lock : Option τ
  disposed : Bool
  ready : τ → Bool
  response : τ → ℕ

/-- `New(hint)`; the capacity hint is not modelled. -/
def newQueue : Queue τ α := ⟨[], [], none, false, fun _ => false, fun _ => 0⟩

namespace Queue

/-- Where a `Put` or `PutOrUpdate` is: at its start, at `q.lock.Lock()`, at
`sema.response.Add(1)`, at the `select` that sends on `sema.ready`, at
`sema.response.Wait()`, at `q.lock.Unlock()` before returning `err`, or returned. -/
inductive PutPc (τ : Type) where
  | start
  | lock
  | add (sema : τ)
  | send (sema : τ)
  | wait (sema : τ)
  | unlock (err : Option QueueError)
  | done (err : Option QueueError)
  deriving DecidableEq, Repr

/-- Where a `Poll` is: at its start, at `q.lock.Lock()`, at `q.lock.Unlock()` before returning
or before waiting, at the `select` on `sema.ready` and the timeout, at
`sema.response.Done()` after taking `taken`, and on the timeout path at the `select` that
sends on `sema.ready`, at `q.lock.Lock()` and `q.lock.Unlock()` around
`q.waiters.remove(sema)`, or at `sema.response.Done()`. -/
inductive PollPc (α : Type) where
  | start
  | lock
  | unlock (taken : List α) (err : Option QueueError)
  | unlockWait
  | select
  | signal (taken : List α)
  | timeoutSend
  | timeoutLock
  | timeoutUnlock
  | timeoutDone
  | done (taken : List α) (err : Option QueueError)
  | panicked
  deriving DecidableEq, Repr

/-- Where a `Dispose` is: at `q.lock.Lock()`, at `waiter.response.Add(1)` and at the `select`
that sends on `waiter.ready` for the first of the waiters left, at the deferred
`q.lock.Unlock()`, or returned. -/
inductive DisposePc (τ α : Type) where
  | start
  | add (left : List τ)
  | send (left : List τ)
  | unlock (disposedItems : List α)
  | done (disposedItems : List α)
  deriving DecidableEq, Repr

/-- Where `ExecuteInParallel` is: at `q.lock.Lock()`, at `wg.Wait()`, at `q.lock.Unlock()`,
inside `q.Dispose()`, or returned. -/
inductive ExecPc (τ α : Type) where
  | start
  | wait
  | unlock
  | dispose (pc : DisposePc τ α)
  | done
  deriving DecidableEq, Repr

/-- What `ExecuteInParallel` shares with its workers: `todo`, the counter `done`, the items,
the counter of `wg`, and the indices `fn` has been called with, in order. -/
structure ParState (α : Type) where
  todo : ℕ
  done : ℤ
  items : List α
  wg : ℕ
  called : List ℕ
  deriving DecidableEq, Repr

/-- `todo, done := uint64(len(q.items)), int64(-1)` before the lock is taken. -/
def ParState.init : ParState α := ⟨0, -1, [], 0, []⟩

/-- Where a worker of `ExecuteInParallel` is: at `atomic.AddInt64(&done, 1)`, at
`fn(items[index])`, at `wg.Done()`, or returned. -/
inductive WorkerPc where
  | add
  | call (index : ℕ)
  | wgDone
  | done
  deriving DecidableEq, Repr

/-- A call and where its goroutine is. `Get(number)` is `Poll(number, 0)`, and `timed` is
`timeout > 0`. `ExecuteInParallel` starts `workers.length` goroutines, which run as
`worker owner`. -/
inductive Thread (τ α : Type) where
  | put (items : List α) (pc : PutPc τ)
  | putOrUpdate (cmp : α → α → Bool) (item : α) (pc : PutPc τ)
  | poll (number : ℤ) (timed : Bool) (pc : PollPc α)
  | dispose (pc : DisposePc τ α)
  | execute (workers : List τ) (pc : ExecPc τ α) (par : ParState α)
  | worker (owner : τ) (pc : WorkerPc)

variable [DecidableEq τ]

/-- `sema := q.waiters.get()` at the head of the waking loop: the next waiter's `Add(1)`, or
`Unlock` when there is none. -/
def wakeNext (q : Queue τ α) : Queue τ α × PutPc τ :=
  match q.waiters with
  | [] => (q, .unlock none)
  | sema :: rest => ({ q with waiters := rest }, .add sema)

/-- `if len(q.items) == 0 { break }` at the end of a turn of the waking loop. -/
def afterWake (q : Queue τ α) : Queue τ α × PutPc τ :=
  if q.items = [] then (q, .unlock none) else wakeNext q

/-- One step of `Put` or `PutOrUpdate` by goroutine `t`; `change` is what the call does to the
items under the lock. -/
def putStep (t : τ) (change : List α → List α) (q : Queue τ α) : PutPc τ → Queue τ α × PutPc τ
  | .start => (q, .lock)
  | .lock =>
    if q.lock = none then
      let q := { q with lock := some t }
      if q.disposed then (q, .unlock (some .disposed)) else wakeNext { q with items := change q.items }
    else (q, .lock)
  | .add sema => ({ q with response := Function.update q.response sema (q.response sema + 1) }, .send sema)
  | .send sema =>
    if q.ready sema then afterWake q
    else ({ q with ready := Function.update q.ready sema true }, .wait sema)
  | .wait sema => if q.response sema = 0 then afterWake q else (q, .wait sema)
  | .unlock err => ({ q with lock := none }, .done err)
  | .done err => (q, .done err)

/-- One step of `Poll(number, timeout)` by goroutine `t`, whose semaphore is named `t`;
`timeUp` is whether the timeout has passed. -/
def pollStep (t : τ) (number : ℤ) (timed timeUp : Bool) (q : Queue τ α) : PollPc α → Queue τ α × PollPc α
  | .start => (q, if number < 1 then .done [] none else .lock)
  | .lock =>
    if q.lock = none then
      let q := { q with lock := some t }
      if q.disposed then (q, .unlock [] (some .disposed))
      else if q.items = [] then
        ({ q with
            waiters := q.waiters ++ [t], ready := Function.update q.ready t false,
            response := Function.update q.response t 0 }, .unlockWait)
      else
        let (taken, rest) := itemsGet number.toNat q.items
        ({ q with items := rest }, .unlock taken none)
    else (q, .lock)
  | .unlock taken err => ({ q with lock := none }, .done taken err)
  | .unlockWait => ({ q with lock := none }, .select)
  | .select =>
    if timed && timeUp then (q, .timeoutSend)
    else if q.ready t then
      -- `case <-sema.ready:` inside the lock of the `Put` that sent
      let q := { q with ready := Function.update q.ready t false }
      if q.disposed then (q, .done [] (some .disposed))
      else
        let (taken, rest) := itemsGet number.toNat q.items
        ({ q with items := rest }, .signal taken)
    else (q, .select)
  | .signal taken =>
    if q.response t = 0 then (q, .panicked)
    else ({ q with response := Function.update q.response t (q.response t - 1) }, .done taken none)
  | .timeoutSend =>
    if q.ready t then (q, .timeoutDone)
    else ({ q with ready := Function.update q.ready t true }, .timeoutLock)
  | .timeoutLock =>
    if q.lock = none then ({ q with lock := some t, waiters := waitersRemove t q.waiters }, .timeoutUnlock)
    else (q, .timeoutLock)
  | .timeoutUnlock => ({ q with lock := none }, .done [] (some .timeout))
  | .timeoutDone =>
    if q.response t = 0 then (q, .panicked)
    else ({ q with response := Function.update q.response t (q.response t - 1) }, .done [] (some .timeout))
  | .done taken err => (q, .done taken err)
  | .panicked => (q, .panicked)

/-- The end of `Dispose`: the items are returned and the items and the waiters dropped. -/
def disposeFinish (q : Queue τ α) : Queue τ α × DisposePc τ α :=
  ({ q with items := [], waiters := [] }, .unlock q.items)

def disposeStep (t : τ) (q : Queue τ α) : DisposePc τ α → Queue τ α × DisposePc τ α
  | .start =>
    if q.lock = none then
      let q := { q with lock := some t, disposed := true }
      if q.waiters = [] then disposeFinish q else (q, .add q.waiters)
    else (q, .start)
  | .add [] => disposeFinish q
  | .add (w :: left) =>
    ({ q with response := Function.update q.response w (q.response w + 1) }, .send (w :: left))
  | .send [] => disposeFinish q
  | .send (w :: left) =>
    let q := if q.ready w then q else { q with ready := Function.update q.ready w true }
    if left = [] then disposeFinish q else (q, .add left)
  | .unlock d => ({ q with lock := none }, .done d)
  | .done d => (q, .done d)

/-- One step of a worker. The comparison `index >= int64(todo)` is local, so it belongs to
the atomic add. The write `items[index] = 0` is not modelled: no goroutine reads that index
again, and `Dispose` drops the items. -/
def workerStep (par : ParState α) : WorkerPc → ParState α × WorkerPc
  | .add =>
    let index := par.done + 1
    ({ par with done := index }, if (par.todo : ℤ) ≤ index then .wgDone else .call index.toNat)
  | .call index => ({ par with called := par.called ++ [index] }, .add)
  | .wgDone => ({ par with wg := par.wg - 1 }, .done)
  | .done => (par, .done)

/-- One step of `ExecuteInParallel(q, fn)` by goroutine `t`; `wg.Add` and the `go` statements
follow the lock in one step, as no worker runs before them. -/
def execStep (t : τ) (workers : List τ) (q : Queue τ α) (par : ParState α) :
    ExecPc τ α → Queue τ α × ExecPc τ α × ParState α
  | .start =>
    if q.lock = none then
      let q := { q with lock := some t }
      -- `if todo == 0 { return }` returns with `q.lock` still held
      if q.items = [] then (q, .done, par)
      else (q, .wait, ⟨q.items.length, -1, q.items, workers.length, []⟩)
    else (q, .start, par)
  | .wait => (q, if par.wg = 0 then .unlock else .wait, par)
  | .unlock => ({ q with lock := none }, .dispose .start, par)
  | .dispose pc =>
    match disposeStep t q pc with
    | (q, .done _) => (q, .done, par)
    | (q, pc) => (q, .dispose pc, par)
  | .done => (q, .done, par)

structure World (τ α : Type) where
  q : Queue τ α
  threads : τ → Thread τ α

inductive Call (τ α : Type) where
  | put (items : List α)
  | putOrUpdate (cmp : α → α → Bool) (item : α)
  | poll (number : ℤ) (timed : Bool)
  | dispose
  | executeInParallel (workers : List τ)
  | worker (owner : τ)

def Call.thread : Call τ α → Thread τ α
  | .put items => .put items .start
  | .putOrUpdate cmp item => .putOrUpdate cmp item .start
  | .poll number timed => .poll number timed .start
  | .dispose => .dispose .start
  | .executeInParallel workers => .execute workers .start .init
  | .worker owner => .worker owner .add

namespace World

def init (q : Queue τ α) (calls : τ → Call τ α) : World τ α := ⟨q, fun t => (calls t).thread⟩

/-- One step of goroutine `t`; `choice` is whether a timed `Poll`'s timeout has passed. -/
def step (w : World τ α) (t : τ) (choice : Bool) : World τ α :=
  match w.threads t with
  | .put items pc =>
    -- `if len(items) == 0 { return nil }` comes before the lock
    if pc = .start ∧ items = [] then ⟨w.q, Function.update w.threads t (.put items (.done none))⟩
    else
      let (q, pc) := putStep t (· ++ items) w.q pc
      ⟨q, Function.update w.threads t (.put items pc)⟩
  | .putOrUpdate cmp item pc =>
    let (q, pc) := putStep t (putOrUpdateItems cmp item) w.q pc
    ⟨q, Function.update w.threads t (.putOrUpdate cmp item pc)⟩
  | .poll number timed pc =>
    let (q, pc) := pollStep t number timed choice w.q pc
    ⟨q, Function.update w.threads t (.poll number timed pc)⟩
  | .dispose pc =>
    let (q, pc) := disposeStep t w.q pc
    ⟨q, Function.update w.threads t (.dispose pc)⟩
  | .execute workers pc par =>
    let (q, pc, par) := execStep t workers w.q par pc
    ⟨q, Function.update w.threads t (.execute workers pc par)⟩
  | .worker owner pc =>
    -- a worker runs between its `go` statement and `wg.Wait()` returning
    match w.threads owner with
    | .execute workers .wait par =>
      let (par, pc) := workerStep par pc
      ⟨w.q, Function.update (Function.update w.threads owner (.execute workers .wait par)) t (.worker owner pc)⟩
    | _ => w

def run (w : World τ α) : List (τ × Bool) → World τ α
  | [] => w
  | (t, choice) :: sched => (w.step t choice).run sched

end World

/-! ## A lock that is never released

A goroutine that takes `q.lock` goes on to `q.lock.Unlock()` without taking it again, except
for an `ExecuteInParallel` that found no items: it returns holding the lock. While such a call
holds the lock and no other goroutine is on its way to an `Unlock`, every step keeps it so. -/

def PutPc.beforeUnlock : PutPc τ → Bool
  | .add _ | .send _ | .wait _ | .unlock _ => true
  | _ => false

def PollPc.beforeUnlock : PollPc α → Bool
  | .unlock _ _ | .unlockWait | .timeoutUnlock => true
  | _ => false

def DisposePc.beforeUnlock : DisposePc τ α → Bool
  | .add _ | .send _ | .unlock _ => true
  | _ => false

def ExecPc.beforeUnlock : ExecPc τ α → Bool
  | .wait | .unlock => true
  | .dispose pc => pc.beforeUnlock
  | _ => false

/-- Whether a goroutine is on its way to `q.lock.Unlock()`. -/
def Thread.beforeUnlock : Thread τ α → Bool
  | .put _ pc | .putOrUpdate _ _ pc => pc.beforeUnlock
  | .poll _ _ pc => pc.beforeUnlock
  | .dispose pc => pc.beforeUnlock
  | .execute _ pc _ => pc.beforeUnlock
  | .worker _ _ => false

section Locked

variable {t : τ} {q : Queue τ α}

theorem putStep_locked (change : List α → List α) {pc : PutPc τ} (hpc : pc.beforeUnlock = false)
    (hl : q.lock ≠ none) :
    (putStep t change q pc).1.lock = q.lock ∧ (putStep t change q pc).2.beforeUnlock = false := by
  cases pc <;> simp_all [putStep, PutPc.beforeUnlock]

theorem pollStep_locked (number : ℤ) (timed timeUp : Bool) {pc : PollPc α} (hpc : pc.beforeUnlock = false)
    (hl : q.lock ≠ none) :
    (pollStep t number timed timeUp q pc).1.lock = q.lock ∧
      (pollStep t number timed timeUp q pc).2.beforeUnlock = false := by
  cases pc with
  | unlock _ _ | unlockWait | timeoutUnlock => simp [PollPc.beforeUnlock] at hpc
  | done _ _ | panicked => exact ⟨rfl, rfl⟩
  | _ =>
    simp only [pollStep]
    split_ifs <;> simp_all [PollPc.beforeUnlock]

theorem disposeStep_locked {pc : DisposePc τ α} (hpc : pc.beforeUnlock = false) (hl : q.lock ≠ none) :
    (disposeStep t q pc).1.lock = q.lock ∧ (disposeStep t q pc).2.beforeUnlock = false := by
  cases pc <;> simp_all [disposeStep, DisposePc.beforeUnlock]

theorem execStep_locked (workers : List τ) (par : ParState α) {pc : ExecPc τ α} (hpc : pc.beforeUnlock = false)
    (hl : q.lock ≠ none) :
    (execStep t workers q par pc).1.lock = q.lock ∧ (execStep t workers q par pc).2.1.beforeUnlock = false := by
  cases pc with
  | start => simp [execStep, hl, ExecPc.beforeUnlock]
  | wait => simp [ExecPc.beforeUnlock] at hpc
  | unlock => simp [ExecPc.beforeUnlock] at hpc
  | dispose pc =>
    -- inside `Dispose` only its first and last places are outside the lock
    cases pc with
    | start => simp [execStep, disposeStep, hl, ExecPc.beforeUnlock, DisposePc.beforeUnlock]
    | done d => simp [execStep, disposeStep, ExecPc.beforeUnlock]
    | _ => simp [ExecPc.beforeUnlock, DisposePc.beforeUnlock] at hpc
  | done => simp [execStep, ExecPc.beforeUnlock]

end Locked

/-- `q.lock` is held by `t0`, an `ExecuteInParallel` that has returned, and no other goroutine
is on its way to an `Unlock`. -/
structure LockedForever (t0 : τ) (w : World τ α) : Prop where
  lock_eq : w.q.lock = some t0
  returned : ∃ workers par, w.threads t0 = .execute workers .done par
  others : ∀ t, t ≠ t0 → (w.threads t).beforeUnlock = false

namespace LockedForever

variable {t0 : τ} {w : World τ α}

/-- A step of another goroutine that keeps the lock and leaves that goroutine outside it. -/
theorem update (h : LockedForever t0 w) {t : τ} (ht : t ≠ t0) {q : Queue τ α} (hq : q.lock = w.q.lock)
    {th : Thread τ α} (hth : th.beforeUnlock = false) : LockedForever t0 ⟨q, Function.update w.threads t th⟩ := by
  obtain ⟨workers, par, hret⟩ := h.returned
  refine ⟨hq.trans h.lock_eq, ⟨workers, par, ?_⟩, fun t' ht' => ?_⟩
  · show Function.update w.threads t th t0 = _
    rw [Function.update_of_ne (Ne.symm ht)]
    exact hret
  · show (Function.update w.threads t th t').beforeUnlock = false
    by_cases e : t' = t
    · subst e
      rw [Function.update_self]
      exact hth
    · rw [Function.update_of_ne e]
      exact h.others t' ht'

theorem step (h : LockedForever t0 w) (t : τ) (c : Bool) : LockedForever t0 (w.step t c) := by
  have hl : w.q.lock ≠ none := by simp [h.lock_eq]
  by_cases ht : t = t0
  · -- the returned call's step changes nothing
    subst ht
    obtain ⟨workers, par, hret⟩ := h.returned
    have hw : w.step t c = w := by
      simp only [World.step, hret, execStep]
      rw [← hret, Function.update_eq_self]
    rw [hw]
    exact h
  · have hout := h.others t ht
    unfold World.step
    split
    · rename_i items pc hth
      rw [hth] at hout
      split
      · exact h.update ht rfl rfl
      · obtain ⟨hq, hpc⟩ := putStep_locked (t := t) (· ++ items) hout hl
        exact h.update ht hq hpc
    · rename_i cmp item pc hth
      rw [hth] at hout
      obtain ⟨hq, hpc⟩ := putStep_locked (t := t) (putOrUpdateItems cmp item) hout hl
      exact h.update ht hq hpc
    · rename_i number timed pc hth
      rw [hth] at hout
      obtain ⟨hq, hpc⟩ := pollStep_locked (t := t) number timed c hout hl
      exact h.update ht hq hpc
    · rename_i pc hth
      rw [hth] at hout
      obtain ⟨hq, hpc⟩ := disposeStep_locked (t := t) hout hl
      exact h.update ht hq hpc
    · rename_i workers pc par hth
      rw [hth] at hout
      obtain ⟨hq, hpc⟩ := execStep_locked (t := t) workers par hout hl
      exact h.update ht hq hpc
    · -- a worker runs only while its owner waits, and a waiting owner would be on its way to `Unlock`
      rename_i owner pc hth
      split
      · rename_i workers par howner
        have howner_ne : owner ≠ t0 := by
          rintro rfl
          obtain ⟨_, _, hret⟩ := h.returned
          rw [hret] at howner
          cases howner
        have := h.others owner howner_ne
        rw [howner] at this
        cases this
      · exact h
end LockedForever

theorem LockedForever.run {t0 : τ} {w : World τ α} (h : LockedForever t0 w) :
    ∀ sched, LockedForever t0 (w.run sched)
  | [] => h
  | (t, c) :: sched => (h.step t c).run sched

/-- A step of another goroutine leaves goroutine `t` where it is, unless `t` waits for
workers, whose steps write the state it shares with them. -/
theorem World.step_other (w : World τ α) {t t' : τ} (c : Bool) (h : t ≠ t')
    (hno : ∀ workers par, w.threads t ≠ .execute workers .wait par) :
    (w.step t' c).threads t = w.threads t := by
  unfold World.step
  split
  · split <;> simp [Function.update_of_ne h]
  · simp [Function.update_of_ne h]
  · simp [Function.update_of_ne h]
  · simp [Function.update_of_ne h]
  · simp [Function.update_of_ne h]
  · split
    · rename_i owner _ _ _ workers par howner
      have hown : t ≠ owner := by
        rintro rfl
        exact hno workers par howner
      simp [Function.update_of_ne h, Function.update_of_ne hown]
    · rfl

/-- Goroutine `t` is in a `Put(items)` that has not taken the lock. -/
def PutWaiting (t : τ) (items : List α) (w : World τ α) : Prop :=
  w.threads t = .put items .start ∨ w.threads t = .put items .lock

theorem LockedForever.putWaiting_step {t0 t : τ} {items : List α} {w : World τ α} (h : LockedForever t0 w)
    (hp : PutWaiting t items w) (hitems : items ≠ []) (t' : τ) (c : Bool) : PutWaiting t items (w.step t' c) := by
  by_cases e : t = t'
  · -- the `Put`'s own step reaches `Lock()` and stays there
    subst e
    have hl : w.q.lock ≠ none := by simp [h.lock_eq]
    rcases hp with hs | hw
    · right
      simp [World.step, hs, hitems, putStep]
    · right
      simp [World.step, hw, putStep, hl]
  · have hno : ∀ workers par, w.threads t ≠ .execute workers .wait par := by
      rintro workers par hx
      rcases hp with hs | hw
      · rw [hs] at hx
        cases hx
      · rw [hw] at hx
        cases hx
    rw [PutWaiting, World.step_other w c e hno]
    exact hp

/-- While the lock is never released, a `Put` of some items never returns. -/
theorem LockedForever.putWaiting_run {t0 t : τ} {items : List α} {w : World τ α} (h : LockedForever t0 w)
    (hp : PutWaiting t items w) (hitems : items ≠ []) : ∀ sched, PutWaiting t items (w.run sched)
  | [] => hp
  | (t', c) :: sched => (h.step t' c).putWaiting_run (h.putWaiting_step hp hitems t' c) hitems sched

end Queue

open Queue

/-- `Dispose()`, `Put()` with no items, and `Put(7)` on goroutines `0`, `1` and `2`. -/
def disposeThenPuts : ℕ → Call ℕ ℕ
  | 0 => .dispose
  | 1 => .put []
  | _ => .put [7]

/-- `Dispose` runs to its return, then each `Put` does. -/
def disposeThenPutsRun : World ℕ ℕ :=
  (World.init newQueue disposeThenPuts).run [(0, false), (0, false), (1, false), (2, false), (2, false), (2, false)]

theorem put_empty_after_dispose :
    disposeThenPutsRun.q.disposed = true ∧ disposeThenPutsRun.q.lock = none ∧
      disposeThenPutsRun.threads 0 = .dispose (.done []) ∧ disposeThenPutsRun.threads 1 = .put [] (.done none) ∧
      disposeThenPutsRun.threads 2 = .put [7] (.done (some .disposed)) :=
  ⟨by decide, by decide, rfl, rfl, rfl⟩

/-- `ExecuteInParallel` on goroutine `0`, with its worker on every goroutine from `2` on, and
`Put(7)` on goroutine `1`. -/
def executeThenPut : ℕ → Call ℕ ℕ
  | 0 => .executeInParallel [2]
  | 1 => .put [7]
  | _ => .worker 0

/-- `ExecuteInParallel` on a new queue, run to its return. -/
def executeEmptyRun : World ℕ ℕ := (World.init newQueue executeThenPut).run [(0, false)]

theorem executeInParallel_empty_keeps_lock :
    executeEmptyRun.threads 0 = .execute [2] .done .init ∧ executeEmptyRun.q.lock = some 0 ∧
      executeEmptyRun.q.disposed = false ∧
      ∀ sched, (executeEmptyRun.run sched).threads 1 = .put [7] .start ∨
        (executeEmptyRun.run sched).threads 1 = .put [7] .lock := by
  have hlocked : LockedForever 0 executeEmptyRun := by
    refine ⟨rfl, ⟨[2], .init, rfl⟩, fun t ht => ?_⟩
    match t, ht with
    | 1, _ => rfl
    | n + 2, _ => rfl
  exact ⟨rfl, rfl, rfl, hlocked.putWaiting_run (.inl rfl) (by simp)⟩

end WeedgePkg.Jobutils
