import WeedgePkg.JobRunner
import Mathlib.Algebra.BigOperators.Group.Finset.Basic
import Mathlib.Algebra.Order.BigOperators.Group.Finset
import Mathlib.Data.Multiset.OrderedMonoid
import Mathlib.Logic.Relation

/-!
# The lifecycle of a job object

Between `acquireJob` and `releaseJob` a job's state only moves forward, along
`Pending → Running → {Finished, Failed, Cancelled}` or `Pending → Cancelling → Cancelled`
(`JobState.Step`). That rests on each job object being held by one place at a time: the
`sync.Pool`, one queue, or one goroutine, which holds it from `newJob` to the `Put` that
appends it, or from the `Get` that takes it to the `releaseJob` after its function. `JobsOk`
says so, and what each place knows of the state of the jobs it holds; every step keeps it,
whatever the schedule and whatever the jobs' functions return.
-/

namespace WeedgePkg.Jobutils

namespace JobState

/-- One move of a job's state. -/
inductive Step : JobState → JobState → Prop
  | start : Step .pending .running
  | cancel : Step .pending .cancelling
  | skip : Step .cancelling .cancelled
  | finish : Step .running .finished
  | fail : Step .running .failed
  | abort : Step .running .cancelled

/-- The states a job reaches by its moves. -/
def Reaches : JobState → JobState → Prop := Relation.ReflTransGen Step

/-- Not started: `Pending`, or `Cancelling` after a `Cancel`. -/
def Waiting (s : JobState) : Prop := s = .pending ∨ s = .cancelling

/-- `Cancelled`, `Finished` or `Failed`: what `IsComplete` reports. -/
def Ended (s : JobState) : Prop := s = .cancelled ∨ s = .finished ∨ s = .failed

theorem Step.ne_pending {s s' : JobState} (h : Step s s') : s' ≠ .pending := by
  cases h <;> decide

theorem Step.not_ended {s s' : JobState} (h : Step s s') : ¬s.Ended := by
  cases h <;> simp [Ended]

theorem Reaches.of_cancelling {s : JobState} (h : Reaches .cancelling s) : s = .cancelling ∨ s = .cancelled := by
  induction h with
  | refl => exact .inl rfl
  | tail _ hstep ih =>
    rcases ih with rfl | rfl
    · cases hstep; exact .inr rfl
    · cases hstep

theorem Reaches.of_ended {s s' : JobState} (h : Reaches s s') (hs : s.Ended) : s' = s := by
  induction h with
  | refl => rfl
  | tail _ hstep ih => subst ih; exact absurd hs hstep.not_ended

/-- A job that has left `Pending` never returns to it, so its function is not started again. -/
theorem Reaches.ne_pending {s s' : JobState} (h : Reaches s s') (hs : s ≠ .pending) : s' ≠ .pending := by
  induction h with
  | refl => exact hs
  | tail _ hstep _ => exact hstep.ne_pending

end JobState

def Job.isNotComplete (job : Job) : Bool :=
  job.state = .pending || job.state = .running || job.state = .cancelling

def Job.isComplete (job : Job) : Bool := !job.isNotComplete

theorem Job.isComplete_iff (job : Job) : job.isComplete = true ↔ job.state.Ended := by
  cases h : job.state <;> simp [isComplete, isNotComplete, h, JobState.Ended]

namespace Queue

variable {τ α : Type}

/-- The items a `Poll` has taken from the queue and not yet returned. -/
def PollPc.taken : PollPc α → List α
  | .unlock taken _ => taken
  | .signal taken => taken
  | .done taken _ => taken
  | _ => []

theorem itemsGet_subperm (number : ℕ) (items : List α) :
    ((itemsGet number items).2 ++ (itemsGet number items).1).Subperm items := by
  rw [itemsGet]
  exact (List.perm_append_comm.trans (by rw [List.take_append_drop])).subperm

variable [DecidableEq τ]

/-- A `Poll` step moves items from the queue to what it has taken, or drops what it took
(a `Done()` that panics). -/
theorem pollStep_items (t : τ) (number : ℤ) (timed timeUp : Bool) (q : Queue τ α) (pc : PollPc α) :
    ((pollStep t number timed timeUp q pc).1.items : Multiset α) + (pollStep t number timed timeUp q pc).2.taken ≤
      q.items + pc.taken := by
  cases pc <;> simp only [pollStep] <;> (repeat' split) <;>
    simp [PollPc.taken, itemsGet_subperm, List.Sublist.subperm]

theorem disposeStep_items (t : τ) (q : Queue τ α) (pc : DisposePc τ α) :
    ((disposeStep t q pc).1.items : Multiset α) ≤ q.items := by
  cases pc <;> simp only [disposeStep, disposeFinish] <;> (repeat' split) <;> simp

end Queue

/-! ## Where the job objects are -/

/-- The job that `q.Put(job)` holds until it appends it under the queue's lock. -/
def ClientPc.jobs : ClientPc → List ℕ
  | .put _ j .start => [j]
  | .put _ j .lock => [j]
  | _ => []

/-- The jobs a worker has taken from its queue and not yet released or dropped. -/
def JobWorkerPc.jobs : JobWorkerPc → List ℕ
  | .get pc => pc.taken
  | .next jobs => jobs
  | .call j rest => j :: rest
  | .release j rest => j :: rest
  | .returned => []

section Threads

variable {ν : Type}

def RThread.jobs : RThread ν → List ℕ
  | .idle => []
  | .client _ _ pc => pc.jobs
  | .worker _ pc => pc.jobs

/-- The jobs a client keeps for its `Cancel` calls. -/
def RThread.handles : RThread ν → List ℕ
  | .client _ handles _ => handles
  | _ => []

/-- What a worker knows of the jobs it holds: those not started are waiting, the one in
`job.fun()` is running, and the one at `if job.needRelease` has ended. -/
def JobWorkerPc.Ok (jobs : ℕ → Job) : JobWorkerPc → Prop
  | .get pc => ∀ k ∈ pc.taken, (jobs k).state.Waiting
  | .next js => ∀ k ∈ js, (jobs k).state.Waiting
  | .call j rest => (jobs j).state = .running ∧ ∀ k ∈ rest, (jobs k).state.Waiting
  | .release j rest => (jobs j).state.Ended ∧ ∀ k ∈ rest, (jobs k).state.Waiting
  | .returned => True

/-- A client's handles are jobs already made that no worker releases; the job of its `Put`
is waiting. -/
def RThread.Ok (made : ℕ) (jobs : ℕ → Job) : RThread ν → Prop
  | .idle => True
  | .client _ handles pc =>
    (∀ j ∈ handles, j < made ∧ (jobs j).needRelease = false) ∧ ∀ k ∈ pc.jobs, (jobs k).state.Waiting
  | .worker _ pc => pc.Ok jobs

theorem RThread.client_ne_idle {calls : List (RunnerCall ν)} {handles : List ℕ} {pc : ClientPc} :
    (RThread.client calls handles pc : RThread ν) ≠ .idle := by
  simp

theorem RThread.worker_ne_idle {qi : ℕ} {pc : JobWorkerPc} : (RThread.worker qi pc : RThread ν) ≠ .idle := by
  simp

end Threads

namespace JobState

def Kept (s s' : JobState) : Prop := s' = s ∨ s = .pending ∧ s' = .cancelling

theorem Kept.refl (s : JobState) : Kept s s := .inl rfl

theorem Kept.eq {s s' : JobState} (h : Kept s s') (hs : s ≠ .pending) : s' = s :=
  h.resolve_right fun h' => hs h'.1

theorem Waiting.kept {s s' : JobState} (h : s.Waiting) (hk : Kept s s') : s'.Waiting := by
  rcases hk with rfl | ⟨-, rfl⟩
  · exact h
  · exact .inr rfl

theorem Ended.ne_pending {s : JobState} (h : s.Ended) : s ≠ .pending := by
  rcases h with rfl | rfl | rfl <;> decide

theorem Ended.ne_running {s : JobState} (h : s.Ended) : s ≠ .running := by
  rcases h with rfl | rfl | rfl <;> decide

end JobState

/-- Moving the states of the jobs a goroutine holds only from `Pending` to `Cancelling`, and
keeping `needRelease` of its handles, keeps what it knows of them. -/
theorem RThread.Ok.congr {ν : Type} {th : RThread ν} {made made' : ℕ} {jobs jobs' : ℕ → Job}
    (h : th.Ok made jobs) (hmade : made ≤ made')
    (hstate : ∀ k ∈ th.jobs, JobState.Kept (jobs k).state (jobs' k).state)
    (hneed : ∀ k ∈ th.handles, (jobs' k).needRelease = (jobs k).needRelease) : th.Ok made' jobs' := by
  cases th with
  | idle => trivial
  | client calls handles pc =>
    refine ⟨fun j hj => ?_, fun k hk => (h.2 k hk).kept (hstate k hk)⟩
    obtain ⟨hlt, hnr⟩ := h.1 j hj
    exact ⟨by omega, (hneed j hj).trans hnr⟩
  | worker qi pc =>
    cases pc with
    | get pc => exact fun k hk => (h k hk).kept (hstate k hk)
    | next js => exact fun k hk => (h k hk).kept (hstate k hk)
    | call j rest =>
      have hj := (hstate j List.mem_cons_self).eq (by rw [h.1]; decide)
      exact ⟨hj.trans h.1, fun k hk => (h.2 k hk).kept (hstate k (List.mem_cons_of_mem _ hk))⟩
    | release j rest =>
      have hj := (hstate j List.mem_cons_self).eq h.1.ne_pending
      exact ⟨hj ▸ h.1, fun k hk => (h.2 k hk).kept (hstate k (List.mem_cons_of_mem _ hk))⟩
    | returned => trivial

section Put

variable {τ α : Type}

theorem coe_append_singleton (l : List ℕ) (j : ℕ) : ((l ++ [j] : List ℕ) : Multiset ℕ) = l + {j} := by
  rw [← Multiset.coe_singleton, Multiset.coe_add]

/-- The runner's `q.Put(job)` moves its job into the queue's items under the lock, or drops it
when the queue is disposed. -/
theorem putStep_items (t qi j : ℕ) (q : Queue ℕ ℕ) (pc : Queue.PutPc ℕ) :
    ((Queue.putStep t (· ++ [j]) q pc).1.items : Multiset ℕ) +
        (ClientPc.put qi j (Queue.putStep t (· ++ [j]) q pc).2).jobs ≤ q.items + (ClientPc.put qi j pc).jobs := by
  cases pc <;> simp only [Queue.putStep, Queue.afterWake, Queue.wakeNext] <;> (repeat' split) <;>
    simp [ClientPc.jobs, coe_append_singleton]

end Put

namespace Runner

variable {ν : Type}

/-- The job objects in `jobPool` and in the queues. -/
def held (r : Runner ν) : Multiset ℕ := r.jobPool + (r.queues.map fun q => (q.items : Multiset ℕ)).sum

theorem queues_set_sum (qs : List (Queue ℕ ℕ)) (qi : ℕ) (q : Queue ℕ ℕ) :
    ((qs.set qi q).map fun q => (q.items : Multiset ℕ)).sum + (qs.getD qi newQueue).items ≤
      (qs.map fun q => (q.items : Multiset ℕ)).sum + q.items := by
  induction qs generalizing qi with
  | nil => simp [newQueue]
  | cons a qs ih =>
    cases qi with
    | zero =>
      simp only [List.set_cons_zero, List.map_cons, List.sum_cons, List.getD_cons_zero]
      exact le_of_eq (by ac_rfl)
    | succ qi =>
      simp only [List.set_cons_succ, List.map_cons, List.sum_cons, List.getD_cons_succ, add_assoc]
      exact add_le_add le_rfl (ih qi)

/-- A step of queue `qi` that takes its items to `q` and moves items between the queue and a
goroutine (`a` before, `b` after) moves them between the runner and the goroutine. -/
theorem held_setQueue (r : Runner ν) (qi : ℕ) (q : Queue ℕ ℕ) {a b : Multiset ℕ}
    (h : (q.items : Multiset ℕ) + b ≤ (r.queue qi).items + a) : (r.setQueue qi q).held + b ≤ r.held + a := by
  have hs := queues_set_sum r.queues qi q
  refine (Multiset.add_le_add_iff_right (u := ((r.queue qi).items : Multiset ℕ))).1 ?_
  calc (r.setQueue qi q).held + b + (r.queue qi).items
      = r.jobPool + ((((r.queues.set qi q).map fun q => (q.items : Multiset ℕ)).sum +
          (r.queues.getD qi newQueue).items) + b) := by simp only [held, setQueue, queue]; ac_rfl
    _ ≤ r.jobPool + ((r.queues.map fun q => (q.items : Multiset ℕ)).sum + q.items + b) :=
        add_le_add le_rfl (add_le_add hs le_rfl)
    _ ≤ r.jobPool + ((r.queues.map fun q => (q.items : Multiset ℕ)).sum + ((r.queue qi).items + a)) := by
        rw [add_assoc]; exact add_le_add le_rfl (add_le_add le_rfl h)
    _ = r.held + a + (r.queue qi).items := by simp only [held]; ac_rfl

@[simp] theorem setJob_jobs (r : Runner ν) (j : ℕ) (job : Job) :
    (r.setJob j job).jobs = Function.update r.jobs j job := rfl

@[simp] theorem setJob_held (r : Runner ν) (j : ℕ) (job : Job) : (r.setJob j job).held = r.held := rfl

theorem mem_held_of_pool {r : Runner ν} {j : ℕ} (hj : j ∈ r.jobPool) : j ∈ r.held :=
  Multiset.mem_add.2 (.inl (Multiset.mem_coe.2 hj))

theorem mem_held_of_queue {r : Runner ν} {q : Queue ℕ ℕ} (hq : q ∈ r.queues) {j : ℕ} (hj : j ∈ q.items) :
    j ∈ r.held :=
  Multiset.mem_add.2 (.inr (Multiset.mem_of_le (List.le_sum_of_mem (List.mem_map_of_mem hq)) (Multiset.mem_coe.2 hj)))

theorem acquireJob_cases (r : Runner ν) (pick : Option ℕ) :
    ((r.acquireJob pick).1 ::ₘ ((r.acquireJob pick).2.jobPool : Multiset ℕ) = r.jobPool ∧
        (r.acquireJob pick).2.made = r.made ∧ (r.acquireJob pick).2.jobs = r.jobs) ∨
      ((r.acquireJob pick).1 = r.made ∧ (r.acquireJob pick).2.jobPool = r.jobPool ∧
        (r.acquireJob pick).2.made = r.made + 1 ∧
        (r.acquireJob pick).2.jobs = Function.update r.jobs r.made ⟨.pending, none, false⟩) := by
  unfold acquireJob
  split
  · split
    · rename_i hk
      refine .inl ⟨?_, rfl, rfl⟩
      rw [List.getD_eq_getElem _ _ hk, Multiset.cons_coe]
      exact Multiset.coe_eq_coe.2 (List.getElem_cons_eraseIdx_perm hk)
    · exact .inr ⟨rfl, rfl, rfl, rfl⟩
  · exact .inr ⟨rfl, rfl, rfl, rfl⟩

theorem acquireJob_queues (r : Runner ν) (pick : Option ℕ) : (r.acquireJob pick).2.queues = r.queues := by
  unfold acquireJob; split
  · split <;> rfl
  · rfl

theorem mem_queue {r : Runner ν} {qi k : ℕ} (hk : k ∈ (r.queue qi).items) : ∃ q ∈ r.queues, k ∈ q.items := by
  rw [queue, List.getD_eq_getElem?_getD] at hk
  cases hq : r.queues[qi]? with
  | none => simp [hq, newQueue] at hk
  | some q => rw [hq, Option.getD_some] at hk; exact ⟨q, List.mem_of_getElem? hq, hk⟩

end Runner

namespace RunnerWorld

variable {ν : Type}

/-- The job objects of the pool, of the queues and of the goroutines. -/
def held (w : RunnerWorld ν) : Multiset ℕ :=
  w.runner.held + ∑ t ∈ Finset.range w.next, ((w.threads t).jobs : Multiset ℕ)

def others (w : RunnerWorld ν) (t : ℕ) : Multiset ℕ :=
  ∑ s ∈ (Finset.range w.next).erase t, ((w.threads s).jobs : Multiset ℕ)

theorem held_eq (w : RunnerWorld ν) {t : ℕ} (ht : t < w.next) :
    w.held = w.runner.held + (w.threads t).jobs + w.others t := by
  rw [held, others, add_assoc,
    Finset.add_sum_erase _ (fun s => ((w.threads s).jobs : Multiset ℕ)) (Finset.mem_range.2 ht)]

theorem others_update (w : RunnerWorld ν) (t : ℕ) (th : RThread ν) (r : Runner ν) :
    ({ w.setThread t th with runner := r } : RunnerWorld ν).others t = w.others t :=
  Finset.sum_congr rfl fun s hs => by
    simp only [setThread, Function.update_of_ne (Finset.ne_of_mem_erase hs)]

theorem held_update (w : RunnerWorld ν) {t : ℕ} (ht : t < w.next) (th : RThread ν) (r : Runner ν) :
    ({ w.setThread t th with runner := r } : RunnerWorld ν).held = r.held + th.jobs + w.others t := by
  show r.held + ∑ s ∈ Finset.range w.next, ((Function.update w.threads t th s).jobs : Multiset ℕ) = _
  rw [← Finset.add_sum_erase _ _ (Finset.mem_range.2 ht), Function.update_self, add_assoc]
  exact congrArg (r.held + ·) (congrArg ((th.jobs : Multiset ℕ) + ·) (others_update w t th r))

/-- Each job object is held by one place at most: the pool, a queue, or a goroutine; what
each place knows of the state of the jobs it holds; and the job objects not made yet are
pending. -/
structure JobsOk (w : RunnerWorld ν) : Prop where
  idle : ∀ t, w.next ≤ t → w.threads t = .idle
  nodup : w.held.Nodup
  held_lt : ∀ j ∈ w.held, j < w.runner.made
  fresh : ∀ j, w.runner.made ≤ j → (w.runner.jobs j).state = .pending
  pool : ∀ j ∈ w.runner.jobPool, (w.runner.jobs j).state = .pending ∧ (w.runner.jobs j).needRelease = true
  queued : ∀ q ∈ w.runner.queues, ∀ j ∈ q.items, (w.runner.jobs j).state.Waiting
  threads : ∀ t, (w.threads t).Ok w.runner.made w.runner.jobs

/-- A step moves each job's state by one `Step` at most, unless it puts the job back in the
pool, which it does only when `needRelease` is on. -/
def Advances (w w' : RunnerWorld ν) : Prop :=
  ∀ j, (w'.runner.jobs j).state = (w.runner.jobs j).state ∨
    JobState.Step (w.runner.jobs j).state (w'.runner.jobs j).state ∨
    w'.runner.jobPool = j :: w.runner.jobPool ∧ (w.runner.jobs j).needRelease = true

theorem Advances.of_state {w w' : RunnerWorld ν} (h : ∀ j, (w'.runner.jobs j).state = (w.runner.jobs j).state) :
    Advances w w' :=
  fun j => .inl (h j)

theorem Advances.of_jobs {w w' : RunnerWorld ν} (h : w'.runner.jobs = w.runner.jobs) : Advances w w' :=
  .of_state fun j => by rw [h]

theorem Advances.setJob {w w' : RunnerWorld ν} {j : ℕ} {job : Job}
    (h : w'.runner.jobs = Function.update w.runner.jobs j job) (hstep : JobState.Step (w.runner.jobs j).state job.state) :
    Advances w w' := by
  intro k
  by_cases hk : k = j
  · subst hk; rw [h, Function.update_self]; exact .inr (.inl hstep)
  · rw [h, Function.update_of_ne hk]; exact .inl rfl

namespace JobsOk

variable {w : RunnerWorld ν}

theorem lt_next (h : JobsOk w) {t : ℕ} (ht : w.threads t ≠ .idle) : t < w.next := by
  by_contra hn
  exact ht (h.idle t (by omega))

theorem worker (h : JobsOk w) {t qi : ℕ} {pc : JobWorkerPc} (hth : w.threads t = .worker qi pc) :
    t < w.next ∧ pc.Ok w.runner.jobs := by
  refine ⟨h.lt_next (by rw [hth]; exact RThread.worker_ne_idle), ?_⟩
  have hok := h.threads t
  rw [hth] at hok
  exact hok

theorem call_running (h : JobsOk w) {t qi j : ℕ} {rest : List ℕ} (hth : w.threads t = .worker qi (.call j rest)) :
    (w.runner.jobs j).state = .running :=
  (h.worker hth).2.1

theorem jobs_le_others (h : JobsOk w) {t s : ℕ} (hst : s ≠ t) : ((w.threads s).jobs : Multiset ℕ) ≤ w.others t := by
  by_cases hs : s < w.next
  · exact Finset.single_le_sum (fun _ _ => Multiset.zero_le _) (Finset.mem_erase.2 ⟨hst, Finset.mem_range.2 hs⟩)
  · rw [h.idle s (by omega)]
    exact Multiset.zero_le _

theorem own (h : JobsOk w) {t j : ℕ} (hlt : t < w.next) (hj : j ∈ (w.threads t).jobs) :
    j ∉ w.runner.held ∧ j ∉ w.others t ∧ (∀ s, s ≠ t → j ∉ (w.threads s).jobs) ∧ j < w.runner.made ∧
      ((w.threads t).jobs : Multiset ℕ).Nodup := by
  have hn := h.nodup
  rw [held_eq w hlt] at hn
  obtain ⟨hn1, -, hdis⟩ := Multiset.nodup_add.1 hn
  obtain ⟨-, hnt, hdis1⟩ := Multiset.nodup_add.1 hn1
  have hjm : j ∈ ((w.threads t).jobs : Multiset ℕ) := Multiset.mem_coe.2 hj
  have hoth : j ∉ w.others t := Multiset.disjoint_left.1 hdis (Multiset.mem_add.2 (.inr hjm))
  refine ⟨fun hr => Multiset.disjoint_left.1 hdis1 hr hjm, hoth, fun s hs hjs => ?_, ?_, hnt⟩
  · exact hoth (Multiset.mem_of_le (h.jobs_le_others hs) (Multiset.mem_coe.2 hjs))
  · refine h.held_lt j ?_
    rw [held_eq w hlt]
    exact Multiset.mem_add.2 (.inl (Multiset.mem_add.2 (.inr hjm)))

/-- The invariant after goroutine `t` moves to `th` and the runner to `r`, from what it says
of `r`, of `th`, and of the goroutines that did not move. -/
theorem update (h : JobsOk w) {t : ℕ} (hlt : t < w.next) (th : RThread ν) (r : Runner ν)
    (hnodup : (r.held + th.jobs + w.others t).Nodup)
    (hheld : ∀ j ∈ r.held + th.jobs + w.others t, j < r.made)
    (hfresh : ∀ j, r.made ≤ j → (r.jobs j).state = .pending)
    (hpool : ∀ j ∈ r.jobPool, (r.jobs j).state = .pending ∧ (r.jobs j).needRelease = true)
    (hqueued : ∀ q ∈ r.queues, ∀ j ∈ q.items, (r.jobs j).state.Waiting) (hok : th.Ok r.made r.jobs)
    (hothers : ∀ s, s ≠ t → (w.threads s).Ok w.runner.made w.runner.jobs → (w.threads s).Ok r.made r.jobs) :
    JobsOk { w.setThread t th with runner := r } where
  idle s hs := by
    have hne : s ≠ t := Nat.ne_of_gt (Nat.lt_of_lt_of_le hlt hs)
    simp only [setThread, Function.update_of_ne hne]
    exact h.idle s hs
  nodup := by rw [held_update w hlt]; exact hnodup
  held_lt := by rw [held_update w hlt]; exact hheld
  fresh := hfresh
  pool := hpool
  queued := hqueued
  threads s := by
    by_cases hs : s = t
    · subst hs
      simp only [setThread, Function.update_self]
      exact hok
    · simp only [setThread, Function.update_of_ne hs]
      exact hothers s hs (h.threads s)

/-- A step that moves no job object into the goroutine and changes no job. -/
theorem frame (h : JobsOk w) {t : ℕ} (ht : w.threads t ≠ .idle) (th : RThread ν) (r : Runner ν)
    (hmade : r.made = w.runner.made) (hjobs : r.jobs = w.runner.jobs) (hpool : r.jobPool = w.runner.jobPool)
    (hheld : r.held + th.jobs ≤ w.runner.held + (w.threads t).jobs)
    (hqueued : ∀ q ∈ r.queues, ∀ j ∈ q.items, (w.runner.jobs j).state.Waiting)
    (hok : th.Ok w.runner.made w.runner.jobs) :
    JobsOk { w.setThread t th with runner := r } ∧ Advances w { w.setThread t th with runner := r } := by
  have hlt := h.lt_next ht
  have hle : r.held + th.jobs + w.others t ≤ w.held := by
    rw [held_eq w hlt]
    exact add_le_add hheld le_rfl
  refine ⟨h.update hlt th r (Multiset.nodup_of_le hle h.nodup) ?_ ?_ ?_ ?_ ?_ ?_, Advances.of_jobs hjobs⟩
  · rw [hmade]; exact fun j hj => h.held_lt j (Multiset.mem_of_le hle hj)
  · rw [hmade, hjobs]; exact h.fresh
  · rw [hpool, hjobs]; exact h.pool
  · rw [hjobs]; exact hqueued
  · rw [hmade, hjobs]; exact hok
  · rw [hmade, hjobs]; exact fun _ _ hs => hs

/-- Goroutine `t` sets a job it holds, keeping its `needRelease`, and moves to `th`, which
holds no job that `t` did not. -/
theorem setOwnJob (h : JobsOk w) {t j : ℕ} (hlt : t < w.next) (hj : j ∈ (w.threads t).jobs) (job : Job)
    (hneed : job.needRelease = (w.runner.jobs j).needRelease) (th : RThread ν)
    (hth : (th.jobs : Multiset ℕ) ≤ (w.threads t).jobs)
    (hok : th.Ok w.runner.made (Function.update w.runner.jobs j job)) :
    JobsOk { w.setThread t th with runner := w.runner.setJob j job } := by
  obtain ⟨hheld, -, hothers, hmade, -⟩ := h.own hlt hj
  have hle : w.runner.held + th.jobs + w.others t ≤ w.held := by
    rw [held_eq w hlt]
    exact add_le_add (add_le_add le_rfl hth) le_rfl
  have hsame : ∀ k, k ≠ j → Function.update w.runner.jobs j job k = w.runner.jobs k :=
    fun k hk => Function.update_of_ne hk _ _
  have hneed' : ∀ k, (Function.update w.runner.jobs j job k).needRelease = (w.runner.jobs k).needRelease := by
    intro k
    by_cases hk : k = j
    · subst hk; rw [Function.update_self, hneed]
    · rw [hsame k hk]
  refine h.update hlt th _ (Multiset.nodup_of_le hle h.nodup) (fun k hk => h.held_lt k (Multiset.mem_of_le hle hk))
    ?_ ?_ ?_ hok ?_
  · intro k hk
    rw [Runner.setJob_jobs, hsame k (by simp only [Runner.setJob] at hk; omega)]
    exact h.fresh k hk
  · intro k hk
    have hkj : k ≠ j := fun e => hheld (e ▸ Runner.mem_held_of_pool hk)
    rw [Runner.setJob_jobs, hsame k hkj]
    exact h.pool k hk
  · intro q hq k hk
    have hkj : k ≠ j := fun e => hheld (e ▸ Runner.mem_held_of_queue hq hk)
    rw [Runner.setJob_jobs, hsame k hkj]
    exact h.queued q hq k hk
  · intro s hs hok'
    refine hok'.congr le_rfl (fun k hk => ?_) (fun k _ => hneed' k)
    rw [Runner.setJob_jobs, hsame k (fun e => hothers s hs (e ▸ hk))]
    exact .refl _

/-- `jobPool.Put(job)` of a job that no place holds and that `reset()` has blanked. -/
theorem pushPool (h : JobsOk w) {j : ℕ} (hj : j ∉ w.held) (hlt : j < w.runner.made)
    (hblank : w.runner.jobs j = Job.blank) :
    JobsOk { w with runner := { w.runner with jobPool := j :: w.runner.jobPool } } where
  idle := h.idle
  nodup := by
    have : ({ w with runner := { w.runner with jobPool := j :: w.runner.jobPool } } : RunnerWorld ν).held =
        j ::ₘ w.held := by
      simp only [held, Runner.held, ← Multiset.cons_coe, Multiset.cons_add]
    rw [this]
    exact Multiset.nodup_cons.2 ⟨hj, h.nodup⟩
  held_lt k hk := by
    simp only [held, Runner.held, ← Multiset.cons_coe, Multiset.cons_add, Multiset.mem_cons] at hk
    rcases hk with rfl | hk
    · exact hlt
    · exact h.held_lt k hk
  fresh := h.fresh
  pool k hk := by
    rcases List.mem_cons.1 hk with rfl | hk
    · rw [hblank]; exact ⟨rfl, rfl⟩
    · exact h.pool k hk
  queued := h.queued
  threads := h.threads

theorem held_spawnWorker (w : RunnerWorld ν) (qi : ℕ) : (w.spawnWorker qi).held = w.held := by
  simp only [held, Runner.held, RunnerWorld.spawnWorker, Finset.sum_range_succ, Function.update_self]
  rw [Finset.sum_congr rfl fun s hs => by rw [Function.update_of_ne (Finset.mem_range.1 hs).ne]]
  simp [RThread.jobs, JobWorkerPc.jobs, Queue.PollPc.taken]

/-- `AddNamedWorker`'s `startWorker` starts a worker that holds no job. -/
theorem spawnWorker (h : JobsOk w) (qi : ℕ) : JobsOk (w.spawnWorker qi) where
  idle s hs := by
    simp only [RunnerWorld.spawnWorker] at hs ⊢
    rw [Function.update_of_ne (by omega)]
    exact h.idle s (by omega)
  nodup := by rw [held_spawnWorker]; exact h.nodup
  held_lt := by rw [held_spawnWorker]; exact h.held_lt
  fresh := h.fresh
  pool := h.pool
  queued := h.queued
  threads s := by
    simp only [RunnerWorld.spawnWorker]
    by_cases hs : s = w.next
    · subst hs; rw [Function.update_self]; exact fun k hk => by simp [Queue.PollPc.taken] at hk
    · rw [Function.update_of_ne hs]; exact h.threads s

/-- A world where no job object is held and no client has a handle. -/
theorem of_empty (hidle : ∀ t, w.next ≤ t → w.threads t = .idle) (hpool : w.runner.jobPool = [])
    (hq : ∀ q ∈ w.runner.queues, q.items = []) (hfresh : ∀ j, (w.runner.jobs j).state = .pending)
    (hthreads : ∀ t, (w.threads t).jobs = [] ∧ (w.threads t).handles = []) : JobsOk w := by
  have hheld : w.held = 0 := by
    simp only [held, Runner.held, hpool, Multiset.coe_nil, zero_add]
    rw [Finset.sum_eq_zero fun t _ => by rw [(hthreads t).1]; rfl, add_zero]
    exact List.sum_eq_zero fun m hm => by
      obtain ⟨q, hq', rfl⟩ := List.mem_map.1 hm
      rw [hq q hq']; rfl
  refine ⟨hidle, hheld ▸ Multiset.nodup_zero, fun k hk => absurd (hheld ▸ hk) (Multiset.notMem_zero k),
    fun j _ => hfresh j, fun k hk => by rw [hpool] at hk; exact absurd hk List.not_mem_nil,
    fun q hq' k hk => by rw [hq q hq'] at hk; exact absurd hk List.not_mem_nil, fun t => ?_⟩
  obtain ⟨hj, hh⟩ := hthreads t
  revert hj hh
  cases w.threads t with
  | idle => exact fun _ _ => trivial
  | client calls handles pc =>
    intro hj hh
    simp only [RThread.jobs, RThread.handles] at hj hh
    subst hh
    exact ⟨fun k hk => absurd hk List.not_mem_nil, fun k hk => by rw [hj] at hk; exact absurd hk List.not_mem_nil⟩
  | worker qi pc =>
    intro hj _
    simp only [RThread.jobs] at hj
    cases pc with
    | get pc =>
      simp only [JobWorkerPc.jobs] at hj
      exact fun k hk => by rw [hj] at hk; exact absurd hk List.not_mem_nil
    | next js =>
      simp only [JobWorkerPc.jobs] at hj
      subst hj
      exact fun k hk => absurd hk List.not_mem_nil
    | call j rest | release j rest => simp [JobWorkerPc.jobs] at hj
    | returned => trivial

theorem handle (h : JobsOk w) {s k : ℕ} (hk : k ∈ (w.threads s).handles) :
    k < w.runner.made ∧ (w.runner.jobs k).needRelease = false := by
  have hs := h.threads s
  revert hk hs
  cases w.threads s with
  | client calls handles pc => exact fun hk hs => hs.1 k hk
  | idle | worker => exact fun hk => absurd hk List.not_mem_nil

/-- `acquireJob()` keeps the invariant, and hands out a pending job object that no place
holds and no handle names, without changing any job's state. -/
theorem acquireJob_ok (h : JobsOk w) {pick : Option ℕ} {j : ℕ} {r : Runner ν}
    (hacq : w.runner.acquireJob pick = (j, r)) :
    JobsOk { w with runner := r } ∧ j ∉ ({ w with runner := r } : RunnerWorld ν).held ∧ j < r.made ∧
      (r.jobs j).state = .pending ∧ (∀ s, ∀ k ∈ (w.threads s).handles, k ≠ j) ∧
      ∀ k, (r.jobs k).state = (w.runner.jobs k).state := by
  have hcases := Runner.acquireJob_cases w.runner pick
  have hq := Runner.acquireJob_queues w.runner pick
  rw [hacq] at hcases hq
  dsimp only at hcases hq
  rcases hcases with ⟨hpool, hmade, hjobs⟩ | ⟨rfl, hpool, hmade, hjobs⟩
  · -- from the pool: the job leaves the pool, and nothing else changes
    have hheld : j ::ₘ ({ w with runner := r } : RunnerWorld ν).held = w.held := by
      simp only [held, Runner.held, ← Multiset.cons_add, hpool, hq]
    have hjp : j ∈ w.runner.jobPool := by
      rw [← Multiset.mem_coe, ← hpool]; exact Multiset.mem_cons_self j _
    have hnd : (j ::ₘ ({ w with runner := r } : RunnerWorld ν).held).Nodup := hheld ▸ h.nodup
    refine ⟨⟨h.idle, (Multiset.nodup_cons.1 hnd).2, ?_, ?_, ?_, ?_, ?_⟩, (Multiset.nodup_cons.1 hnd).1, ?_,
      by rw [hjobs]; exact (h.pool j hjp).1, ?_, fun k => by rw [hjobs]⟩
    · intro k hk; rw [hmade]; exact h.held_lt k (hheld ▸ Multiset.mem_cons_of_mem hk)
    · rw [hmade, hjobs]; exact h.fresh
    · intro k hk
      rw [hjobs]
      exact h.pool k (by rw [← Multiset.mem_coe, ← hpool]; exact Multiset.mem_cons_of_mem hk)
    · rw [hq, hjobs]; exact h.queued
    · rw [hmade, hjobs]; exact h.threads
    · rw [hmade]; exact h.held_lt j (hheld ▸ Multiset.mem_cons_self j _)
    · intro s k hk e
      have hnr := (h.pool j hjp).2
      rw [← e, (h.handle hk).2] at hnr
      exact Bool.false_ne_true hnr
  · -- made: `&Job{}`, a job object past all the others
    have hstate : ∀ k, (r.jobs k).state = (w.runner.jobs k).state := by
      intro k
      by_cases hk : k = w.runner.made
      · subst hk; rw [hjobs, Function.update_self, h.fresh _ le_rfl]
      · rw [hjobs, Function.update_of_ne hk]
    have hheld : ({ w with runner := r } : RunnerWorld ν).held = w.held := by
      simp only [held, Runner.held, hpool, hq]
    refine ⟨⟨h.idle, hheld ▸ h.nodup, ?_, ?_, ?_, ?_, fun s => ?_⟩, ?_, by omega,
      by rw [hstate]; exact h.fresh _ le_rfl, ?_, hstate⟩
    · intro k hk; rw [hmade]; exact Nat.lt_succ_of_lt (h.held_lt k (hheld ▸ hk))
    · intro k hk
      dsimp only at hk ⊢
      rw [hstate]; exact h.fresh k (by omega)
    · intro k hk
      dsimp only at hk ⊢
      rw [hpool] at hk
      have hlt := h.held_lt k (Multiset.mem_add.2 (.inl (Runner.mem_held_of_pool hk)))
      rw [hjobs, Function.update_of_ne (Nat.ne_of_lt hlt)]
      exact h.pool k hk
    · intro q hq' k hk; rw [hstate]; exact h.queued q (hq ▸ hq') k hk
    · refine (h.threads s).congr (by dsimp only; omega) (fun k _ => by rw [hstate]; exact .refl _) (fun k hk => ?_)
      rw [hjobs, Function.update_of_ne (Nat.ne_of_lt (h.handle hk).1)]
    · intro hj; exact absurd (h.held_lt _ (hheld ▸ hj)) (lt_irrefl _)
    · intro s k hk e; exact absurd (h.handle hk).1 (by omega)

/-- The rest of `newJob` and `RunJobWithNamedWorkerWithCB`: a client that holds no job takes
a pending job object that no place holds and no handle names, sets its function and
`needRelease`, and may hold it as its `Put`'s job and keep it as a handle (with
`needRelease` off). -/
theorem takeJob (h : JobsOk w) {t : ℕ} {calls : List (RunnerCall ν)} {handles : List ℕ} {pc : ClientPc}
    (hth : w.threads t = .client calls handles pc) (hpc : pc.jobs = []) {j : ℕ} (hj : j ∉ w.held)
    (hlt : j < w.runner.made) (hpend : (w.runner.jobs j).state = .pending)
    (hnot : ∀ s, ∀ k ∈ (w.threads s).handles, k ≠ j) (task : ℕ) (nr : Bool)
    (calls' : List (RunnerCall ν)) (handles' : List ℕ) (pc' : ClientPc) (R : Runner ν)
    (hjobs : R.jobs = Function.update w.runner.jobs j ⟨.pending, some task, nr⟩) (hmade : R.made = w.runner.made)
    (hheld : R.held = w.runner.held) (hpool : R.jobPool = w.runner.jobPool) (hqueues : R.queues = w.runner.queues)
    (hpc' : (pc'.jobs : Multiset ℕ) ≤ {j}) (hhandles : ∀ k ∈ handles', k ∈ handles ∨ k = j ∧ nr = false) :
    JobsOk { w.setThread t (.client calls' handles' pc') with runner := R } := by
  have htlt := h.lt_next (t := t) (by rw [hth]; exact RThread.client_ne_idle)
  have hsame : ∀ k, k ≠ j → R.jobs k = w.runner.jobs k := fun k hk => by rw [hjobs, Function.update_of_ne hk]
  have hstate : ∀ k, (R.jobs k).state = (w.runner.jobs k).state := by
    intro k
    by_cases hk : k = j
    · subst hk; rw [hjobs, Function.update_self, hpend]
    · rw [hsame k hk]
  -- the client held no job, so the jobs held now are those held before, and `j`
  have hle : R.held + pc'.jobs + w.others t ≤ j ::ₘ w.held := by
    rw [held_eq w htlt, hth, RThread.jobs, hpc, Multiset.coe_nil, add_zero, hheld]
    calc w.runner.held + pc'.jobs + w.others t ≤ w.runner.held + {j} + w.others t :=
          add_le_add (add_le_add le_rfl hpc') le_rfl
      _ = j ::ₘ (w.runner.held + w.others t) := by rw [add_right_comm, add_comm, Multiset.singleton_add]
  have hnd : (j ::ₘ w.held).Nodup := Multiset.nodup_cons.2 ⟨hj, h.nodup⟩
  refine h.update htlt _ R (Multiset.nodup_of_le hle hnd) ?_ ?_ ?_ ?_ ?_ ?_
  · intro k hk
    rw [hmade]
    rcases Multiset.mem_cons.1 (Multiset.mem_of_le hle hk) with rfl | hk
    · exact hlt
    · exact h.held_lt k hk
  · intro k hk; rw [hstate]; exact h.fresh k (hmade ▸ hk)
  · intro k hk
    rw [hpool] at hk
    have hkj : k ≠ j := fun e => hj (e ▸ Multiset.mem_add.2 (.inl (Runner.mem_held_of_pool hk)))
    rw [hsame k hkj]
    exact h.pool k hk
  · intro q hq k hk; rw [hstate]; exact h.queued q (hqueues ▸ hq) k hk
  · refine ⟨fun k hk => ?_, fun k hk => ?_⟩
    · rcases hhandles k hk with hk | ⟨rfl, hnr⟩
      · have hk' : k ∈ (w.threads t).handles := by rw [hth]; exact hk
        rw [hmade, hsame k (hnot t k hk')]
        exact h.handle hk'
      · rw [hmade, hjobs, Function.update_self]; exact ⟨hlt, hnr⟩
    · have : k = j := Multiset.mem_singleton.1 (Multiset.mem_of_le hpc' (Multiset.mem_coe.2 hk))
      subst this; rw [hjobs, Function.update_self]; exact .inl rfl
  · intro s _ hok
    refine hok.congr (hmade ▸ le_rfl) (fun k _ => by rw [hstate]; exact .refl _) (fun k hk => ?_)
    rw [hsame k (hnot s k hk)]

/-- A client moves to a program counter that holds no job, keeping its handles, while the
runner keeps its job objects where they are. -/
theorem clientMove (h : JobsOk w) {t : ℕ} {calls : List (RunnerCall ν)} {handles : List ℕ} {pc : ClientPc}
    (hth : w.threads t = .client calls handles pc) (calls' : List (RunnerCall ν)) (pc' : ClientPc)
    (hpc : pc'.jobs = []) (r : Runner ν) (hmade : r.made = w.runner.made) (hjobs : r.jobs = w.runner.jobs)
    (hpool : r.jobPool = w.runner.jobPool) (hheld : r.held = w.runner.held)
    (hqueues : ∀ q ∈ r.queues, q ∈ w.runner.queues ∨ q.items = []) :
    JobsOk { w.setThread t (.client calls' handles pc') with runner := r } ∧
      Advances w { w.setThread t (.client calls' handles pc') with runner := r } := by
  refine h.frame (by rw [hth]; exact RThread.client_ne_idle) _ r hmade hjobs hpool ?_ ?_ ?_
  · rw [hheld, RThread.jobs, hpc, Multiset.coe_nil, add_zero]
    exact Multiset.le_add_right _ _
  · intro q hq k hk
    rcases hqueues q hq with hq | hq
    · exact h.queued q hq k hk
    · rw [hq] at hk; exact absurd hk List.not_mem_nil
  · exact ⟨fun k hk => h.handle (s := t) (by rw [hth]; exact hk), by simp [hpc]⟩

/-- A step of queue `qi` by goroutine `t`, which moves items between the queue and `t`. -/
theorem queueStep (h : JobsOk w) {t : ℕ} (ht : w.threads t ≠ .idle) (th : RThread ν) (qi : ℕ) (q : Queue ℕ ℕ)
    (hitems : (q.items : Multiset ℕ) + th.jobs ≤ (w.runner.queue qi).items + (w.threads t).jobs)
    (hwait : ∀ k ∈ (w.threads t).jobs, (w.runner.jobs k).state.Waiting)
    (hok : (∀ k ∈ th.jobs, (w.runner.jobs k).state.Waiting) → th.Ok w.runner.made w.runner.jobs) :
    JobsOk { w.setThread t th with runner := w.runner.setQueue qi q } ∧
      Advances w { w.setThread t th with runner := w.runner.setQueue qi q } := by
  -- what the queue and the goroutine hold now, the queue or the goroutine held before
  have hfrom : ∀ k ∈ (q.items : Multiset ℕ) + th.jobs, (w.runner.jobs k).state.Waiting := by
    intro k hk
    rcases Multiset.mem_add.1 (Multiset.mem_of_le hitems hk) with hk | hk
    · obtain ⟨q', hq', hk'⟩ := Runner.mem_queue (Multiset.mem_coe.1 hk)
      exact h.queued q' hq' k hk'
    · exact hwait k (Multiset.mem_coe.1 hk)
  refine h.frame ht th _ rfl rfl rfl (Runner.held_setQueue _ _ _ hitems) ?_
    (hok fun k hk => hfrom k (Multiset.mem_add.2 (.inr (Multiset.mem_coe.2 hk))))
  intro q' hq' k hk
  rcases List.mem_or_eq_of_mem_set hq' with hq' | rfl
  · exact h.queued q' hq' k hk
  · exact hfrom k (Multiset.mem_add.2 (.inl (Multiset.mem_coe.2 hk)))

/-- `Cancel()` on a client's handle: a pending job becomes cancelling, any other is left as
it is. -/
theorem cancel (h : JobsOk w) {t hd : ℕ} {rest : List (RunnerCall ν)} {handles : List ℕ}
    (hth : w.threads t = .client (.cancel hd :: rest) handles .start) {j : ℕ} (hj : handles[hd]? = some j) :
    JobsOk { w.setThread t (.client rest handles .start) with runner := w.runner.cancelJob j } ∧
      Advances w { w.setThread t (.client rest handles .start) with runner := w.runner.cancelJob j } := by
  have hjh : j ∈ (w.threads t).handles := by rw [hth]; exact List.mem_of_getElem? hj
  obtain ⟨hlt, hnr⟩ := h.handle hjh
  unfold Runner.cancelJob
  split
  case isFalse => exact h.clientMove hth rest .start rfl _ rfl rfl rfl rfl fun q hq => .inl hq
  case isTrue hpend =>
  have htlt := h.lt_next (t := t) (by rw [hth]; exact RThread.client_ne_idle)
  have hsame : ∀ k, k ≠ j → Function.update w.runner.jobs j { w.runner.jobs j with state := .cancelling } k =
      w.runner.jobs k := fun k hk => Function.update_of_ne hk _ _
  have hkept : ∀ k, JobState.Kept (w.runner.jobs k).state
      (Function.update w.runner.jobs j { w.runner.jobs j with state := .cancelling } k).state := by
    intro k
    by_cases hk : k = j
    · subst hk; rw [Function.update_self]; exact .inr ⟨hpend, rfl⟩
    · rw [hsame k hk]; exact .refl _
  have hneed : ∀ k, (Function.update w.runner.jobs j { w.runner.jobs j with state := .cancelling } k).needRelease =
      (w.runner.jobs k).needRelease := by
    intro k
    by_cases hk : k = j
    · subst hk; rw [Function.update_self]
    · rw [hsame k hk]
  -- the client held no job before and holds none after
  have hle : w.runner.held + (RThread.client rest handles .start : RThread ν).jobs + w.others t ≤ w.held := by
    rw [held_eq w htlt, hth]; exact le_rfl
  refine ⟨h.update htlt _ _ (Multiset.nodup_of_le hle h.nodup) (fun k hk => h.held_lt k (Multiset.mem_of_le hle hk))
    ?_ ?_ ?_ ?_ ?_, .setJob rfl (by rw [hpend]; exact .cancel)⟩
  · intro k hk
    rw [Runner.setJob_jobs, hsame k (by simp only [Runner.setJob] at hk; omega)]
    exact h.fresh k hk
  · intro k hk
    have hkj : k ≠ j := by
      rintro rfl
      have hp := (h.pool k hk).2
      rw [hnr] at hp
      exact Bool.false_ne_true hp
    rw [Runner.setJob_jobs, hsame k hkj]
    exact h.pool k hk
  · intro q hq k hk; exact (h.queued q hq k hk).kept (hkept k)
  · refine ⟨fun k hk => ?_, fun k hk => absurd hk List.not_mem_nil⟩
    rw [Runner.setJob_jobs, hneed]
    exact h.handle (s := t) (by rw [hth]; exact hk)
  · intro s _ hok
    exact hok.congr le_rfl (fun k _ => hkept k) (fun k _ => hneed k)

theorem head_not_mem (h : JobsOk w) {t qi j : ℕ} {rest : List ℕ} {pc : JobWorkerPc}
    (hth : w.threads t = .worker qi pc) (hpc : pc.jobs = j :: rest) : j ∉ rest := by
  have hj : j ∈ (w.threads t).jobs := by rw [hth, RThread.jobs, hpc]; exact List.mem_cons_self
  obtain ⟨-, -, -, -, hnd⟩ := h.own (h.worker hth).1 hj
  rw [hth, RThread.jobs, hpc] at hnd
  exact (List.nodup_cons.1 (Multiset.coe_nodup.1 hnd)).1

theorem rest_waiting (h : JobsOk w) {t qi j : ℕ} {rest : List ℕ} {pc : JobWorkerPc}
    (hth : w.threads t = .worker qi pc) (hpc : pc.jobs = j :: rest)
    (hok : ∀ k ∈ rest, (w.runner.jobs k).state.Waiting) (job : Job) :
    ∀ k ∈ rest, (Function.update w.runner.jobs j job k).state.Waiting := by
  intro k hk
  rw [Function.update_of_ne (fun (e : k = j) => h.head_not_mem hth hpc (e ▸ hk))]
  exact hok k hk

section Worker

variable {t qi j : ℕ} {rest : List ℕ}

/-- A worker's `job.Lock()` on the next job of its batch: a pending job starts running, a
cancelling one is cancelled and goes to be released. -/
theorem startJob (h : JobsOk w) (hth : w.threads t = .worker qi (.next (j :: rest))) (c : Choice) :
    JobsOk (w.workerStep t qi c (.next (j :: rest))) ∧ Advances w (w.workerStep t qi c (.next (j :: rest))) := by
  obtain ⟨htlt, hok⟩ := h.worker hth
  have hj : j ∈ (w.threads t).jobs := by rw [hth]; exact List.mem_cons_self
  have hrest := h.rest_waiting hth rfl fun k hk => hok k (List.mem_cons_of_mem _ hk)
  rcases hok j List.mem_cons_self with hp | hc
  · have heq : w.workerStep t qi c (.next (j :: rest)) = { w.setThread t (.worker qi (.call j rest)) with
        runner := w.runner.setJob j { w.runner.jobs j with state := .running } } := by
      simp only [workerStep, Runner.startJob, hp, if_true]
    rw [heq]
    exact ⟨h.setOwnJob htlt hj { w.runner.jobs j with state := .running } rfl (.worker qi (.call j rest))
      (by rw [hth]; exact le_rfl) ⟨by rw [Function.update_self], hrest _⟩, .setJob rfl (by rw [hp]; exact .start)⟩
  · have heq : w.workerStep t qi c (.next (j :: rest)) = { w.setThread t (.worker qi (.release j rest)) with
        runner := w.runner.setJob j { w.runner.jobs j with state := .cancelled } } := by
      simp only [workerStep, Runner.startJob, hc, Bool.false_eq_true, if_false]
    rw [heq]
    exact ⟨h.setOwnJob htlt hj { w.runner.jobs j with state := .cancelled } rfl (.worker qi (.release j rest))
      (by rw [hth]; exact le_rfl) ⟨by rw [Function.update_self]; exact .inl rfl, hrest _⟩,
      .setJob rfl (by rw [hc]; exact .skip)⟩

/-- The section after `job.fun()` returns: the running job ends as its function's result
says. -/
theorem finishJob (h : JobsOk w) (hth : w.threads t = .worker qi (.call j rest)) (c : Choice) :
    JobsOk (w.workerStep t qi c (.call j rest)) ∧ Advances w (w.workerStep t qi c (.call j rest)) := by
  obtain ⟨htlt, hok⟩ := h.worker hth
  have hj : j ∈ (w.threads t).jobs := by rw [hth]; exact List.mem_cons_self
  have hrest := h.rest_waiting hth rfl hok.2
  -- a running job is not cancelling, so a `nil` result finishes it
  obtain ⟨s, hfin, hstep, hend⟩ : ∃ s, w.runner.finishJob j c.outcome =
      w.runner.setJob j { w.runner.jobs j with state := s } ∧ JobState.Step .running s ∧ s.Ended := by
    unfold Runner.finishJob
    cases c.outcome
    · exact ⟨.finished, by simp only [hok.1, reduceCtorEq, if_false], .finish, .inr (.inl rfl)⟩
    · exact ⟨.cancelled, rfl, .abort, .inl rfl⟩
    · exact ⟨.failed, rfl, .fail, .inr (.inr rfl)⟩
  have heq : w.workerStep t qi c (.call j rest) = { w.setThread t (.worker qi (.release j rest)) with
      runner := w.runner.setJob j { w.runner.jobs j with state := s } } := by
    rw [workerStep, hfin]
  rw [heq]
  exact ⟨h.setOwnJob htlt hj { w.runner.jobs j with state := s } rfl (.worker qi (.release j rest))
    (by rw [hth]; exact le_rfl) ⟨by rw [Function.update_self]; exact hend, hrest _⟩,
    .setJob rfl (by rw [hok.1]; exact hstep)⟩

/-- `if job.needRelease { releaseJob(job) }`: the ended job is reset and put back in the pool,
or left with its owner. -/
theorem releaseStep (h : JobsOk w) (hth : w.threads t = .worker qi (.release j rest)) (c : Choice) :
    JobsOk (w.workerStep t qi c (.release j rest)) ∧ Advances w (w.workerStep t qi c (.release j rest)) := by
  obtain ⟨htlt, hok⟩ := h.worker hth
  have hj : j ∈ (w.threads t).jobs := by rw [hth]; exact List.mem_cons_self
  have hle : ((JobWorkerPc.next rest).jobs : Multiset ℕ) ≤ (w.threads t).jobs := by
    rw [hth]; exact Multiset.le_cons_self _ _
  obtain ⟨hheld, hoth, -, hmade, -⟩ := h.own htlt hj
  simp only [workerStep]
  split
  case isFalse =>
    exact h.frame (by rw [hth]; exact RThread.worker_ne_idle) _ _ rfl rfl rfl (add_le_add le_rfl hle) h.queued hok.2
  case isTrue hnr =>
  -- `reset()` blanks the job while the worker drops it, then `jobPool.Put(job)`
  have h1 := h.setOwnJob htlt hj Job.blank hnr.symm (.worker qi (.next rest)) hle
    (h.rest_waiting hth rfl hok.2 Job.blank)
  have hjr : j ∉ rest := h.head_not_mem hth rfl
  have hj1 : j ∉ ({ w.setThread t (.worker qi (.next rest)) with runner := w.runner.setJob j Job.blank } :
      RunnerWorld ν).held := by
    rw [held_update w htlt, Runner.setJob_held, Multiset.mem_add, Multiset.mem_add, Multiset.mem_coe]
    exact fun hm => hm.elim (fun hm => hm.elim hheld hjr) hoth
  refine ⟨h1.pushPool hj1 hmade (Function.update_self ..), fun k => ?_⟩
  by_cases hk : k = j
  · subst hk; exact .inr (.inr ⟨rfl, hnr⟩)
  · show (Function.update w.runner.jobs j Job.blank k).state = _ ∨ _
    rw [Function.update_of_ne hk]
    exact .inl rfl

theorem workerStep (h : JobsOk w) {pc : JobWorkerPc} (hth : w.threads t = .worker qi pc) (c : Choice) :
    JobsOk (w.workerStep t qi c pc) ∧ Advances w (w.workerStep t qi c pc) := by
  have ht : w.threads t ≠ .idle := by rw [hth]; exact RThread.worker_ne_idle
  obtain ⟨-, hok⟩ := h.worker hth
  cases pc with
  | get pc =>
    simp only [RunnerWorld.workerStep]
    split
    case h_1 =>
      -- `Get` returned its batch
      exact h.frame ht _ _ rfl rfl rfl (by rw [hth]; exact le_rfl) h.queued hok
    case h_2 | h_3 =>
      -- `Get` failed, or panicked, and the goroutine returns
      exact h.frame ht (.worker qi .returned) _ rfl rfl rfl
        (by rw [hth]; exact add_le_add le_rfl (Multiset.zero_le _)) h.queued trivial
    case h_4 =>
      exact h.queueStep ht _ qi _ (by rw [hth]; exact Queue.pollStep_items t batch false false _ pc)
        (by rw [hth]; exact hok) id
  | next js =>
    cases js with
    | nil =>
      exact h.frame ht (.worker qi (.get .start)) _ rfl rfl rfl (by rw [hth]; exact le_rfl) h.queued
        fun _ hk => absurd hk List.not_mem_nil
    | cons j rest => exact h.startJob hth c
  | call j rest => exact h.finishJob hth c
  | release j rest => exact h.releaseStep hth c
  | returned => exact ⟨h, .of_jobs rfl⟩

end Worker

section Steps

variable [DecidableEq ν]

/-- `RunJobWithNamedWorkerWithCB` once it holds the runner's lock: `newJob`, then the `Put`
of the job, or the job left behind when the name has no queue. -/
theorem runJob (h : JobsOk w) {t : ℕ} {worker : ν} {task : ℕ} {cb : Bool} {rest : List (RunnerCall ν)}
    {handles : List ℕ} (hth : w.threads t = .client (.runJob worker task cb :: rest) handles .start)
    (hlock : w.runner.lock = none) (hstate : w.runner.state = .running) (c : Choice) :
    JobsOk (w.clientStep t (.runJob worker task cb :: rest) handles c .start) ∧
      Advances w (w.clientStep t (.runJob worker task cb :: rest) handles c .start) := by
  rcases hacq : w.runner.acquireJob c.pick with ⟨j, r⟩
  obtain ⟨h0, hj, hlt, hpend, hnot, hst⟩ := h.acquireJob_ok hacq
  -- every job keeps its state: `j` was pending and stays so
  have hfin : ∀ nr k, (Function.update r.jobs j ⟨.pending, some task, nr⟩ k).state = (w.runner.jobs k).state := by
    intro nr k
    by_cases hk : k = j
    · subst hk; rw [Function.update_self, ← hst, hpend]
    · rw [Function.update_of_ne hk, hst]
  cases cb <;> simp only [clientStep, hlock, hstate, hacq, if_true, ne_eq, not_true_eq_false, if_false] <;> split
  · exact ⟨h0.takeJob hth rfl hj hlt hpend hnot task true rest handles .start _ rfl rfl rfl rfl rfl
      (Multiset.zero_le _) (fun k hk => .inl hk), .of_state (hfin true)⟩
  · exact ⟨h0.takeJob hth rfl hj hlt hpend hnot task true _ handles (.put _ j .start) _ rfl rfl rfl rfl rfl
      le_rfl (fun k hk => .inl hk), .of_state (hfin true)⟩
  · exact ⟨h0.takeJob hth rfl hj hlt hpend hnot task true rest handles .start _ rfl rfl rfl rfl rfl
      (Multiset.zero_le _) (fun k hk => .inl hk), .of_state (hfin true)⟩
  · -- the callback keeps the job as the client's handle, and turns `needRelease` off
    have hjobs : ∀ x : Job, (Function.update (Function.update r.jobs j x) j { x with needRelease := false }) =
        Function.update r.jobs j { x with needRelease := false } := fun x => Function.update_idem _ _ _
    exact ⟨h0.takeJob hth rfl hj hlt hpend hnot task false _ (handles ++ [j]) (.put _ j .start) _
      (by simp only [Runner.setJob, Function.update_self, hjobs]) rfl rfl rfl rfl le_rfl
      (fun k hk => (List.mem_append.1 hk).imp id fun hk => ⟨List.mem_singleton.1 hk, rfl⟩),
      .of_state fun k => by simp only [Runner.setJob, Function.update_self, hjobs]; exact hfin false k⟩


theorem clientStart (h : JobsOk w) {t : ℕ} {calls : List (RunnerCall ν)} {handles : List ℕ}
    (hth : w.threads t = .client calls handles .start) (c : Choice) :
    JobsOk (w.clientStep t calls handles c .start) ∧ Advances w (w.clientStep t calls handles c .start) := by
  rcases calls with _ | ⟨call, rest⟩
  · exact ⟨h, .of_jobs rfl⟩
  cases call with
  | addNamedWorker name =>
    simp only [RunnerWorld.clientStep]
    split
    · split
      · exact h.clientMove hth _ (.addStart _) rfl w.runner rfl rfl rfl rfl fun q hq => .inl hq
      · -- the name's new queue is empty
        refine h.clientMove hth _ (.addStart _) rfl _ rfl rfl rfl (by simp [Runner.held, newQueue]) fun q hq => ?_
        rcases List.mem_append.1 hq with hq | hq
        · exact .inl hq
        · rw [List.mem_singleton.1 hq]; exact .inr rfl
    · exact ⟨h, .of_jobs rfl⟩
  | runJob worker task cb =>
    by_cases hlock : w.runner.lock = none
    · by_cases hstate : w.runner.state = .running
      · exact h.runJob hth hlock hstate c
      · simp only [RunnerWorld.clientStep, hlock, hstate, if_true, ne_eq, not_false_eq_true]
        exact h.clientMove hth rest .start rfl w.runner rfl rfl rfl rfl fun q hq => .inl hq
    · simp only [RunnerWorld.clientStep, hlock, if_false]
      exact ⟨h, .of_jobs rfl⟩
  | cancel hd =>
    simp only [RunnerWorld.clientStep]
    split
    · rename_i j hj
      exact h.cancel hth hj
    · exact h.clientMove hth rest .start rfl w.runner rfl rfl rfl rfl fun q hq => .inl hq
  | stop =>
    simp only [RunnerWorld.clientStep]
    split
    · split
      · exact h.clientMove hth _ (.dispose 0 .start) rfl _ rfl rfl rfl rfl fun q hq => .inl hq
      · exact h.clientMove hth rest .start rfl w.runner rfl rfl rfl rfl fun q hq => .inl hq
    · exact ⟨h, .of_jobs rfl⟩

theorem clientStep (h : JobsOk w) {t : ℕ} {calls : List (RunnerCall ν)} {handles : List ℕ} {pc : ClientPc}
    (hth : w.threads t = .client calls handles pc) (c : Choice) :
    JobsOk (w.clientStep t calls handles c pc) ∧ Advances w (w.clientStep t calls handles c pc) := by
  have ht : w.threads t ≠ .idle := by rw [hth]; exact RThread.client_ne_idle
  have hok := h.threads t
  rw [hth] at hok
  cases pc with
  | start => exact h.clientStart hth c
  | addStart qi =>
    simp only [RunnerWorld.clientStep]
    split
    · have h1 := h.clientMove hth calls.tail .start rfl w.runner rfl rfl rfl rfl fun q hq => .inl hq
      split
      · exact ⟨h1.1.spawnWorker qi, .of_jobs rfl⟩
      · exact h1
    · exact ⟨h, .of_jobs rfl⟩
  | put qi j pc =>
    simp only [RunnerWorld.clientStep]
    split
    · exact h.clientMove hth calls.tail .start rfl _ rfl rfl rfl rfl fun q hq => .inl hq
    · exact h.queueStep ht _ qi _ (by rw [hth]; exact putStep_items t qi j _ pc) (by rw [hth]; exact hok.2)
        fun hw => ⟨hok.1, hw⟩
  | dispose qi pc =>
    simp only [RunnerWorld.clientStep]
    split
    · have hitems := Queue.disposeStep_items t (w.runner.queue qi) pc
      split <;> rename_i heq <;> rw [heq] at hitems <;>
        exact h.queueStep ht _ qi _ (by rw [hth]; exact add_le_add hitems le_rfl) (by rw [hth]; exact hok.2)
          fun _ => ⟨hok.1, fun _ hk => absurd hk List.not_mem_nil⟩
    · exact h.clientMove hth calls .wait rfl w.runner rfl rfl rfl rfl fun q hq => .inl hq
  | wait =>
    simp only [RunnerWorld.clientStep]
    split
    · exact h.clientMove hth calls.tail .start rfl _ rfl rfl rfl rfl fun q hq => .inl hq
    · split
      · exact h.clientMove hth calls.tail .start rfl _ rfl rfl rfl rfl fun q hq => .inl hq
      · exact ⟨h, .of_jobs rfl⟩

/-- Every step keeps the invariant, and moves each job's state by one `Step` at most, unless
it puts the job back in the pool. -/
theorem step (h : JobsOk w) (t : ℕ) (c : Choice) : JobsOk (w.step t c) ∧ Advances w (w.step t c) := by
  unfold RunnerWorld.step
  split
  · exact ⟨h, .of_jobs rfl⟩
  · rename_i calls handles pc hth
    exact h.clientStep hth c
  · rename_i qi pc hth
    exact h.workerStep hth c

theorem run (h : JobsOk w) (sched : List (ℕ × Choice)) : JobsOk (w.run sched) := by
  induction sched generalizing w with
  | nil => exact h
  | cons tc sched ih => exact ih (h.step tc.1 tc.2).1

end Steps

end JobsOk

section Handles

variable [DecidableEq ν] {w : RunnerWorld ν}

theorem clientStep_handles {t : ℕ} {calls : List (RunnerCall ν)} {handles : List ℕ} {pc : ClientPc}
    (hth : w.threads t = .client calls handles pc) (ht : t ≠ w.next) (c : Choice) :
    ∀ k ∈ handles, k ∈ ((w.clientStep t calls handles c pc).threads t).handles := by
  intro k hk
  cases pc <;> simp only [clientStep] <;> (repeat' split) <;>
    simp_all [setThread, spawnWorker, RThread.handles]

theorem JobsOk.step_handles (h : JobsOk w) (t : ℕ) (c : Choice) {s k : ℕ} (hk : k ∈ (w.threads s).handles) :
    k ∈ ((w.step t c).threads s).handles := by
  by_cases hs : s = t
  · subst hs
    have hlt : s < w.next := by
      by_contra hn
      rw [h.idle s (by omega)] at hk
      exact List.not_mem_nil hk
    unfold RunnerWorld.step
    split
    · assumption
    · rename_i calls handles pc hth
      rw [hth] at hk
      exact clientStep_handles hth (Nat.ne_of_lt hlt) c k hk
    · rename_i qi pc hth
      rw [hth] at hk
      exact absurd hk List.not_mem_nil
  · by_cases hn : s = w.next
    · rw [hn, h.idle w.next le_rfl] at hk
      exact absurd hk List.not_mem_nil
    · rw [step_other t c hs hn]
      exact hk

/-- `NewRunner()` with its default worker, and clients that have made no call. -/
theorem jobsOk_init (default : ν) (scripts : List (List (RunnerCall ν))) : JobsOk (init default scripts) := by
  apply JobsOk.spawnWorker
  refine JobsOk.of_empty (fun t ht => ?_) rfl (fun q hq => by rw [List.mem_singleton.1 hq]; rfl) (fun _ => rfl)
    fun t => ?_
  · dsimp only
    rw [List.getElem?_eq_none ht]
  · dsimp only
    split <;> exact ⟨rfl, rfl⟩

namespace JobsOk

/-- Until a job object goes back to the pool, its state only moves along `JobState.Step`:
over every schedule, either a step puts the job back in the pool, or the job's state at the
end is reached from its state at the start. -/
theorem run_reaches (h : JobsOk w) (j : ℕ) (sched : List (ℕ × Choice)) :
    JobState.Reaches (w.runner.jobs j).state ((w.run sched).runner.jobs j).state ∨
      ∃ pre t c post, sched = pre ++ (t, c) :: post ∧
        ((w.run pre).step t c).runner.jobPool = j :: (w.run pre).runner.jobPool := by
  induction sched generalizing w with
  | nil => exact .inl .refl
  | cons tc sched ih =>
    obtain ⟨t, c⟩ := tc
    obtain ⟨h', hadv⟩ := h.step t c
    rcases ih h' with hr | ⟨pre, t', c', post, rfl, hrel⟩
    · rcases hadv j with heq | hstep | ⟨hrel, -⟩
      · exact .inl (heq ▸ hr)
      · exact .inl (Relation.ReflTransGen.head hstep hr)
      · exact .inr ⟨[], t, c, sched, rfl, hrel⟩
    · exact .inr ⟨(t, c) :: pre, t', c', post, rfl, hrel⟩

/-- A client's handle is never put back in the pool, so its state only moves forward, over
every schedule. -/
theorem handle_reaches (h : JobsOk w) {t j : ℕ} (hj : j ∈ (w.threads t).handles) (sched : List (ℕ × Choice)) :
    JobState.Reaches (w.runner.jobs j).state ((w.run sched).runner.jobs j).state := by
  induction sched generalizing w with
  | nil => exact .refl
  | cons tc sched ih =>
    obtain ⟨h', hadv⟩ := h.step tc.1 tc.2
    have hr := ih h' (h.step_handles tc.1 tc.2 hj)
    rcases hadv j with heq | hstep | ⟨-, hnr⟩
    · exact heq ▸ hr
    · exact .head hstep hr
    · rw [(h.handle hj).2] at hnr
      exact absurd hnr Bool.false_ne_true

/-- A handle whose job is cancelling: its state stays `Cancelling` or becomes `Cancelled`, and
no worker calls its function, whatever follows. -/
theorem cancelling_never_runs (h : JobsOk w) {t j : ℕ} (hj : j ∈ (w.threads t).handles)
    (hc : (w.runner.jobs j).state = .cancelling) (sched : List (ℕ × Choice)) :
    (((w.run sched).runner.jobs j).state = .cancelling ∨ ((w.run sched).runner.jobs j).state = .cancelled) ∧
      ∀ s qi rest, (w.run sched).threads s ≠ .worker qi (.call j rest) := by
  have hs : Relation.ReflTransGen JobState.Step .cancelling ((w.run sched).runner.jobs j).state :=
    hc ▸ h.handle_reaches hj sched
  refine ⟨JobState.Reaches.of_cancelling hs, fun s qi rest hcall => ?_⟩
  have hrun := (h.run sched).call_running hcall
  rcases JobState.Reaches.of_cancelling hs with hs | hs <;> rw [hs] at hrun <;> cases hrun

theorem handle_complete_stays (h : JobsOk w) {t j : ℕ} (hj : j ∈ (w.threads t).handles)
    (hcomp : (w.runner.jobs j).isComplete = true) (sched : List (ℕ × Choice)) :
    ((w.run sched).runner.jobs j).state = (w.runner.jobs j).state :=
  (h.handle_reaches hj sched).of_ended ((Job.isComplete_iff _).1 hcomp)

theorem complete_never_called (h : JobsOk w) {t j : ℕ} (hj : j ∈ (w.threads t).handles)
    (hcomp : (w.runner.jobs j).isComplete = true) (sched : List (ℕ × Choice)) :
    ∀ s qi rest, (w.run sched).threads s ≠ .worker qi (.call j rest) := by
  intro s qi rest hcall
  have hrun := (h.run sched).call_running hcall
  rw [h.handle_complete_stays hj hcomp sched] at hrun
  exact ((Job.isComplete_iff _).1 hcomp).ne_running hrun

/-- A job that has left `Pending` is not pending again until a step puts it back in the
pool. A worker starts only a pending job's function, so it calls it at most once for each
`acquireJob`. -/
theorem run_not_pending (h : JobsOk w) {j : ℕ} (hj : (w.runner.jobs j).state ≠ .pending)
    (sched : List (ℕ × Choice)) :
    ((w.run sched).runner.jobs j).state ≠ .pending ∨
      ∃ pre t c post, sched = pre ++ (t, c) :: post ∧
        ((w.run pre).step t c).runner.jobPool = j :: (w.run pre).runner.jobPool :=
  (h.run_reaches j sched).imp_left fun hr => hr.ne_pending hj

end JobsOk

end Handles

end RunnerWorld

section Runs

variable {ν : Type} [DecidableEq ν]

open RunnerWorld

/-- From `NewRunner()` and any clients, whatever the schedule and whatever the jobs'
functions return, a job object's state only moves along
`Pending → Running → {Finished, Failed, Cancelled}` or `Pending → Cancelling → Cancelled`
between two points of a run, unless a step in between puts it back in the pool. -/
theorem runner_job_state_moves (default : ν) (scripts : List (List (RunnerCall ν)))
    (sched sched' : List (ℕ × Choice)) (j : ℕ) :
    JobState.Reaches (((init default scripts).run sched).runner.jobs j).state
        ((((init default scripts).run sched).run sched').runner.jobs j).state ∨
      ∃ pre t c post, sched' = pre ++ (t, c) :: post ∧
        ((((init default scripts).run sched).run pre).step t c).runner.jobPool =
          j :: (((init default scripts).run sched).run pre).runner.jobPool :=
  ((jobsOk_init default scripts).run sched).run_reaches j sched'

/-- A client's `Cancel()` that finds its job `Pending`: from then on, whatever the schedule,
the job is `Cancelling` or `Cancelled` and no worker calls its function. -/
theorem runner_cancel_pending_never_runs (default : ν) (scripts : List (List (RunnerCall ν)))
    (sched : List (ℕ × Choice)) {t hd j : ℕ} {rest : List (RunnerCall ν)} {handles : List ℕ}
    (hth : ((init default scripts).run sched).threads t = .client (.cancel hd :: rest) handles .start)
    (hj : handles[hd]? = some j) (hpend : (((init default scripts).run sched).runner.jobs j).state = .pending)
    (c : Choice) (sched' : List (ℕ × Choice)) :
    ((((((init default scripts).run sched).step t c).run sched').runner.jobs j).state = .cancelling ∨
        (((((init default scripts).run sched).step t c).run sched').runner.jobs j).state = .cancelled) ∧
      ∀ s qi rest', ((((init default scripts).run sched).step t c).run sched').threads s ≠ .worker qi (.call j rest') := by
  have h := (jobsOk_init default scripts).run sched
  have hjh : j ∈ (((init default scripts).run sched).threads t).handles := by
    rw [hth]; exact List.mem_of_getElem? hj
  have hc : ((((init default scripts).run sched).step t c).runner.jobs j).state = .cancelling := by
    simp [RunnerWorld.step, hth, clientStep, hj, Runner.cancelJob, hpend]
  exact (h.step t c).1.cancelling_never_runs (h.step_handles t c hjh) hc sched'

end Runs

/-- One client: `RunJobWithNamedWorkerWithCB` on the default worker, then `Cancel()` of that
job. -/
def cancelScripts : List (List (RunnerCall String)) := [[.runJob "__default__" 1 true, .cancel 0]]

/-- The client's `RunJob` has put its job in the default queue, before the worker takes it. -/
def cancelBeforeStart : RunnerWorld String :=
  (RunnerWorld.init "__default__" cancelScripts).run (List.replicate 5 (0, ⟨.ok, none, false⟩))

/-- The `Cancel()` finds the job pending; the worker then takes it and cancels it without
calling its function. -/
theorem cancelBeforeStart_never_runs :
    cancelBeforeStart.threads 0 = .client [.cancel 0] [0] .start ∧ (cancelBeforeStart.runner.jobs 0).state = .pending ∧
      ((((cancelBeforeStart.step 0 ⟨.ok, none, false⟩).run (List.replicate 6 (1, ⟨.ok, none, false⟩))).runner.jobs
          0).state = .cancelled ∧
      ((((cancelBeforeStart.step 0 ⟨.ok, none, false⟩).run (List.replicate 6 (1, ⟨.ok, none, false⟩))).runner.jobs
          0).state = .cancelling ∨
        (((cancelBeforeStart.step 0 ⟨.ok, none, false⟩).run (List.replicate 6 (1, ⟨.ok, none, false⟩))).runner.jobs
          0).state = .cancelled) ∧
        ∀ s qi rest', ((cancelBeforeStart.step 0 ⟨.ok, none, false⟩).run (List.replicate 6 (1, ⟨.ok, none, false⟩))).threads s ≠
          .worker qi (.call 0 rest')) :=
  ⟨by decide, by decide, by decide,
    @runner_cancel_pending_never_runs String _ "__default__" cancelScripts _ 0 0 0 [] [0] (by decide) rfl (by decide)
      _ _⟩

end WeedgePkg.Jobutils
