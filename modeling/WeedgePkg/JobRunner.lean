import WeedgePkg.Queue

/-!
# `jobutils.Runner`

The job runner over its named queues, as a transition system. Its state is the runner's lock
and `state`, the map from names to queues, the queues themselves (each the `Queue` of
`WeedgePkg.Jobutils.Queue`, holding job objects), the job objects with their `sync.Pool`, and
the counter of `s.stop`. A goroutine is a client making runner calls one after another, or a
worker started by `startWorker`. A step is a queue step, a lock section of the runner or of a
job (nothing inside one blocks, so it is one transition), or the return of a job's function.
-/

namespace WeedgePkg.Jobutils

inductive JobState where
  | pending
  | running
  | cancelling
  | cancelled
  | finished
  | failed
  deriving DecidableEq, Repr

inductive RunnerState where
  | running
  | stopping
  | stopped
  deriving DecidableEq, Repr

/-- A `Job` object: its state, its function (named by the task its caller gave; `none` once
`reset`), and `needRelease`. -/
structure Job where
  state : JobState
  fn : Option ℕ
  needRelease : Bool
  deriving DecidableEq, Repr

def Job.blank : Job := ⟨.pending, none, true⟩

/-- What a job's function returns: `nil`, `ErrJobCancelled`, or another error. -/
inductive Outcome where
  | ok
  | cancelledErr
  | otherErr
  deriving DecidableEq, Repr

/-- What the environment decides at a step: what a job's function returns, which job object
`jobPool.Get()` returns (`none`: `nil`), and whether the minute `Stop` waits for has passed. -/
structure Choice where
  outcome : Outcome
  pick : Option ℕ
  timeUp : Bool
  deriving DecidableEq, Repr

/-- `Runner`, with its named queues and the job objects. `made` counts the `&Job{}` made so
far, and `live` is the counter of `s.stop`: the goroutines `GoSafely` started that have not
returned. -/
structure Runner (ν : Type) where
  lock : Option ℕ
  state : RunnerState
  namedQueue : ν → Option ℕ
  queues : List (Queue ℕ ℕ)
  jobs : ℕ → Job
  made : ℕ
  jobPool : List ℕ
  live : ℕ

/-- A call of a runner's user. `runJob worker task cb` is `RunJobWithNamedWorkerWithCB`, and
`RunJob` is the call on the default name; a callback keeps the job as the user's next
handle. `cancel h` is `Cancel()` on the job of handle `h`. -/
inductive RunnerCall (ν : Type) where
  | addNamedWorker (name : ν)
  | runJob (worker : ν) (task : ℕ) (cb : Bool)
  | cancel (handle : ℕ)
  | stop
  deriving DecidableEq, Repr

/-- Where a client is in its current call: before it, at the `startWorker` of
`AddNamedWorker`, in `q.Put(job)` under the runner's lock, in `Stop`'s `q.Dispose()` of a
queue, or at `Stop`'s wait for the runner's goroutines. -/
inductive ClientPc where
  | start
  | addStart (qi : ℕ)
  | put (qi job : ℕ) (pc : Queue.PutPc ℕ)
  | dispose (qi : ℕ) (pc : Queue.DisposePc ℕ ℕ)
  | wait
  deriving DecidableEq, Repr

/-- Where a worker of `startWorker` is: in `q.Get(batch, jobs)`, at `job.Lock()` for the
first of the jobs it got, in `job.fun()`, at `if job.needRelease`, or returned. -/
inductive JobWorkerPc where
  | get (pc : Queue.PollPc ℕ)
  | next (jobs : List ℕ)
  | call (job : ℕ) (rest : List ℕ)
  | release (job : ℕ) (rest : List ℕ)
  | returned
  deriving DecidableEq, Repr

/-- A goroutine: not started, a client with its calls left and its handles, or a worker of
a queue. -/
inductive RThread (ν : Type) where
  | idle
  | client (calls : List (RunnerCall ν)) (handles : List ℕ) (pc : ClientPc)
  | worker (qi : ℕ) (pc : JobWorkerPc)
  deriving DecidableEq, Repr

def batch : ℤ := 64

/-- The runner and every goroutine; `next` is the goroutine the next `go` statement starts. -/
structure RunnerWorld (ν : Type) where
  runner : Runner ν
  threads : ℕ → RThread ν
  next : ℕ

namespace Runner

variable {ν : Type}

def queue (r : Runner ν) (qi : ℕ) : Queue ℕ ℕ := r.queues.getD qi newQueue

def setQueue (r : Runner ν) (qi : ℕ) (q : Queue ℕ ℕ) : Runner ν := { r with queues := r.queues.set qi q }

def setJob (r : Runner ν) (j : ℕ) (job : Job) : Runner ν := { r with jobs := Function.update r.jobs j job }

/-- `acquireJob()`: a job object from the pool, or `&Job{}`. -/
def acquireJob (r : Runner ν) (pick : Option ℕ) : ℕ × Runner ν :=
  match pick with
  | some k =>
    if k < r.jobPool.length then (r.jobPool.getD k 0, { r with jobPool := r.jobPool.eraseIdx k })
    else (r.made, { r.setJob r.made ⟨.pending, none, false⟩ with made := r.made + 1 })
  | none => (r.made, { r.setJob r.made ⟨.pending, none, false⟩ with made := r.made + 1 })

/-- `releaseJob(job)`: `reset()`, then `jobPool.Put(job)`. -/
def releaseJob (r : Runner ν) (j : ℕ) : Runner ν := { r.setJob j Job.blank with jobPool := j :: r.jobPool }

/-- The section of `Cancel()` under the job's lock. -/
def cancelJob (r : Runner ν) (j : ℕ) : Runner ν :=
  if (r.jobs j).state = .pending then r.setJob j { r.jobs j with state := .cancelling } else r

/-- The worker's section at `job.Lock()`: a pending job starts running, a cancelling one is
cancelled. -/
def startJob (r : Runner ν) (j : ℕ) : Runner ν × Bool :=
  match (r.jobs j).state with
  | .pending => (r.setJob j { r.jobs j with state := .running }, true)
  | .cancelling => (r.setJob j { r.jobs j with state := .cancelled }, false)
  | _ => (r, false)

/-- The worker's section after `job.fun()` returned `outcome`. -/
def finishJob (r : Runner ν) (j : ℕ) (outcome : Outcome) : Runner ν :=
  let state := match outcome with
    | .cancelledErr => .cancelled
    | .otherErr => .failed
    | .ok => if (r.jobs j).state = .cancelling then .cancelled else .finished
  r.setJob j { r.jobs j with state := state }

end Runner

namespace RunnerWorld

variable {ν : Type} [DecidableEq ν]

def setThread (w : RunnerWorld ν) (t : ℕ) (th : RThread ν) : RunnerWorld ν :=
  { w with threads := Function.update w.threads t th }

/-- `safer.GoSafely(&s.stop, ...)` of a worker of queue `qi`. -/
def spawnWorker (w : RunnerWorld ν) (qi : ℕ) : RunnerWorld ν :=
  { w with
    runner := { w.runner with live := w.runner.live + 1 }
    threads := Function.update w.threads w.next (.worker qi (.get .start))
    next := w.next + 1 }

def clientStep (w : RunnerWorld ν) (t : ℕ) (calls : List (RunnerCall ν)) (handles : List ℕ) (c : Choice) :
    ClientPc → RunnerWorld ν
  | .start =>
    match calls with
    | [] => w
    | .addNamedWorker name :: _ =>
      -- the first section of `AddNamedWorker`: the name's queue, made if it has none
      if w.runner.lock = none then
        match w.runner.namedQueue name with
        | some qi => w.setThread t (.client calls handles (.addStart qi))
        | none =>
          let qi := w.runner.queues.length
          { w.setThread t (.client calls handles (.addStart qi)) with
            runner := { w.runner with
              namedQueue := Function.update w.runner.namedQueue name (some qi)
              queues := w.runner.queues ++ [newQueue] } }
      else w
    | .runJob worker task cb :: rest =>
      if w.runner.lock = none then
        if w.runner.state ≠ .running then w.setThread t (.client rest handles .start)
        else
          -- `newJob(desc, task)`, before the name is looked up
          let (j, r) := w.runner.acquireJob c.pick
          let r := r.setJob j ⟨.pending, some task, true⟩
          match r.namedQueue worker with
          | none => { w.setThread t (.client rest handles .start) with runner := r }
          | some qi =>
            let r := if cb then r.setJob j { r.jobs j with needRelease := false } else r
            let handles := if cb then handles ++ [j] else handles
            { w.setThread t (.client calls handles (.put qi j .start)) with runner := { r with lock := some t } }
      else w
    | .cancel h :: rest =>
      match handles[h]? with
      | some j => { w.setThread t (.client rest handles .start) with runner := w.runner.cancelJob j }
      | none => w.setThread t (.client rest handles .start)
    | .stop :: rest =>
      if w.runner.lock = none then
        if w.runner.state = .running then
          { w.setThread t (.client calls handles (.dispose 0 .start)) with
            runner := { w.runner with lock := some t, state := .stopping } }
        else w.setThread t (.client rest handles .start)
      else w
  | .addStart qi =>
    -- `RunCancelableTask` of `startWorker`
    if w.runner.lock = none then
      let w := w.setThread t (.client calls.tail handles .start)
      if w.runner.state = .running then w.spawnWorker qi else w
    else w
  | .put qi j pc =>
    match pc with
    | .done _ => { w.setThread t (.client calls.tail handles .start) with runner := { w.runner with lock := none } }
    | pc =>
      let (q, pc) := Queue.putStep t (· ++ [j]) (w.runner.queue qi) pc
      { w.setThread t (.client calls handles (.put qi j pc)) with runner := w.runner.setQueue qi q }
  | .dispose qi pc =>
    if qi < w.runner.queues.length then
      match Queue.disposeStep t (w.runner.queue qi) pc with
      | (q, .done _) => { w.setThread t (.client calls handles (.dispose (qi + 1) .start)) with
          runner := w.runner.setQueue qi q }
      | (q, pc) => { w.setThread t (.client calls handles (.dispose qi pc)) with runner := w.runner.setQueue qi q }
    else w.setThread t (.client calls handles .wait)
  | .wait =>
    -- `s.stop.Wait()` against `time.After(defaultWaitStoppedTimeout)`
    if w.runner.live = 0 then
      { w.setThread t (.client calls.tail handles .start) with
        runner := { w.runner with state := .stopped, lock := none } }
    else if c.timeUp then
      { w.setThread t (.client calls.tail handles .start) with runner := { w.runner with lock := none } }
    else w

def workerStep (w : RunnerWorld ν) (t qi : ℕ) (c : Choice) : JobWorkerPc → RunnerWorld ν
  | .get pc =>
    match pc with
    | .done taken none => w.setThread t (.worker qi (.next taken))
    | .done _ (some _) | .panicked =>
      -- the goroutine returns, and `GoSafely`'s deferred `Done()` follows
      { w.setThread t (.worker qi .returned) with runner := { w.runner with live := w.runner.live - 1 } }
    | pc =>
      let (q, pc) := Queue.pollStep t batch false false (w.runner.queue qi) pc
      { w.setThread t (.worker qi (.get pc)) with runner := w.runner.setQueue qi q }
  | .next [] => w.setThread t (.worker qi (.get .start))
  | .next (j :: rest) =>
    let (r, started) := w.runner.startJob j
    { w.setThread t (.worker qi (if started then .call j rest else .release j rest)) with runner := r }
  | .call j rest => { w.setThread t (.worker qi (.release j rest)) with runner := w.runner.finishJob j c.outcome }
  | .release j rest =>
    let r := if (w.runner.jobs j).needRelease then w.runner.releaseJob j else w.runner
    { w.setThread t (.worker qi (.next rest)) with runner := r }
  | .returned => w

def step (w : RunnerWorld ν) (t : ℕ) (c : Choice) : RunnerWorld ν :=
  match w.threads t with
  | .idle => w
  | .client calls handles pc => w.clientStep t calls handles c pc
  | .worker qi pc => w.workerStep t qi c pc

def run (w : RunnerWorld ν) : List (ℕ × Choice) → RunnerWorld ν
  | [] => w
  | (t, c) :: sched => (w.step t c).run sched

/-- `NewRunner()`, whose `AddNamedWorker(defaultQueueName)` has made the default queue and
started its worker, and the clients, goroutines `0` to `n - 1` for `n` scripts. -/
def init (default : ν) (scripts : List (List (RunnerCall ν))) : RunnerWorld ν :=
  let w : RunnerWorld ν :=
    ⟨⟨none, .running, fun name => if name = default then some 0 else none, [newQueue],
      fun _ => ⟨.pending, none, false⟩, 0, [], 0⟩,
     fun t => match scripts[t]? with
      | some calls => .client calls [] .start
      | none => .idle,
     scripts.length⟩
  w.spawnWorker 0

/-! ## A second worker on a queue -/

variable {w : RunnerWorld ν}

/-- A step of a goroutine changes no other goroutine, except the one a `go` statement starts. -/
theorem step_other (t : ℕ) (c : Choice) {t' : ℕ} (ht : t' ≠ t) (hnext : t' ≠ w.next) :
    (w.step t c).threads t' = w.threads t' := by
  unfold step
  split
  · rfl
  · rename_i calls handles pc _
    cases pc <;> simp only [clientStep] <;> (repeat' split) <;>
      simp_all [setThread, spawnWorker, Function.update_of_ne]
  · rename_i qi pc _
    cases pc <;> simp only [workerStep] <;> (repeat' split) <;> simp_all [setThread, Function.update_of_ne]

/-- `AddNamedWorker` on a name that has a queue keeps that queue and starts one more worker on
it, beside the workers it has. -/
theorem addNamedWorker_existing {t : ℕ} {name : ν} {rest : List (RunnerCall ν)} {handles : List ℕ} {qi : ℕ}
    (hclient : w.threads t = .client (.addNamedWorker name :: rest) handles .start)
    (hname : w.runner.namedQueue name = some qi) (hlock : w.runner.lock = none)
    (hstate : w.runner.state = .running) (c c' : Choice) :
    ((w.step t c).step t c').threads w.next = .worker qi (.get .start) ∧
      ((w.step t c).step t c').runner.queues = w.runner.queues ∧
      ((w.step t c).step t c').runner.live = w.runner.live + 1 ∧
      ∀ t' < w.next, t' ≠ t → ((w.step t c).step t c').threads t' = w.threads t' := by
  have h1 : w.step t c = w.setThread t (.client (.addNamedWorker name :: rest) handles (.addStart qi)) := by
    rw [step, hclient]
    simp only [clientStep, hlock, hname, if_true]
  have h2 : (w.step t c).step t c' = (w.setThread t (.client rest handles .start)).spawnWorker qi := by
    rw [h1]
    simp only [step, setThread, Function.update_self, clientStep, hlock, hstate, if_true, List.tail_cons,
      Function.update_idem]
  rw [h2]
  refine ⟨by simp [spawnWorker, setThread], rfl, rfl, fun t' ht' hne => ?_⟩
  simp only [spawnWorker, setThread]
  rw [Function.update_of_ne (Nat.ne_of_lt ht'), Function.update_of_ne hne]

end RunnerWorld

/-- `NewRunner()` and one client: `AddNamedWorker(defaultQueueName)`, then two `RunJob`s. -/
def twoDefaultWorkersScripts : List (List (RunnerCall String)) :=
  [[.addNamedWorker "__default__", .runJob "__default__" 1 false, .runJob "__default__" 2 false]]

/-- Both workers of the default queue wait in `Get`; each `Put` hands its job to one of them;
then both take their job's lock. -/
def twoDefaultWorkersRun : RunnerWorld String :=
  (RunnerWorld.init "__default__" twoDefaultWorkersScripts).run
    (([1, 1, 1, 0, 0, 2, 2, 2, 0, 0, 0, 0, 0, 1, 1, 0, 0, 0, 0, 0, 0, 0, 0, 2, 2, 0, 0, 0, 1, 1, 2, 2] : List ℕ).map
      fun t => (t, ⟨.ok, none, false⟩))

/-- The two jobs of the default worker run at once, each in its own worker's `job.fun()`. -/
theorem default_worker_jobs_run_at_once :
    twoDefaultWorkersRun.threads 1 = .worker 0 (.call 0 []) ∧
      twoDefaultWorkersRun.threads 2 = .worker 0 (.call 1 []) ∧
      twoDefaultWorkersRun.runner.jobs 0 = ⟨.running, some 1, true⟩ ∧
      twoDefaultWorkersRun.runner.jobs 1 = ⟨.running, some 2, true⟩ := by
  decide

end WeedgePkg.Jobutils
