import WeedgePkg.GoChan
import Mathlib.Algebra.BigOperators.Group.Finset.Basic
import Mathlib.Algebra.Order.BigOperators.Group.Finset

/-!
# `asynctask.AsyncTask` and its name registry

A task is a buffered channel of `IAsyncTask`s read by `goNumber` goroutines, each started by
`safer.GoSafely` on the task's `WaitGroup`; `Post` sends on the channel and `Close` removes the
task's name from the global `HashSet`, closes the channel and waits for the goroutines. The
package is a transition system over the registry, the tasks made so far and the goroutines: a
client makes `GetNamedAsyncTask`, `Post` and `Close` calls one after another, a worker runs the
loop of `run`. A step is one statement that touches shared state: the `Contains` check, the
rest of `GetNamedAsyncTask` (nothing else can reach the new task before it returns), one send
of `Post`, each of the three statements of `Close`, a receive, or a call of `Run` or `onError`
with its outcome. `sent`, `recvd` and `ran` are histories, read only by the specification.
-/

namespace WeedgePkg.Set

variable {α : Type} [DecidableEq α]

/-- `HashSet`: the keys of `Items`. -/
structure HashSet (α : Type) where
  items : Finset α

namespace HashSet

def add (set : HashSet α) (items : List α) : HashSet α :=
  ⟨items.foldl (fun acc item => insert item acc) set.items⟩

def remove (set : HashSet α) (items : List α) : HashSet α :=
  ⟨items.foldl (fun acc item => acc.erase item) set.items⟩

def contains (set : HashSet α) (items : List α) : Bool :=
  items.all (· ∈ set.items)

variable (set : HashSet α) (items : List α)

theorem add_items : (set.add items).items = set.items ∪ items.toFinset := by
  induction items generalizing set with
  | nil => simp [add]
  | cons item items ih =>
    have := ih ⟨insert item set.items⟩
    simp only [add, List.foldl_cons] at this ⊢
    rw [this, List.toFinset_cons, Finset.union_insert, Finset.insert_union]

theorem remove_items : (set.remove items).items = set.items \ items.toFinset := by
  induction items generalizing set with
  | nil => simp [remove]
  | cons item items ih =>
    have := ih ⟨set.items.erase item⟩
    simp only [remove, List.foldl_cons] at this ⊢
    rw [this, List.toFinset_cons, Finset.sdiff_insert, Finset.erase_sdiff_comm]

theorem contains_iff : set.contains items = true ↔ ∀ item ∈ items, item ∈ set.items := by
  simp [contains]

end HashSet

def newSet (values : List α) : HashSet α :=
  if values.length > 0 then HashSet.add ⟨∅⟩ values else ⟨∅⟩

end WeedgePkg.Set

namespace WeedgePkg.Asynctask

open GoChan WeedgePkg.Set

/-- What a call of a task's `Run`, or of `onError`, does: return `nil`, return an error, or
panic. -/
inductive Outcome where
  | ok
  | err
  | panic
  deriving DecidableEq, Repr

/-- An `AsyncTask`: its name, its channel with what was sent on it and received from it, the
counter of `wg`, whether `onError` is not `nil`, and the tasks whose `Run` was called. -/
structure AsyncTask (τ : Type) where
  name : String
  ch : Logged τ
  wg : ℕ
  onError : Bool
  ran : List τ

/-- `if n < 1 { n = 1 }` -/
def atLeastOne (n : ℤ) : ℕ := if n < 1 then 1 else n.toNat

theorem atLeastOne_pos (n : ℤ) : 0 < atLeastOne n := by
  unfold atLeastOne
  split <;> omega

/-- The task `GetNamedAsyncTask` makes, before its goroutines start. -/
def newTask {τ : Type} (name : String) (taskChanNumber : ℤ) (onError : Bool) : AsyncTask τ :=
  ⟨name, Logged.make (atLeastOne taskChanNumber) (atLeastOne_pos _), 0, onError, []⟩

/-- `fmt.Errorf("asynctask name duplicated: %v", name)` -/
def duplicated (name : String) : String := "asynctask name duplicated: " ++ name

/-- A call of a user of the package. A task is named by the order it was made in. -/
inductive Call (τ : Type) where
  | getNamed (name : String) (taskChanNumber goNumber : ℤ) (onError : Bool)
  | post (task : ℕ) (tasks : List τ)
  | close (task : ℕ)
  deriving DecidableEq, Repr

/-- Where a client is: between calls, past the `Contains` check of `GetNamedAsyncTask`, at the
send of `Post` of the first of `tasks`, at the `Remove`, the `close` or the `Wait` of
`Close`, or panicked. -/
inductive ClientPc (τ : Type) where
  | start
  | add (name : String) (taskChanNumber goNumber : ℤ) (onError : Bool)
  | post (task : ℕ) (tasks : List τ)
  | remove (task : ℕ)
  | closeCh (task : ℕ)
  | wait (task : ℕ)
  | panicked
  deriving DecidableEq, Repr

/-- Where a goroutine of `run` is: at the receive, at the call of `Run` of `x`, at the call of
`onError` for its error, returned from the loop, or returned by a panic that `GoSafely`
recovered. -/
inductive WorkerPc (τ : Type) where
  | recv
  | run (x : τ)
  | onError (x : τ)
  | done
  | dead
  deriving DecidableEq, Repr

/-- A goroutine: not started, a client with its calls left and what its `GetNamedAsyncTask`s
returned, or a worker of a task. -/
inductive AThread (τ : Type) where
  | idle
  | client (calls : List (Call τ)) (results : List (Except String ℕ)) (pc : ClientPc τ)
  | worker (task : ℕ) (pc : WorkerPc τ)
  deriving DecidableEq, Repr

def ClientPc.task {τ : Type} : ClientPc τ → Option ℕ
  | .post k _ | .remove k | .closeCh k | .wait k => some k
  | _ => none

def WorkerPc.live {τ : Type} : WorkerPc τ → ℕ
  | .done | .dead => 0
  | _ => 1

/-- The task a goroutine has received and not yet run. -/
def WorkerPc.taken {τ : Type} : WorkerPc τ → Multiset τ
  | .run x => {x}
  | _ => 0

def AThread.live {τ : Type} (k : ℕ) : AThread τ → ℕ
  | .worker k' pc => if k' = k then pc.live else 0
  | _ => 0

def AThread.taken {τ : Type} (k : ℕ) : AThread τ → Multiset τ
  | .worker k' pc => if k' = k then pc.taken else 0
  | _ => 0

section Counts

variable {τ : Type} {k : ℕ}

@[simp] theorem AThread.live_idle : (AThread.idle : AThread τ).live k = 0 := rfl
@[simp] theorem AThread.live_client (calls : List (Call τ)) (results : List (Except String ℕ)) (pc : ClientPc τ) :
    (AThread.client calls results pc).live k = 0 := rfl
@[simp] theorem AThread.live_worker_self (pc : WorkerPc τ) : (AThread.worker k pc).live k = pc.live := if_pos rfl
theorem AThread.live_worker_ne {k' : ℕ} (h : k' ≠ k) (pc : WorkerPc τ) : (AThread.worker k' pc).live k = 0 := if_neg h
@[simp] theorem AThread.taken_idle : (AThread.idle : AThread τ).taken k = 0 := rfl
@[simp] theorem AThread.taken_client (calls : List (Call τ)) (results : List (Except String ℕ)) (pc : ClientPc τ) :
    (AThread.client calls results pc).taken k = 0 := rfl
@[simp] theorem AThread.taken_worker_self (pc : WorkerPc τ) : (AThread.worker k pc).taken k = pc.taken := if_pos rfl
theorem AThread.taken_worker_ne {k' : ℕ} (h : k' ≠ k) (pc : WorkerPc τ) : (AThread.worker k' pc).taken k = 0 := if_neg h

theorem WorkerPc.taken_eq_zero {pc : WorkerPc τ} (h : pc.live = 0) : pc.taken = 0 := by
  cases pc <;> simp_all [WorkerPc.live, WorkerPc.taken]

theorem AThread.taken_eq_zero {th : AThread τ} (h : th.live k = 0) : th.taken k = 0 := by
  cases th with
  | idle => rfl
  | client calls results pc => rfl
  | worker k' pc =>
    by_cases hk : k' = k
    · subst hk
      rw [AThread.live_worker_self] at h
      rw [AThread.taken_worker_self, WorkerPc.taken_eq_zero h]
    · exact AThread.taken_worker_ne hk pc

end Counts

/-- `asyncTaskNames`, the tasks made so far, and every goroutine; `next` is the goroutine the
next `go` statement starts. -/
structure AsyncWorld (τ : Type) where
  asyncTaskNames : HashSet String
  tasks : ℕ → AsyncTask τ
  made : ℕ
  threads : ℕ → AThread τ
  next : ℕ

namespace AsyncWorld

variable {τ : Type}

def setThread (w : AsyncWorld τ) (t : ℕ) (th : AThread τ) : AsyncWorld τ :=
  { w with threads := Function.update w.threads t th }

def setTask (w : AsyncWorld τ) (k : ℕ) (task : AsyncTask τ) : AsyncWorld τ :=
  { w with tasks := Function.update w.tasks k task }

def setNames (w : AsyncWorld τ) (names : HashSet String) : AsyncWorld τ :=
  { w with asyncTaskNames := names }

/-- `new(AsyncTask)` with its fields set. -/
def makeTask (w : AsyncWorld τ) (task : AsyncTask τ) : AsyncWorld τ :=
  { w with tasks := Function.update w.tasks w.made task, made := w.made + 1 }

/-- `safer.GoSafely(&asyncTask.wg, ...)` for task `k`: `wg.Add(1)`, then a goroutine running
`run`. -/
def spawnWorker (w : AsyncWorld τ) (k : ℕ) : AsyncWorld τ :=
  { w with
    tasks := Function.update w.tasks k { w.tasks k with wg := (w.tasks k).wg + 1 }
    threads := Function.update w.threads w.next (.worker k .recv)
    next := w.next + 1 }

/-- `for i := 0; i < goNumber; i++ { safer.GoSafely(...) }` -/
def spawnWorkers (w : AsyncWorld τ) (k : ℕ) : ℕ → AsyncWorld τ
  | 0 => w
  | n + 1 => (w.spawnWorker k).spawnWorkers k n

/-- A worker returns, and `GoSafely`'s deferred `wg.Done()` follows. -/
def workerReturns (w : AsyncWorld τ) (t k : ℕ) (pc : WorkerPc τ) : AsyncWorld τ :=
  (w.setThread t (.worker k pc)).setTask k { w.tasks k with wg := (w.tasks k).wg - 1 }

def clientStep (w : AsyncWorld τ) (t : ℕ) (calls : List (Call τ)) (results : List (Except String ℕ)) :
    ClientPc τ → AsyncWorld τ
  | .start =>
    match calls with
    | [] => w
    | .getNamed name taskChanNumber goNumber onError :: rest =>
      if w.asyncTaskNames.contains [name] then
        w.setThread t (.client rest (results ++ [.error (duplicated name)]) .start)
      else w.setThread t (.client rest results (.add name taskChanNumber goNumber onError))
    | .post k tasks :: rest =>
      -- a goroutine has a task's pointer only once the task is made
      if k < w.made then w.setThread t (.client rest results (.post k tasks)) else w
    | .close k :: rest =>
      if k < w.made then w.setThread t (.client rest results (.remove k)) else w
  | .add name taskChanNumber goNumber onError =>
    let k := w.made
    ((((w.setNames (w.asyncTaskNames.add [name])).makeTask (newTask name taskChanNumber onError)).setThread t
      (.client calls (results ++ [.ok k]) .start)).spawnWorkers k (atLeastOne goNumber))
  | .post _ [] => w.setThread t (.client calls results .start)
  | .post k (x :: tasks) =>
    match (w.tasks k).ch.send x with
    | .sent ch => (w.setThread t (.client calls results (.post k tasks))).setTask k { w.tasks k with ch := ch }
    | .blocked => w
    | .panicked => w.setThread t (.client calls results .panicked)
  | .remove k =>
    (w.setThread t (.client calls results (.closeCh k))).setNames (w.asyncTaskNames.remove [(w.tasks k).name])
  | .closeCh k =>
    match (w.tasks k).ch.close with
    | some ch => (w.setThread t (.client calls results (.wait k))).setTask k { w.tasks k with ch := ch }
    | none => w.setThread t (.client calls results .panicked)
  | .wait k => if (w.tasks k).wg = 0 then w.setThread t (.client calls results .start) else w
  | .panicked => w

def workerStep (w : AsyncWorld τ) (t k : ℕ) (c : Outcome) : WorkerPc τ → AsyncWorld τ
  | .recv =>
    match (w.tasks k).ch.recv with
    | .value x ch => (w.setThread t (.worker k (.run x))).setTask k { w.tasks k with ch := ch }
    | .closed => w.workerReturns t k .done
    | .blocked => w
  | .run x =>
    let w' := w.setTask k { w.tasks k with ran := (w.tasks k).ran ++ [x] }
    match c with
    | .ok => w'.setThread t (.worker k .recv)
    | .err => w'.setThread t (.worker k (if (w.tasks k).onError then .onError x else .recv))
    | .panic => w'.workerReturns t k .dead
  | .onError _ =>
    match c with
    | .panic => w.workerReturns t k .dead
    | _ => w.setThread t (.worker k .recv)
  | .done => w
  | .dead => w

/-- One step of goroutine `t`; `c` is what a call of `Run` or `onError` does. -/
def step (w : AsyncWorld τ) (t : ℕ) (c : Outcome) : AsyncWorld τ :=
  match w.threads t with
  | .idle => w
  | .client calls results pc => w.clientStep t calls results pc
  | .worker k pc => w.workerStep t k c pc

def run (w : AsyncWorld τ) : List (ℕ × Outcome) → AsyncWorld τ
  | [] => w
  | (t, c) :: sched => (w.step t c).run sched

/-- The package after its `init()`, with the clients, goroutines `0` to `n - 1` for `n`
scripts. The tasks not made yet are never read. -/
def init (scripts : List (List (Call τ))) : AsyncWorld τ :=
  ⟨newSet [], fun _ => newTask "" 1 false, 0,
   fun t => match scripts[t]? with
    | some calls => .client calls [] .start
    | none => .idle,
   scripts.length⟩

/-! ## Where the tasks are -/

@[simp] theorem setThread_tasks (w : AsyncWorld τ) (t : ℕ) (th : AThread τ) : (w.setThread t th).tasks = w.tasks := rfl
@[simp] theorem setThread_made (w : AsyncWorld τ) (t : ℕ) (th : AThread τ) : (w.setThread t th).made = w.made := rfl
@[simp] theorem setThread_next (w : AsyncWorld τ) (t : ℕ) (th : AThread τ) : (w.setThread t th).next = w.next := rfl
@[simp] theorem setThread_threads (w : AsyncWorld τ) (t : ℕ) (th : AThread τ) :
    (w.setThread t th).threads = Function.update w.threads t th := rfl
@[simp] theorem setTask_tasks (w : AsyncWorld τ) (k : ℕ) (task : AsyncTask τ) :
    (w.setTask k task).tasks = Function.update w.tasks k task := rfl
@[simp] theorem setTask_made (w : AsyncWorld τ) (k : ℕ) (task : AsyncTask τ) : (w.setTask k task).made = w.made := rfl
@[simp] theorem setTask_next (w : AsyncWorld τ) (k : ℕ) (task : AsyncTask τ) : (w.setTask k task).next = w.next := rfl
@[simp] theorem setTask_threads (w : AsyncWorld τ) (k : ℕ) (task : AsyncTask τ) : (w.setTask k task).threads = w.threads := rfl
@[simp] theorem setNames_tasks (w : AsyncWorld τ) (names : HashSet String) : (w.setNames names).tasks = w.tasks := rfl
@[simp] theorem setNames_made (w : AsyncWorld τ) (names : HashSet String) : (w.setNames names).made = w.made := rfl
@[simp] theorem setNames_next (w : AsyncWorld τ) (names : HashSet String) : (w.setNames names).next = w.next := rfl
@[simp] theorem setNames_threads (w : AsyncWorld τ) (names : HashSet String) :
    (w.setNames names).threads = w.threads := rfl

theorem setTask_self (w : AsyncWorld τ) (k : ℕ) : w.setTask k (w.tasks k) = w := by
  simp only [setTask, Function.update_eq_self]

theorem setThread_setTask_self (w : AsyncWorld τ) (t : ℕ) (th : AThread τ) (k : ℕ) :
    (w.setThread t th).setTask k (w.tasks k) = w.setThread t th :=
  setTask_self _ k

/-- The goroutines of task `k` that have not returned, which `wg` counts. -/
def liveWorkers (w : AsyncWorld τ) (k : ℕ) : ℕ := ∑ t ∈ Finset.range w.next, (w.threads t).live k

/-- The tasks of `k` its goroutines have received and not yet run. -/
def inFlight (w : AsyncWorld τ) (k : ℕ) : Multiset τ := ∑ t ∈ Finset.range w.next, (w.threads t).taken k

@[simp] theorem liveWorkers_setTask (w : AsyncWorld τ) (k k' : ℕ) (task : AsyncTask τ) :
    (w.setTask k task).liveWorkers k' = w.liveWorkers k' := rfl
@[simp] theorem inFlight_setTask (w : AsyncWorld τ) (k k' : ℕ) (task : AsyncTask τ) :
    (w.setTask k task).inFlight k' = w.inFlight k' := rfl

theorem setTask_setThread (w : AsyncWorld τ) (k t : ℕ) (task : AsyncTask τ) (th : AThread τ) :
    (w.setTask k task).setThread t th = (w.setThread t th).setTask k task := rfl

theorem setTask_setTask (w : AsyncWorld τ) (k : ℕ) (task task' : AsyncTask τ) :
    (w.setTask k task).setTask k task' = w.setTask k task' := by
  simp only [setTask, Function.update_idem]

theorem workerReturns_setTask (w : AsyncWorld τ) (t k : ℕ) (task : AsyncTask τ) (pc : WorkerPc τ) :
    (w.setTask k task).workerReturns t k pc = (w.setThread t (.worker k pc)).setTask k { task with wg := task.wg - 1 } := by
  rw [workerReturns, setTask_tasks, Function.update_self, setTask_setThread, setTask_setTask]

theorem sum_setThread {M : Type} [AddCommMonoid M] (w : AsyncWorld τ) (f : AThread τ → M) {t : ℕ}
    (ht : t < w.next) (th : AThread τ) :
    ∑ s ∈ Finset.range w.next, f ((w.setThread t th).threads s) + f (w.threads t) =
      ∑ s ∈ Finset.range w.next, f (w.threads s) + f th := by
  have hmem := Finset.mem_range.2 ht
  have hrest : ∑ s ∈ (Finset.range w.next).erase t, f ((w.setThread t th).threads s) =
      ∑ s ∈ (Finset.range w.next).erase t, f (w.threads s) :=
    Finset.sum_congr rfl fun s hs => by
      rw [setThread_threads, Function.update_of_ne (Finset.ne_of_mem_erase hs)]
  rw [← Finset.add_sum_erase _ _ hmem, ← Finset.add_sum_erase _ (fun s => f (w.threads s)) hmem, hrest,
    setThread_threads, Function.update_self]
  ac_rfl

theorem sum_spawnWorker {M : Type} [AddCommMonoid M] (w : AsyncWorld τ) (f : AThread τ → M) (k : ℕ) :
    ∑ s ∈ Finset.range (w.spawnWorker k).next, f ((w.spawnWorker k).threads s) =
      ∑ s ∈ Finset.range w.next, f (w.threads s) + f (.worker k .recv) := by
  simp only [spawnWorker, Finset.sum_range_succ, Function.update_self]
  congr 1
  exact Finset.sum_congr rfl fun s hs => by
    rw [Function.update_of_ne (Finset.mem_range.1 hs).ne]

theorem liveWorkers_setThread (w : AsyncWorld τ) {t : ℕ} (ht : t < w.next) (th : AThread τ) (k : ℕ) :
    (w.setThread t th).liveWorkers k + (w.threads t).live k = w.liveWorkers k + th.live k :=
  sum_setThread w (AThread.live k) ht th

theorem inFlight_setThread (w : AsyncWorld τ) {t : ℕ} (ht : t < w.next) (th : AThread τ) (k : ℕ) :
    (w.setThread t th).inFlight k + (w.threads t).taken k = w.inFlight k + th.taken k :=
  sum_setThread w (AThread.taken k) ht th

/-- What holds in every world a run reaches: the goroutines past `next` are not started, the
goroutines name tasks made, `wg` counts the goroutines of its task that have not returned,
what a task's goroutines received is what they ran or are about to run, and a goroutine
returns from `run`'s loop only when the channel is closed and drained. -/
structure Counted (w : AsyncWorld τ) : Prop where
  idle : ∀ t, w.next ≤ t → w.threads t = .idle
  worker_lt : ∀ t k pc, w.threads t = .worker k pc → k < w.made
  client_lt : ∀ t calls results pc k, w.threads t = .client calls results pc → pc.task = some k → k < w.made
  wg : ∀ k, (w.tasks k).wg = w.liveWorkers k
  recvd : ∀ k, ((w.tasks k).ch.recvd : Multiset τ) = (w.tasks k).ran + w.inFlight k
  drained : ∀ t k, w.threads t = .worker k .done → (w.tasks k).ch.ch.closed = true ∧ (w.tasks k).ch.ch.buf = []

/-- `Counted`, and every task made has a goroutine: `goNumber` is at least one. -/
structure AsyncOk (w : AsyncWorld τ) : Prop extends Counted w where
  started : ∀ k < w.made, ∃ t pc, w.threads t = .worker k pc

@[simp] theorem spawnWorkers_made (w : AsyncWorld τ) (k n : ℕ) : (w.spawnWorkers k n).made = w.made := by
  induction n generalizing w with
  | zero => rfl
  | succ n ih => exact ih (w.spawnWorker k)

@[simp] theorem spawnWorkers_names (w : AsyncWorld τ) (k n : ℕ) :
    (w.spawnWorkers k n).asyncTaskNames = w.asyncTaskNames := by
  induction n generalizing w with
  | zero => rfl
  | succ n ih => exact ih (w.spawnWorker k)

theorem spawnWorkers_tasks_ne (w : AsyncWorld τ) {k k' : ℕ} (hk : k' ≠ k) (n : ℕ) :
    (w.spawnWorkers k n).tasks k' = w.tasks k' := by
  induction n generalizing w with
  | zero => rfl
  | succ n ih =>
    rw [spawnWorkers, ih]
    exact Function.update_of_ne hk _ _

theorem spawnWorkers_tasks_ch (w : AsyncWorld τ) (k n k' : ℕ) :
    ((w.spawnWorkers k n).tasks k').ch = (w.tasks k').ch ∧ ((w.spawnWorkers k n).tasks k').name = (w.tasks k').name := by
  induction n generalizing w with
  | zero => exact ⟨rfl, rfl⟩
  | succ n ih =>
    rw [spawnWorkers, (ih _).1, (ih _).2]
    simp only [spawnWorker]
    by_cases hk : k' = k
    · subst hk; simp
    · rw [Function.update_of_ne hk]; exact ⟨rfl, rfl⟩

theorem spawnWorkers_threads_client (w : AsyncWorld τ) (k n : ℕ) {s : ℕ} {calls : List (Call τ)}
    {results : List (Except String ℕ)} {pc : ClientPc τ}
    (hs : (w.spawnWorkers k n).threads s = .client calls results pc) : w.threads s = .client calls results pc := by
  induction n generalizing w with
  | zero => exact hs
  | succ n ih =>
    have hs' := ih (w.spawnWorker k) hs
    simp only [spawnWorker] at hs'
    by_cases hsn : s = w.next
    · subst hsn; rw [Function.update_self] at hs'; cases hs'
    · rwa [Function.update_of_ne hsn] at hs'

theorem spawnWorkers_threads_lt (w : AsyncWorld τ) (k n : ℕ) {s : ℕ} (hs : s < w.next) :
    (w.spawnWorkers k n).threads s = w.threads s := by
  induction n generalizing w with
  | zero => rfl
  | succ n ih =>
    rw [spawnWorkers, ih (w.spawnWorker k) (Nat.lt_succ_of_lt hs)]
    exact Function.update_of_ne hs.ne _ _

theorem spawnWorkers_threads_next (w : AsyncWorld τ) (k : ℕ) {n : ℕ} (hn : 0 < n) :
    (w.spawnWorkers k n).threads w.next = .worker k .recv := by
  obtain ⟨n, rfl⟩ := Nat.exists_eq_add_of_lt hn
  rw [Nat.zero_add, spawnWorkers, spawnWorkers_threads_lt _ _ _ (Nat.lt_succ_self w.next)]
  exact Function.update_self _ _ _

namespace Counted

variable {w : AsyncWorld τ}

theorem lt_next (h : Counted w) {t : ℕ} (ht : w.threads t ≠ .idle) : t < w.next :=
  Nat.lt_of_not_le fun hn => ht (h.idle t hn)

theorem wg_pos (h : Counted w) {t k : ℕ} {pc : WorkerPc τ} (ht : w.threads t = .worker k pc) (hlive : pc.live = 1) :
    0 < (w.tasks k).wg := by
  have hle : (w.threads t).live k ≤ ∑ s ∈ Finset.range w.next, (w.threads s).live k :=
    Finset.single_le_sum (f := fun s => (w.threads s).live k) (fun _ _ => Nat.zero_le _)
      (Finset.mem_range.2 (h.lt_next (by rw [ht]; simp)))
  rw [ht, AThread.live_worker_self, hlive] at hle
  rw [h.wg k, liveWorkers]
  omega

theorem ne_made (h : Counted w) (s : ℕ) : (w.threads s).live w.made = 0 ∧ (w.threads s).taken w.made = 0 := by
  cases hs : w.threads s with
  | idle => simp
  | client calls results pc => simp
  | worker k pc =>
    have hk : k ≠ w.made := (h.worker_lt s k pc hs).ne
    exact ⟨AThread.live_worker_ne hk pc, AThread.taken_worker_ne hk pc⟩

theorem makeTask (h : Counted w) (task : AsyncTask τ) (hwg : task.wg = 0) (hrecvd : task.ch.recvd = [])
    (hran : task.ran = []) : Counted (w.makeTask task) where
  idle := h.idle
  worker_lt t k pc ht := Nat.lt_succ_of_lt (h.worker_lt t k pc ht)
  client_lt t calls results pc k ht hpc := Nat.lt_succ_of_lt (h.client_lt t calls results pc k ht hpc)
  wg k := by
    show (Function.update w.tasks w.made task k).wg = w.liveWorkers k
    by_cases hk : k = w.made
    · subst hk
      rw [Function.update_self, hwg]
      exact (Finset.sum_eq_zero fun s _ => (h.ne_made s).1).symm
    · rw [Function.update_of_ne hk]
      exact h.wg k
  recvd k := by
    show ((Function.update w.tasks w.made task k).ch.recvd : Multiset τ) =
      (Function.update w.tasks w.made task k).ran + w.inFlight k
    by_cases hk : k = w.made
    · subst hk
      rw [Function.update_self, hrecvd, hran, inFlight, Finset.sum_eq_zero fun s _ => (h.ne_made s).2]
      rfl
    · rw [Function.update_of_ne hk]
      exact h.recvd k
  drained t k ht := by
    show (Function.update w.tasks w.made task k).ch.ch.closed = true ∧ (Function.update w.tasks w.made task k).ch.ch.buf = []
    rw [Function.update_of_ne (h.worker_lt t k _ ht).ne]
    exact h.drained t k ht

theorem spawnWorker (h : Counted w) {k : ℕ} (hk : k < w.made) : Counted (w.spawnWorker k) where
  idle t ht := by
    show Function.update w.threads w.next _ t = _
    rw [Function.update_of_ne (by simp only [AsyncWorld.spawnWorker] at ht; omega)]
    exact h.idle t (by simp only [AsyncWorld.spawnWorker] at ht; omega)
  worker_lt t k' pc ht := by
    simp only [AsyncWorld.spawnWorker] at ht ⊢
    by_cases htn : t = w.next
    · subst htn
      rw [Function.update_self] at ht
      cases ht
      exact hk
    · rw [Function.update_of_ne htn] at ht
      exact h.worker_lt t k' pc ht
  client_lt t calls results pc k' ht hpc := by
    simp only [AsyncWorld.spawnWorker] at ht ⊢
    by_cases htn : t = w.next
    · subst htn
      rw [Function.update_self] at ht
      cases ht
    · rw [Function.update_of_ne htn] at ht
      exact h.client_lt t calls results pc k' ht hpc
  wg k' := by
    rw [liveWorkers, sum_spawnWorker, ← liveWorkers, ← h.wg k']
    simp only [AsyncWorld.spawnWorker]
    by_cases hk' : k' = k
    · subst hk'
      simp [Function.update_self, WorkerPc.live]
    · rw [Function.update_of_ne hk', AThread.live_worker_ne (Ne.symm hk')]
      rfl
  recvd k' := by
    rw [inFlight, sum_spawnWorker, ← inFlight]
    have hch : ((w.spawnWorker k).tasks k').ch = (w.tasks k').ch ∧ ((w.spawnWorker k).tasks k').ran = (w.tasks k').ran := by
      simp only [AsyncWorld.spawnWorker]
      by_cases hk' : k' = k
      · subst hk'; simp
      · rw [Function.update_of_ne hk']; simp
    rw [hch.1, hch.2, h.recvd k']
    by_cases hk' : k = k'
    · subst hk'; simp [WorkerPc.taken]
    · rw [AThread.taken_worker_ne hk', add_zero]
  drained t k' ht := by
    have hch : ((w.spawnWorker k).tasks k').ch = (w.tasks k').ch := by
      simp only [AsyncWorld.spawnWorker]
      by_cases hk' : k' = k
      · subst hk'; simp
      · rw [Function.update_of_ne hk']
    rw [hch]
    simp only [AsyncWorld.spawnWorker] at ht
    by_cases htn : t = w.next
    · subst htn
      rw [Function.update_self] at ht
      cases ht
    · rw [Function.update_of_ne htn] at ht
      exact h.drained t k' ht

theorem spawnWorkers (h : Counted w) {k : ℕ} (hk : k < w.made) (n : ℕ) : Counted (w.spawnWorkers k n) := by
  induction n generalizing w with
  | zero => exact h
  | succ n ih => exact ih (h.spawnWorker hk) hk

end Counted

namespace AsyncOk

variable {w : AsyncWorld τ}

theorem setNames (h : AsyncOk w) (names : HashSet String) : AsyncOk (w.setNames names) :=
  ⟨⟨h.idle, h.worker_lt, h.client_lt, h.wg, h.recvd, h.drained⟩, h.started⟩

/-- Goroutine `t` moves to `th` and task `k` becomes `task`. The invariant holds again when the
goroutine names only tasks made and stays a worker of its task if it was one, `wg` and what
was received follow the move, and a goroutine leaves the loop only on a closed and drained
channel. -/
theorem update (h : AsyncOk w) {t : ℕ} (htn : t < w.next) (th : AThread τ) (k : ℕ) (task : AsyncTask τ)
    (hworker : ∀ k' pc, th = .worker k' pc → k' < w.made)
    (hclient : ∀ calls results pc k', th = .client calls results pc → pc.task = some k' → k' < w.made)
    (hstays : ∀ k' pc, w.threads t = .worker k' pc → ∃ pc', th = .worker k' pc')
    (hother : ∀ k', k' ≠ k → th.live k' = (w.threads t).live k' ∧ th.taken k' = (w.threads t).taken k')
    (hwg : task.wg + (w.threads t).live k = (w.tasks k).wg + th.live k)
    (hrecvd : (task.ch.recvd : Multiset τ) + (w.threads t).taken k + (w.tasks k).ran =
      task.ran + th.taken k + (w.tasks k).ch.recvd)
    (hdone : ∀ k', th = .worker k' .done → k' = k ∧ task.ch.ch.closed = true ∧ task.ch.ch.buf = [])
    (hkeep : (w.tasks k).ch.ch.closed = true → (w.tasks k).ch.ch.buf = [] →
      task.ch.ch.closed = true ∧ task.ch.ch.buf = []) :
    AsyncOk ((w.setThread t th).setTask k task) := by
  refine ⟨⟨?idle, ?worker_lt, ?client_lt, ?wg, ?recvd, ?drained⟩, ?started⟩
  case idle =>
    intro s hs
    simp only [setTask_threads, setThread_threads, setTask_next, setThread_next] at hs ⊢
    rw [Function.update_of_ne (by omega)]
    exact h.idle s hs
  case worker_lt =>
    intro s k' pcs hs
    simp only [setTask_threads, setThread_threads, setTask_made, setThread_made] at hs ⊢
    by_cases hst : s = t
    · subst hst; rw [Function.update_self] at hs; exact hworker k' pcs hs
    · rw [Function.update_of_ne hst] at hs; exact h.worker_lt s k' pcs hs
  case client_lt =>
    intro s calls results pcs k' hs hk'
    simp only [setTask_threads, setThread_threads, setTask_made, setThread_made] at hs ⊢
    by_cases hst : s = t
    · subst hst; rw [Function.update_self] at hs; exact hclient calls results pcs k' hs hk'
    · rw [Function.update_of_ne hst] at hs; exact h.client_lt s calls results pcs k' hs hk'
  case wg =>
    intro k'
    have hsum := w.liveWorkers_setThread htn th k'
    have hold := h.wg k'
    rw [liveWorkers_setTask, setTask_tasks, setThread_tasks]
    by_cases hk' : k' = k
    · subst hk'
      rw [Function.update_self]
      omega
    · rw [Function.update_of_ne hk']
      have := (hother k' hk').1
      omega
  case recvd =>
    intro k'
    have hflight := w.inFlight_setThread htn th k'
    rw [inFlight_setTask, setTask_tasks, setThread_tasks]
    by_cases hk' : k' = k
    · subst hk'
      rw [Function.update_self]
      have hran : (task.ch.recvd : Multiset τ) + (w.threads t).taken k' = task.ran + w.inFlight k' + th.taken k' := by
        apply add_right_cancel (b := ((w.tasks k').ran : Multiset τ))
        rw [hrecvd, h.recvd k']
        ac_rfl
      apply add_right_cancel (b := (w.threads t).taken k')
      calc (task.ch.recvd : Multiset τ) + (w.threads t).taken k' = task.ran + (w.inFlight k' + th.taken k') := by
            rw [hran, add_assoc]
        _ = task.ran + ((w.setThread t th).inFlight k' + (w.threads t).taken k') := by rw [hflight]
        _ = task.ran + (w.setThread t th).inFlight k' + (w.threads t).taken k' := (add_assoc _ _ _).symm
    · rw [Function.update_of_ne hk', (hother k' hk').2] at *
      rw [add_right_cancel hflight]
      exact h.recvd k'
  case drained =>
    intro s k' hs
    simp only [setTask_threads, setThread_threads, setTask_tasks] at hs ⊢
    by_cases hst : s = t
    · subst hst
      rw [Function.update_self] at hs
      obtain ⟨rfl, hdone'⟩ := hdone k' hs
      rw [Function.update_self]
      exact hdone'
    · rw [Function.update_of_ne hst] at hs
      have hold := h.drained s k' hs
      by_cases hk' : k' = k
      · subst hk'; rw [Function.update_self]; exact hkeep hold.1 hold.2
      · rw [Function.update_of_ne hk']; exact hold
  case started =>
    intro k' hk'
    obtain ⟨s, pcs, hs⟩ := h.started k' hk'
    by_cases hst : s = t
    · subst hst
      obtain ⟨pc', hpc'⟩ := hstays k' pcs hs
      exact ⟨s, pc', by simp [hpc']⟩
    · exact ⟨s, pcs, by simp only [setTask_threads, setThread_threads, Function.update_of_ne hst, hs]⟩

/-- A client step that changes at most the channel of task `k`, keeping what was received from
it and a closed and drained channel. -/
theorem clientUpdate (h : AsyncOk w) {t : ℕ} {calls : List (Call τ)} {results : List (Except String ℕ)}
    {pc : ClientPc τ} (ht : w.threads t = .client calls results pc) (calls' : List (Call τ))
    (results' : List (Except String ℕ)) (pc' : ClientPc τ) (hpc : ∀ k, pc'.task = some k → k < w.made)
    (k : ℕ) (task : AsyncTask τ) (hwg : task.wg = (w.tasks k).wg) (hrecvd : task.ch.recvd = (w.tasks k).ch.recvd)
    (hran : task.ran = (w.tasks k).ran)
    (hkeep : (w.tasks k).ch.ch.closed = true → (w.tasks k).ch.ch.buf = [] →
      task.ch.ch.closed = true ∧ task.ch.ch.buf = []) :
    AsyncOk ((w.setThread t (.client calls' results' pc')).setTask k task) := by
  refine h.update (h.lt_next (by rw [ht]; simp)) _ k task (fun _ _ hw => by cases hw)
    (fun _ _ _ k' hc hk' => by cases hc; exact hpc k' hk') (fun _ _ hw => by rw [ht] at hw; cases hw)
    (fun _ _ => by rw [ht]; simp) (by rw [ht]; simp [hwg]) ?_ (fun _ hw => by cases hw) hkeep
  rw [ht, hrecvd, hran]
  simp only [AThread.taken_client, add_zero]
  exact add_comm _ _

theorem clientMove (h : AsyncOk w) {t : ℕ} {calls : List (Call τ)} {results : List (Except String ℕ)}
    {pc : ClientPc τ} (ht : w.threads t = .client calls results pc) (calls' : List (Call τ))
    (results' : List (Except String ℕ)) (pc' : ClientPc τ) (hpc : ∀ k, pc'.task = some k → k < w.made) :
    AsyncOk (w.setThread t (.client calls' results' pc')) := by
  have h' := h.clientUpdate ht calls' results' pc' hpc 0 (w.tasks 0) rfl rfl rfl fun h₁ h₂ => ⟨h₁, h₂⟩
  rwa [setThread_setTask_self] at h'

/-- A step of worker `t` of task `k` that changes at most task `k`: `wg` follows the goroutine
out of the count, what was received follows what it takes and runs, and the channel stays
closed and drained once it is. -/
theorem workerUpdate (h : AsyncOk w) {t k : ℕ} {pc : WorkerPc τ} (ht : w.threads t = .worker k pc)
    (pc' : WorkerPc τ) (task : AsyncTask τ) (hwg : task.wg + pc.live = (w.tasks k).wg + pc'.live)
    (hrecvd : (task.ch.recvd : Multiset τ) + pc.taken + (w.tasks k).ran =
      task.ran + pc'.taken + (w.tasks k).ch.recvd)
    (hdone : pc' = .done → task.ch.ch.closed = true ∧ task.ch.ch.buf = [])
    (hkeep : (w.tasks k).ch.ch.closed = true → (w.tasks k).ch.ch.buf = [] →
      task.ch.ch.closed = true ∧ task.ch.ch.buf = []) :
    AsyncOk ((w.setThread t (.worker k pc')).setTask k task) := by
  have hk : k < w.made := h.worker_lt t k pc ht
  refine h.update (h.lt_next (by rw [ht]; simp)) _ k task (fun _ _ hw => by cases hw; exact hk)
    (fun _ _ _ _ hc => by cases hc) (fun _ _ hw => by rw [ht] at hw; cases hw; exact ⟨pc', rfl⟩) ?_
    (by rw [ht]; simpa using hwg) (by rw [ht]; simpa using hrecvd) (fun _ hw => by cases hw; exact ⟨rfl, hdone rfl⟩) hkeep
  intro k' hk'
  rw [ht, AThread.live_worker_ne (Ne.symm hk'), AThread.live_worker_ne (Ne.symm hk'),
    AThread.taken_worker_ne (Ne.symm hk'), AThread.taken_worker_ne (Ne.symm hk')]
  exact ⟨rfl, rfl⟩

/-- `new(AsyncTask)` and its goroutines: the rest of `GetNamedAsyncTask`. -/
theorem makeTask_spawnWorkers (h : AsyncOk w) (task : AsyncTask τ) (hwg : task.wg = 0)
    (hrecvd : task.ch.recvd = []) (hran : task.ran = []) {n : ℕ} (hn : 0 < n) :
    AsyncOk ((w.makeTask task).spawnWorkers w.made n) := by
  have hmade : w.made < (w.makeTask task).made := Nat.lt_succ_self _
  refine ⟨(h.toCounted.makeTask task hwg hrecvd hran).spawnWorkers hmade n, ?_⟩
  intro k hk
  rw [spawnWorkers_made] at hk
  rcases Nat.lt_succ_iff_lt_or_eq.1 hk with hk | rfl
  · obtain ⟨s, pc, hs⟩ := h.started k hk
    have hsn : s < w.next := h.lt_next (by rw [hs]; simp)
    exact ⟨s, pc, by rw [spawnWorkers_threads_lt (w.makeTask task) w.made n hsn]; exact hs⟩
  · exact ⟨w.next, .recv, spawnWorkers_threads_next (w.makeTask task) w.made hn⟩

theorem clientStep (h : AsyncOk w) {t : ℕ} {calls : List (Call τ)} {results : List (Except String ℕ)}
    {pc : ClientPc τ} (ht : w.threads t = .client calls results pc) : AsyncOk (w.clientStep t calls results pc) := by
  have hpc : ∀ k, pc.task = some k → k < w.made := fun k hk => h.client_lt t calls results pc k ht hk
  cases pc with
  | start =>
    cases calls with
    | nil => exact h
    | cons call rest =>
      cases call with
      | getNamed name taskChanNumber goNumber onError =>
        simp only [AsyncWorld.clientStep]
        split
        · exact h.clientMove ht _ _ .start (by simp [ClientPc.task])
        · exact h.clientMove ht _ _ _ (by simp [ClientPc.task])
      | post k tasks =>
        simp only [AsyncWorld.clientStep]
        split
        · rename_i hk
          exact h.clientMove ht _ _ (.post k tasks) (by simpa [ClientPc.task] using hk)
        · exact h
      | close k =>
        simp only [AsyncWorld.clientStep]
        split
        · rename_i hk
          exact h.clientMove ht _ _ (.remove k) (by simpa [ClientPc.task] using hk)
        · exact h
  | add name taskChanNumber goNumber onError =>
    have h' := (h.setNames (w.asyncTaskNames.add [name])).clientMove ht calls (results ++ [.ok w.made]) .start
      (by simp [ClientPc.task])
    exact h'.makeTask_spawnWorkers (newTask name taskChanNumber onError) rfl rfl rfl (atLeastOne_pos goNumber)
  | post k tasks =>
    have hk : k < w.made := hpc k rfl
    cases tasks with
    | nil => exact h.clientMove ht _ _ .start (by simp [ClientPc.task])
    | cons x tasks =>
      simp only [AsyncWorld.clientStep]
      split
      · rename_i ch hsend
        obtain ⟨-, -, hrecvd⟩ := Logged.send_eq_sent hsend
        refine h.clientUpdate ht calls results (.post k tasks) (by simpa [ClientPc.task] using hk) k _ rfl hrecvd rfl ?_
        intro hclosed _
        rw [Logged.send_of_closed hclosed] at hsend
        cases hsend
      · exact h
      · exact h.clientMove ht _ _ .panicked (by simp [ClientPc.task])
  | remove k =>
    exact (h.clientMove ht _ _ (.closeCh k) (by simpa [ClientPc.task] using hpc k rfl)).setNames _
  | closeCh k =>
    simp only [AsyncWorld.clientStep]
    split
    · rename_i ch hclose
      obtain ⟨hc, -, hrecvd⟩ := Logged.close_eq_some hclose
      obtain ⟨-, hbuf, -, hclosed⟩ := Chan.close_eq_some hc
      refine h.clientUpdate ht calls results (.wait k) (by simpa [ClientPc.task] using hpc k rfl) k _ rfl hrecvd rfl ?_
      intro _ hb
      exact ⟨hclosed, hbuf.trans hb⟩
    · exact h.clientMove ht _ _ .panicked (by simp [ClientPc.task])
  | wait k =>
    simp only [AsyncWorld.clientStep]
    split
    · exact h.clientMove ht _ _ .start (by simp [ClientPc.task])
    · exact h
  | panicked => exact h

theorem workerStep (h : AsyncOk w) {t k : ℕ} {pc : WorkerPc τ} (ht : w.threads t = .worker k pc) (c : Outcome) :
    AsyncOk (w.workerStep t k c pc) := by
  have hkeep : (w.tasks k).ch.ch.closed = true → (w.tasks k).ch.ch.buf = [] →
      (w.tasks k).ch.ch.closed = true ∧ (w.tasks k).ch.ch.buf = [] := fun h₁ h₂ => ⟨h₁, h₂⟩
  cases pc with
  | recv =>
    simp only [AsyncWorld.workerStep]
    split
    · rename_i x ch hrecv
      obtain ⟨hc, -, hrecvd⟩ := Logged.recv_eq_value hrecv
      refine h.workerUpdate ht (.run x) _ rfl ?_ (fun h => by cases h) ?_
      · simp only [hrecvd, WorkerPc.taken, ← Multiset.coe_add, Multiset.coe_singleton, add_zero]
        ac_rfl
      · intro hclosed hbuf
        rw [Chan.recv_of_drained hbuf hclosed] at hc
        cases hc
    · rename_i hrecv
      have hc := Chan.recv_eq_closed (Logged.recv_eq_closed hrecv)
      have hpos := h.wg_pos ht rfl
      refine h.workerUpdate ht .done _ ?_ ?_ (fun _ => ⟨hc.2, hc.1⟩) hkeep
      · simp only [WorkerPc.live]
        omega
      · simp only [WorkerPc.taken, add_zero]
        exact add_comm _ _
    · exact h
  | run x =>
    have hpos := h.wg_pos ht rfl
    have hran : ∀ pc' : WorkerPc τ, pc'.taken = 0 →
        (((w.tasks k).ch.recvd : Multiset τ) + (WorkerPc.run x).taken + (w.tasks k).ran =
          ((w.tasks k).ran ++ [x] : List τ) + pc'.taken + (w.tasks k).ch.recvd) := by
      intro pc' hpc'
      rw [hpc']
      simp only [WorkerPc.taken, ← Multiset.coe_add, Multiset.coe_singleton, add_zero]
      ac_rfl
    cases c with
    | ok =>
      simp only [AsyncWorld.workerStep]
      rw [setTask_setThread]
      exact h.workerUpdate ht .recv _ rfl (hran _ rfl) (fun h => by cases h) hkeep
    | err =>
      simp only [AsyncWorld.workerStep]
      rw [setTask_setThread]
      have hlive : (if (w.tasks k).onError then .onError x else .recv : WorkerPc τ).live = 1 := by split <;> rfl
      have htaken : (if (w.tasks k).onError then .onError x else .recv : WorkerPc τ).taken = 0 := by split <;> rfl
      refine h.workerUpdate ht _ _ (by rw [hlive]; rfl) (hran _ htaken) ?_ hkeep
      split <;> intro h <;> cases h
    | panic =>
      simp only [AsyncWorld.workerStep, workerReturns_setTask]
      refine h.workerUpdate ht .dead _ ?_ (hran _ rfl) (fun h => by cases h) hkeep
      simp only [WorkerPc.live]
      omega
  | onError x =>
    have hpos := h.wg_pos ht rfl
    have hrecvd : ∀ pc' : WorkerPc τ, pc'.taken = 0 →
        (((w.tasks k).ch.recvd : Multiset τ) + (WorkerPc.onError x).taken + (w.tasks k).ran =
          (w.tasks k).ran + pc'.taken + (w.tasks k).ch.recvd) := by
      intro pc' hpc'
      rw [hpc']
      simp only [WorkerPc.taken, add_zero]
      exact add_comm _ _
    cases c with
    | panic =>
      simp only [AsyncWorld.workerStep, workerReturns]
      refine h.workerUpdate ht .dead _ ?_ (hrecvd _ rfl) (fun h => by cases h) hkeep
      simp only [WorkerPc.live]
      omega
    | ok | err =>
      have h' := h.workerUpdate ht .recv (w.tasks k) rfl (hrecvd _ rfl) (fun h => by cases h) hkeep
      rwa [setThread_setTask_self] at h'
  | done | dead => exact h

theorem step (h : AsyncOk w) (t : ℕ) (c : Outcome) : AsyncOk (w.step t c) := by
  unfold AsyncWorld.step
  split
  · exact h
  · rename_i calls results pc ht
    exact h.clientStep ht
  · rename_i k pc ht
    exact h.workerStep ht c

theorem run (h : AsyncOk w) (sched : List (ℕ × Outcome)) : AsyncOk (w.run sched) := by
  induction sched generalizing w with
  | nil => exact h
  | cons tc sched ih => exact ih (h.step tc.1 tc.2)

end AsyncOk

namespace AsyncOk

variable {w : AsyncWorld τ}

/-- What a task's goroutines received is what was sent on its channel less its buffer, and is
what they ran and are about to run: no task runs more often than it was posted. -/
theorem ran_le_sent (h : AsyncOk w) (k : ℕ) : ((w.tasks k).ran : Multiset τ) ≤ (w.tasks k).ch.sent := by
  have hsent : ((w.tasks k).ch.sent : Multiset τ) = (w.tasks k).ran + (w.inFlight k + (w.tasks k).ch.ch.buf) := by
    rw [(w.tasks k).ch.fifo, ← Multiset.coe_add, h.recvd k, add_assoc]
  rw [hsent]
  exact le_add_right le_rfl

theorem inFlight_eq_zero (h : AsyncOk w) {k : ℕ} (hwg : (w.tasks k).wg = 0) : w.inFlight k = 0 := by
  rw [h.wg k, liveWorkers, Finset.sum_eq_zero_iff] at hwg
  exact Finset.sum_eq_zero fun s hs => AThread.taken_eq_zero (hwg s hs)

/-- When the `Wait` of `Close` can return, and none of the task's goroutines died of a panic,
the channel is drained and every task posted has run, as often as it was posted. -/
theorem wait_ran_sent (h : AsyncOk w) {t k : ℕ} {calls : List (Call τ)} {results : List (Except String ℕ)}
    (ht : w.threads t = .client calls results (.wait k)) (hwg : (w.tasks k).wg = 0)
    (hdead : ∀ s < w.next, w.threads s ≠ .worker k .dead) :
    (w.tasks k).ch.ch.buf = [] ∧ (w.tasks k).ran.Perm (w.tasks k).ch.sent := by
  have hk : k < w.made := h.client_lt t calls results (.wait k) k ht rfl
  obtain ⟨s, pc, hs⟩ := h.started k hk
  have hsn : s < w.next := h.lt_next (by rw [hs]; simp)
  -- the goroutine `s` has returned, and not by a panic
  have hlive : pc.live = 0 := by
    have hzero := h.wg k ▸ hwg
    rw [liveWorkers, Finset.sum_eq_zero_iff] at hzero
    simpa [hs] using hzero s (Finset.mem_range.2 hsn)
  have hdone : pc = .done := by
    cases pc with
    | done => rfl
    | dead => exact absurd hs (hdead s hsn)
    | recv | run _ | onError _ => cases hlive
  have hbuf := (h.drained s k (hdone ▸ hs)).2
  refine ⟨hbuf, Multiset.coe_eq_coe.1 ?_⟩
  rw [(w.tasks k).ch.fifo, hbuf, List.append_nil, h.recvd k, h.inFlight_eq_zero hwg, add_zero]

end AsyncOk

/-! ## What a step does to the other goroutines -/

theorem clientStep_threads_other (w : AsyncWorld τ) {t s : ℕ} (hs : s ≠ t) (hsn : s < w.next)
    (calls : List (Call τ)) (results : List (Except String ℕ)) (pc : ClientPc τ) :
    (w.clientStep t calls results pc).threads s = w.threads s := by
  cases pc with
  | start =>
    cases calls with
    | nil => rfl
    | cons call rest =>
      cases call <;> simp only [clientStep] <;> split <;> simp [Function.update_of_ne hs]
  | add name taskChanNumber goNumber onError =>
    simp only [clientStep]
    rw [spawnWorkers_threads_lt]
    · simp [makeTask, Function.update_of_ne hs]
    · exact hsn
  | post k tasks =>
    cases tasks with
    | nil => simp [clientStep, Function.update_of_ne hs]
    | cons x tasks =>
      simp only [clientStep]
      split <;> simp [Function.update_of_ne hs]
  | remove k => simp [clientStep, Function.update_of_ne hs]
  | closeCh k =>
    simp only [clientStep]
    split <;> simp [Function.update_of_ne hs]
  | wait k =>
    simp only [clientStep]
    split <;> simp [Function.update_of_ne hs]
  | panicked => rfl

theorem workerStep_threads_other (w : AsyncWorld τ) {t s : ℕ} (hs : s ≠ t) (k : ℕ) (c : Outcome) (pc : WorkerPc τ) :
    (w.workerStep t k c pc).threads s = w.threads s := by
  cases pc with
  | recv =>
    simp only [workerStep]
    split <;> simp [workerReturns, Function.update_of_ne hs]
  | run x => cases c <;> simp [workerStep, workerReturns, Function.update_of_ne hs]
  | onError x => cases c <;> simp [workerStep, workerReturns, Function.update_of_ne hs]
  | done | dead => rfl

theorem step_threads_other (w : AsyncWorld τ) {t s : ℕ} (hs : s ≠ t) (hsn : s < w.next) (c : Outcome) :
    (w.step t c).threads s = w.threads s := by
  unfold step
  split
  · rfl
  · exact w.clientStep_threads_other hs hsn _ _ _
  · exact w.workerStep_threads_other hs _ _ _

/-! ## What a step does to a task made -/

/-- What one step can do to a task already made: a send, a receive or a close on its channel,
a call of `Run` on a task a goroutine received, a goroutine returning, or nothing. A receive,
a call and a return are made by a goroutine `wg` counts. -/
inductive TaskMove : AsyncTask τ → AsyncTask τ → Prop
  | same (task : AsyncTask τ) : TaskMove task task
  | send {task : AsyncTask τ} {x : τ} {ch : Logged τ} :
      task.ch.send x = .sent ch → TaskMove task { task with ch := ch }
  | recv {task : AsyncTask τ} {x : τ} {ch : Logged τ} :
      0 < task.wg → task.ch.recv = .value x ch → TaskMove task { task with ch := ch }
  | close {task : AsyncTask τ} {ch : Logged τ} :
      task.ch.close = some ch → TaskMove task { task with ch := ch }
  | run {task : AsyncTask τ} (x : τ) : 0 < task.wg → TaskMove task { task with ran := task.ran ++ [x] }
  | returns {task : AsyncTask τ} : 0 < task.wg → TaskMove task { task with wg := task.wg - 1 }
  | runReturns {task : AsyncTask τ} (x : τ) :
      0 < task.wg → TaskMove task { task with ran := task.ran ++ [x], wg := task.wg - 1 }

theorem TaskMove.update {tasks : ℕ → AsyncTask τ} {k₀ : ℕ} {task : AsyncTask τ}
    (hmove : TaskMove (tasks k₀) task) (k : ℕ) : TaskMove (tasks k) (Function.update tasks k₀ task k) := by
  by_cases hk : k = k₀
  · subst hk
    rw [Function.update_self]
    exact hmove
  · rw [Function.update_of_ne hk]
    exact .same _

theorem clientStep_add_tasks_lt (w : AsyncWorld τ) {t k : ℕ} (calls : List (Call τ)) (results : List (Except String ℕ))
    (name : String) (taskChanNumber goNumber : ℤ) (onError : Bool) (hk : k < w.made) :
    (w.clientStep t calls results (.add name taskChanNumber goNumber onError)).tasks k = w.tasks k := by
  simp only [clientStep]
  rw [spawnWorkers_tasks_ne _ hk.ne]
  exact Function.update_of_ne hk.ne _ _

theorem clientStep_add_task_made (w : AsyncWorld τ) {t : ℕ} (calls : List (Call τ)) (results : List (Except String ℕ))
    (name : String) (taskChanNumber goNumber : ℤ) (onError : Bool) :
    ((w.clientStep t calls results (.add name taskChanNumber goNumber onError)).tasks w.made).ch =
        (newTask name taskChanNumber onError : AsyncTask τ).ch ∧
      ((w.clientStep t calls results (.add name taskChanNumber goNumber onError)).tasks w.made).name = name := by
  simp only [clientStep]
  rw [(spawnWorkers_tasks_ch _ _ _ _).1, (spawnWorkers_tasks_ch _ _ _ _).2]
  simp [makeTask]
  rfl

theorem clientStep_task (w : AsyncWorld τ) {t k : ℕ} (calls : List (Call τ)) (results : List (Except String ℕ))
    (pc : ClientPc τ) (hk : k < w.made) :
    k < (w.clientStep t calls results pc).made ∧ TaskMove (w.tasks k) ((w.clientStep t calls results pc).tasks k) := by
  cases pc with
  | start =>
    cases calls with
    | nil => exact ⟨hk, .same _⟩
    | cons call rest =>
      cases call <;> simp only [AsyncWorld.clientStep] <;> split <;> exact ⟨hk, .same _⟩
  | add name taskChanNumber goNumber onError =>
    -- the new task is made after every task made so far
    refine ⟨by simp only [AsyncWorld.clientStep, spawnWorkers_made]; exact Nat.lt_succ_of_lt hk, ?_⟩
    rw [w.clientStep_add_tasks_lt calls results name taskChanNumber goNumber onError hk]
    exact .same _
  | post k' tasks =>
    cases tasks with
    | nil => exact ⟨hk, .same _⟩
    | cons x tasks =>
      simp only [AsyncWorld.clientStep]
      split
      · rename_i ch hsend
        exact ⟨hk, TaskMove.update (.send hsend) k⟩
      · exact ⟨hk, .same _⟩
      · exact ⟨hk, .same _⟩
  | remove k' => exact ⟨hk, .same _⟩
  | closeCh k' =>
    simp only [AsyncWorld.clientStep]
    split
    · rename_i ch hclose
      exact ⟨hk, TaskMove.update (.close hclose) k⟩
    · exact ⟨hk, .same _⟩
  | wait k' =>
    simp only [AsyncWorld.clientStep]
    split <;> exact ⟨hk, .same _⟩
  | panicked => exact ⟨hk, .same _⟩

namespace AsyncOk

variable {w : AsyncWorld τ}

theorem workerStep_task (h : AsyncOk w) {t k₀ : ℕ} {pc : WorkerPc τ} (ht : w.threads t = .worker k₀ pc)
    (c : Outcome) (k : ℕ) :
    (w.workerStep t k₀ c pc).made = w.made ∧ TaskMove (w.tasks k) ((w.workerStep t k₀ c pc).tasks k) := by
  cases pc with
  | recv =>
    have hpos := h.wg_pos ht rfl
    simp only [AsyncWorld.workerStep]
    split
    · rename_i x ch hrecv
      exact ⟨rfl, TaskMove.update (.recv hpos hrecv) k⟩
    · exact ⟨rfl, TaskMove.update (.returns hpos) k⟩
    · exact ⟨rfl, .same _⟩
  | run x =>
    have hpos := h.wg_pos ht rfl
    cases c with
    | ok | err => exact ⟨rfl, TaskMove.update (.run x hpos) k⟩
    | panic =>
      simp only [AsyncWorld.workerStep, workerReturns_setTask]
      exact ⟨rfl, TaskMove.update (.runReturns x hpos) k⟩
  | onError x =>
    have hpos := h.wg_pos ht rfl
    cases c with
    | panic => exact ⟨rfl, TaskMove.update (.returns hpos) k⟩
    | ok | err => exact ⟨rfl, .same _⟩
  | done | dead => exact ⟨rfl, .same _⟩

theorem step_task (h : AsyncOk w) {k : ℕ} (hk : k < w.made) (t : ℕ) (c : Outcome) :
    k < (w.step t c).made ∧ TaskMove (w.tasks k) ((w.step t c).tasks k) := by
  unfold AsyncWorld.step
  split
  · exact ⟨hk, .same _⟩
  · rename_i calls results pc _
    exact w.clientStep_task calls results pc hk
  · rename_i k₀ pc ht
    obtain ⟨hmade, hmove⟩ := h.workerStep_task ht c k
    exact ⟨hmade ▸ hk, hmove⟩

/-- What every `TaskMove` keeps holds of a task made in every later world. -/
theorem run_task {P : AsyncTask τ → Prop} (hP : ∀ task task', TaskMove task task' → P task → P task')
    (h : AsyncOk w) {k : ℕ} (hk : k < w.made) (hw : P (w.tasks k)) (sched : List (ℕ × Outcome)) :
    P ((w.run sched).tasks k) := by
  induction sched generalizing w with
  | nil => exact hw
  | cons tc sched ih =>
    obtain ⟨hk', hmove⟩ := h.step_task hk tc.1 tc.2
    exact ih (h.step tc.1 tc.2) hk' (hP _ _ hmove hw)

end AsyncOk

namespace TaskMove

variable {task task' : AsyncTask τ}

theorem closed (hm : TaskMove task task') (hc : task.ch.ch.closed = true) :
    task'.ch.ch.closed = true ∧ task'.ch.sent = task.ch.sent := by
  cases hm with
  | same => exact ⟨hc, rfl⟩
  | send hsend =>
    rw [Logged.send_of_closed hc] at hsend
    cases hsend
  | recv _ hrecv =>
    obtain ⟨hch, hsent, -⟩ := Logged.recv_eq_value hrecv
    exact ⟨(Chan.recv_eq_value hch).2.2.trans hc, hsent⟩
  | close hclose =>
    rw [Logged.close_of_closed hc] at hclose
    cases hclose
  | run => exact ⟨hc, rfl⟩
  | returns => exact ⟨hc, rfl⟩
  | runReturns => exact ⟨hc, rfl⟩

theorem stopped (hm : TaskMove task task') (hwg : task.wg = 0) : task'.wg = 0 ∧ task'.ran = task.ran := by
  cases hm with
  | same => exact ⟨hwg, rfl⟩
  | send => exact ⟨hwg, rfl⟩
  | recv hpos => omega
  | close => exact ⟨hwg, rfl⟩
  | run _ hpos => omega
  | returns hpos => omega
  | runReturns _ hpos => omega

theorem stuck (hm : TaskMove task task') (hwg : task.wg = 0) (hfull : task.ch.ch.buf.length = task.ch.ch.cap) :
    task'.wg = 0 ∧ task'.ch.ch.buf = task.ch.ch.buf ∧ task'.ch.ch.cap = task.ch.ch.cap := by
  cases hm with
  | same => exact ⟨hwg, rfl, rfl⟩
  | @send _ ch hsend =>
    -- a send needs room, and the channel's bound leaves none
    obtain ⟨hch, -, -⟩ := Logged.send_eq_sent hsend
    obtain ⟨-, hbuf, hcap, -⟩ := Chan.send_eq_sent hch
    have hle := ch.ch.buf_le
    rw [hbuf, hcap, List.length_append, List.length_singleton] at hle
    omega
  | recv hpos => omega
  | close hclose =>
    obtain ⟨hch, -, -⟩ := Logged.close_eq_some hclose
    obtain ⟨-, hbuf, hcap, -⟩ := Chan.close_eq_some hch
    exact ⟨hwg, hbuf, hcap⟩
  | run _ hpos => omega
  | returns hpos => omega
  | runReturns _ hpos => omega

end TaskMove

theorem step_post_full (w : AsyncWorld τ) {t k : ℕ} {calls : List (Call τ)} {results : List (Except String ℕ)}
    {x : τ} {tasks : List τ} (ht : w.threads t = .client calls results (.post k (x :: tasks)))
    (hfull : (w.tasks k).ch.ch.cap ≤ (w.tasks k).ch.ch.buf.length) (c : Outcome) :
    (w.step t c).threads t = .client calls results (.post k (x :: tasks)) ∨
      (w.step t c).threads t = .client calls results .panicked := by
  cases hc : (w.tasks k).ch.ch.closed with
  | true =>
    right
    simp [step, ht, clientStep, Logged.send_of_closed hc]
  | false =>
    left
    simp [step, ht, clientStep, Logged.send_of_blocked (Chan.send_of_full hc hfull)]

namespace AsyncOk

variable {w : AsyncWorld τ}

/-- A `Post` on a task none of whose goroutines is left, with a full buffer, never returns: it
waits for ever, or panics once `Close` has closed the channel. -/
theorem post_stuck (h : AsyncOk w) {t k : ℕ} {calls : List (Call τ)} {results : List (Except String ℕ)}
    {x : τ} {tasks : List τ}
    (ht : w.threads t = .client calls results (.post k (x :: tasks)) ∨ w.threads t = .client calls results .panicked)
    (hk : k < w.made) (hwg : (w.tasks k).wg = 0) (hfull : (w.tasks k).ch.ch.buf.length = (w.tasks k).ch.ch.cap)
    (sched : List (ℕ × Outcome)) :
    (w.run sched).threads t = .client calls results (.post k (x :: tasks)) ∨
      (w.run sched).threads t = .client calls results .panicked := by
  induction sched generalizing w with
  | nil => exact ht
  | cons tc sched ih =>
    obtain ⟨hk', hmove⟩ := h.step_task hk tc.1 tc.2
    obtain ⟨hwg', hbuf', hcap'⟩ := hmove.stuck hwg hfull
    refine ih (h.step tc.1 tc.2) ?_ hk' hwg' (by rw [hbuf', hcap']; exact hfull)
    have htn : t < w.next := h.lt_next (by rcases ht with ht | ht <;> rw [ht] <;> simp)
    by_cases hst : tc.1 = t
    · rw [hst]
      rcases ht with ht | ht
      · exact w.step_post_full ht hfull.ge tc.2
      · right
        simp [AsyncWorld.step, ht, AsyncWorld.clientStep]
    · rw [w.step_threads_other (Ne.symm hst) htn]
      exact ht

end AsyncOk

theorem asyncOk_init (scripts : List (List (Call τ))) : AsyncOk (init scripts) := by
  have hthreads : ∀ t, (init scripts).threads t = .idle ∨ ∃ calls, (init scripts).threads t = .client calls [] .start := by
    intro t
    simp only [init]
    split
    · exact .inr ⟨_, rfl⟩
    · exact .inl rfl
  have hcount : ∀ t k, ((init scripts).threads t).live k = 0 ∧ ((init scripts).threads t).taken k = 0 := by
    intro t k
    rcases hthreads t with ht | ⟨calls, ht⟩ <;> simp [ht]
  refine ⟨⟨?idle, ?worker_lt, ?client_lt, ?wg, ?recvd, ?drained⟩, ?started⟩
  case idle =>
    intro t ht
    simp only [init] at ht ⊢
    rw [List.getElem?_eq_none ht]
  case worker_lt =>
    intro t k pc ht
    rcases hthreads t with h | ⟨calls, h⟩ <;> rw [h] at ht <;> cases ht
  case client_lt =>
    intro t calls results pc k ht hk
    rcases hthreads t with h | ⟨calls, h⟩ <;> rw [h] at ht <;> cases ht
    cases hk
  case wg =>
    intro k
    exact (Finset.sum_eq_zero fun t _ => (hcount t k).1).symm
  case recvd =>
    intro k
    rw [inFlight, Finset.sum_eq_zero fun t _ => (hcount t k).2]
    rfl
  case drained =>
    intro t k ht
    rcases hthreads t with h | ⟨calls, h⟩ <;> rw [h] at ht <;> cases ht
  case started =>
    intro k hk
    cases hk

/-! ## The name registry -/

/-- Task `k`'s channel is open and no client is at its `close`: no `Close` of it has passed
its `Remove`. -/
def Open (w : AsyncWorld τ) (k : ℕ) : Prop :=
  (w.tasks k).ch.ch.closed = false ∧ ∀ t calls results, w.threads t ≠ .client calls results (.closeCh k)

/-- Every name in `asyncTaskNames` is the name of a task made that is `Open`. -/
def Registered (w : AsyncWorld τ) : Prop :=
  ∀ name ∈ w.asyncTaskNames.items, ∃ k < w.made, (w.tasks k).name = name ∧ w.Open k

theorem Open.update {w : AsyncWorld τ} {k : ℕ} (ho : w.Open k) (t : ℕ) {th : AThread τ}
    (hth : ∀ calls results, th ≠ .client calls results (.closeCh k)) (k₀ : ℕ) {task : AsyncTask τ}
    (hclosed : k = k₀ → task.ch.ch.closed = false) : ((w.setThread t th).setTask k₀ task).Open k := by
  refine ⟨?_, ?_⟩
  · simp only [setTask_tasks, setThread_tasks]
    by_cases hk : k = k₀
    · subst hk; rw [Function.update_self]; exact hclosed rfl
    · rw [Function.update_of_ne hk]; exact ho.1
  · intro s calls results
    simp only [setTask_threads, setThread_threads]
    by_cases hs : s = t
    · subst hs; rw [Function.update_self]; exact hth calls results
    · rw [Function.update_of_ne hs]; exact ho.2 s calls results

theorem Open.setThread {w : AsyncWorld τ} {k : ℕ} (ho : w.Open k) (t : ℕ) {th : AThread τ}
    (hth : ∀ calls results, th ≠ .client calls results (.closeCh k)) : (w.setThread t th).Open k := by
  have ho' := ho.update t hth k fun _ => ho.1
  rwa [setThread_setTask_self] at ho'

namespace Registered

variable {w : AsyncWorld τ}

/-- A step that moves goroutine `t` to no `close` and changes at most task `k₀`, keeping its
name and, while it is `Open`, its channel open. -/
theorem update (hr : w.Registered) (t : ℕ) {th : AThread τ}
    (hth : ∀ k calls results, th ≠ .client calls results (.closeCh k)) (k₀ : ℕ) {task : AsyncTask τ}
    (hname : task.name = (w.tasks k₀).name) (hclosed : w.Open k₀ → task.ch.ch.closed = false) :
    ((w.setThread t th).setTask k₀ task).Registered := by
  intro name hname'
  obtain ⟨k, hk, hkname, ho⟩ := hr name hname'
  refine ⟨k, hk, ?_, ho.update t (hth k) k₀ fun hk₀ => hclosed (hk₀ ▸ ho)⟩
  simp only [setTask_tasks, setThread_tasks]
  by_cases hk₀ : k = k₀
  · subst hk₀; rw [Function.update_self, hname, hkname]
  · rw [Function.update_of_ne hk₀, hkname]

theorem setThread (hr : w.Registered) (t : ℕ) {th : AThread τ}
    (hth : ∀ k calls results, th ≠ .client calls results (.closeCh k)) : (w.setThread t th).Registered := by
  have h' := hr.update t hth 0 rfl fun ho => ho.1
  rwa [setThread_setTask_self] at h'

theorem clientStep (h : AsyncOk w) (hr : w.Registered) {t : ℕ} {calls : List (Call τ)}
    {results : List (Except String ℕ)} {pc : ClientPc τ} (ht : w.threads t = .client calls results pc) :
    (w.clientStep t calls results pc).Registered := by
  have hth : ∀ {calls' : List (Call τ)} {results' : List (Except String ℕ)} {pc' : ClientPc τ},
      (∀ k, pc' ≠ .closeCh k) → ∀ k calls'' results'', AThread.client calls' results' pc' ≠ .client calls'' results'' (.closeCh k) := by
    intro _ _ _ hpc k _ _ heq
    cases heq
    exact hpc k rfl
  cases pc with
  | start =>
    cases calls with
    | nil => exact hr
    | cons call rest =>
      cases call <;> simp only [AsyncWorld.clientStep] <;> split <;>
        first | exact hr | exact hr.setThread t (hth fun _ h => by cases h)
  | add name taskChanNumber goNumber onError =>
    intro name' hname'
    have hnames : (w.clientStep t calls results (.add name taskChanNumber goNumber onError)).asyncTaskNames.items =
        w.asyncTaskNames.items ∪ {name} := by
      simp only [AsyncWorld.clientStep, spawnWorkers_names]
      exact HashSet.add_items _ _
    rw [hnames, Finset.mem_union, Finset.mem_singleton] at hname'
    have hopen : ∀ k ≤ w.made, (∀ s calls' results', w.threads s ≠ .client calls' results' (.closeCh k)) →
        ∀ s calls' results', (w.clientStep t calls results (.add name taskChanNumber goNumber onError)).threads s ≠
          .client calls' results' (.closeCh k) := by
      intro k _ hk s calls' results' hs
      have hs' := spawnWorkers_threads_client _ _ _ hs
      simp only [setThread_threads, AsyncWorld.makeTask] at hs'
      by_cases hst : s = t
      · subst hst; rw [Function.update_self] at hs'; cases hs'
      · rw [Function.update_of_ne hst] at hs'; exact hk s calls' results' hs'
    have hmade : (w.clientStep t calls results (.add name taskChanNumber goNumber onError)).made = w.made + 1 := by
      simp only [AsyncWorld.clientStep, spawnWorkers_made]
      rfl
    rcases hname' with hname' | rfl
    · obtain ⟨k, hk, hkname, ho⟩ := hr name' hname'
      have htask := w.clientStep_add_tasks_lt calls results name taskChanNumber goNumber onError (t := t) hk
      refine ⟨k, hmade ▸ Nat.lt_succ_of_lt hk, ?_, ?_, hopen k hk.le ho.2⟩
      · rw [htask]; exact hkname
      · rw [htask]; exact ho.1
    · have htask := w.clientStep_add_task_made calls results name' taskChanNumber goNumber onError (t := t)
      refine ⟨w.made, hmade ▸ Nat.lt_succ_self _, htask.2, ?_, ?_⟩
      · rw [htask.1]; rfl
      · exact hopen w.made le_rfl fun s calls' results' hs =>
          (Nat.lt_irrefl _ (h.client_lt s calls' results' _ w.made hs rfl))
  | post k tasks =>
    cases tasks with
    | nil => exact hr.setThread t (hth fun _ h => by cases h)
    | cons x tasks =>
      simp only [AsyncWorld.clientStep]
      split
      · rename_i ch hsend
        exact hr.update t (hth fun _ h => by cases h) k rfl
          fun _ => (Chan.send_eq_sent (Logged.send_eq_sent hsend).1).2.2.2
      · exact hr
      · exact hr.setThread t (hth fun _ h => by cases h)
  | remove k₀ =>
    -- the name leaves the registry with the task that had it
    intro name hname
    simp only [AsyncWorld.clientStep, AsyncWorld.setNames, HashSet.remove_items, List.toFinset_cons, List.toFinset_nil,
      insert_empty_eq, Finset.mem_sdiff, Finset.mem_singleton] at hname
    obtain ⟨k, hk, hkname, ho⟩ := hr name hname.1
    have hk₀ : k ≠ k₀ := by rintro rfl; exact hname.2 hkname.symm
    exact ⟨k, hk, hkname, ho.setThread t fun _ _ heq => by cases heq; exact hk₀ rfl⟩
  | closeCh k₀ =>
    simp only [AsyncWorld.clientStep]
    split
    · rename_i ch hclose
      -- task `k₀` is not `Open`: this client is at its `close`
      exact hr.update t (hth fun _ h => by cases h) k₀ rfl fun ho => absurd ht (ho.2 t calls results)
    · exact hr.setThread t (hth fun _ h => by cases h)
  | wait k =>
    simp only [AsyncWorld.clientStep]
    split
    · exact hr.setThread t (hth fun _ h => by cases h)
    · exact hr
  | panicked => exact hr

theorem workerStep (hr : w.Registered) {t k : ℕ} {pc : WorkerPc τ}
    (ht : w.threads t = .worker k pc) (c : Outcome) : (w.workerStep t k c pc).Registered := by
  have hth : ∀ (pc' : WorkerPc τ) k' calls results, AThread.worker k pc' ≠ .client calls results (.closeCh k') :=
    fun _ _ _ _ heq => by cases heq
  cases pc with
  | recv =>
    simp only [AsyncWorld.workerStep]
    split
    · rename_i x ch hrecv
      exact hr.update t (hth _) k rfl fun ho =>
        (Chan.recv_eq_value (Logged.recv_eq_value hrecv).1).2.2.trans ho.1
    · exact hr.update t (hth _) k rfl fun ho => ho.1
    · exact hr
  | run x =>
    cases c with
    | ok | err =>
      simp only [AsyncWorld.workerStep]
      rw [setTask_setThread]
      exact hr.update t (hth _) k rfl fun ho => ho.1
    | panic =>
      simp only [AsyncWorld.workerStep, workerReturns_setTask]
      exact hr.update t (hth _) k rfl fun ho => ho.1
  | onError x =>
    cases c with
    | panic => exact hr.update t (hth _) k rfl fun ho => ho.1
    | ok | err => exact hr.setThread t (hth _)
  | done | dead => exact hr

theorem step (h : AsyncOk w) (hr : w.Registered) (t : ℕ) (c : Outcome) : (w.step t c).Registered := by
  unfold AsyncWorld.step
  split
  · exact hr
  · rename_i calls results pc ht
    exact hr.clientStep h ht
  · rename_i k pc ht
    exact hr.workerStep ht c

theorem run (h : AsyncOk w) (hr : w.Registered) (sched : List (ℕ × Outcome)) : (w.run sched).Registered := by
  induction sched generalizing w with
  | nil => exact hr
  | cons tc sched ih => exact ih (h.step tc.1 tc.2) (hr.step h tc.1 tc.2)

end Registered

theorem registered_init (scripts : List (List (Call τ))) : (init scripts).Registered := by
  intro name hname
  simp [init, newSet] at hname

end AsyncWorld

/-! ## Runs of the package -/

open AsyncWorld

section Runs

variable {τ : Type}

/-- In every run, no task runs more often than it was posted. -/
theorem asynctask_ran_le_posted (scripts : List (List (Call τ))) (sched : List (ℕ × Outcome)) (k : ℕ) :
    ((((init scripts).run sched).tasks k).ran : Multiset τ) ≤ (((init scripts).run sched).tasks k).ch.sent :=
  ((asyncOk_init scripts).run sched).ran_le_sent k

/-- When the `Wait` of `Close` returns and none of the task's goroutines died of a panic, the
channel is drained and every task posted on it has run, as often as it was posted. -/
theorem close_waits_for_posted_tasks (scripts : List (List (Call τ))) (sched : List (ℕ × Outcome))
    {t k : ℕ} {calls : List (Call τ)} {results : List (Except String ℕ)}
    (ht : ((init scripts).run sched).threads t = .client calls results (.wait k))
    (hwg : (((init scripts).run sched).tasks k).wg = 0)
    (hdead : ∀ s < ((init scripts).run sched).next, ((init scripts).run sched).threads s ≠ .worker k .dead) :
    (((init scripts).run sched).tasks k).ch.ch.buf = [] ∧
      (((init scripts).run sched).tasks k).ran.Perm (((init scripts).run sched).tasks k).ch.sent :=
  ((asyncOk_init scripts).run sched).wait_ran_sent ht hwg hdead

/-- A task with one goroutine and a buffer of two, two posts and a `Close`. -/
def twoPostsScripts : List (List (Call ℕ)) := [[.getNamed "a" 2 1 false, .post 0 [1, 2], .close 0]]

/-- The client makes the task and posts both tasks; the goroutine runs them and returns once
`Close` has closed the channel. -/
def twoPostsSched : List (ℕ × Outcome) :=
  [(0, .ok), (0, .ok), (0, .ok), (0, .ok), (0, .ok), (0, .ok), (0, .ok), (0, .ok), (0, .ok),
   (1, .ok), (1, .ok), (1, .ok), (1, .ok), (1, .ok)]

theorem twoPosts_close_waits :
    ((init twoPostsScripts).run twoPostsSched).threads 0 = .client [] [.ok 0] (.wait 0) ∧
      (((init twoPostsScripts).run twoPostsSched).tasks 0).wg = 0 ∧
      (∀ s < ((init twoPostsScripts).run twoPostsSched).next,
        ((init twoPostsScripts).run twoPostsSched).threads s ≠ .worker 0 .dead) ∧
      ((((init twoPostsScripts).run twoPostsSched).tasks 0).ch.ch.buf = [] ∧
        (((init twoPostsScripts).run twoPostsSched).tasks 0).ran.Perm
          (((init twoPostsScripts).run twoPostsSched).tasks 0).ch.sent) := by
  have ht : ((init twoPostsScripts).run twoPostsSched).threads 0 = .client [] [.ok 0] (.wait 0) := by decide
  exact ⟨ht, by decide, by decide, close_waits_for_posted_tasks twoPostsScripts twoPostsSched ht (by decide) (by decide)⟩

/-- Once every goroutine of a task has returned, none of its tasks runs any more. -/
theorem stopped_task_runs_nothing (scripts : List (List (Call τ))) (sched sched' : List (ℕ × Outcome)) {k : ℕ}
    (hk : k < ((init scripts).run sched).made) (hwg : (((init scripts).run sched).tasks k).wg = 0) :
    ((((init scripts).run sched).run sched').tasks k).wg = 0 ∧
      ((((init scripts).run sched).run sched').tasks k).ran = (((init scripts).run sched).tasks k).ran :=
  ((asyncOk_init scripts).run sched).run_task (P := fun task =>
      task.wg = 0 ∧ task.ran = (((init scripts).run sched).tasks k).ran)
    (fun _ _ hm hP => ⟨(hm.stopped hP.1).1, (hm.stopped hP.1).2.trans hP.2⟩) hk ⟨hwg, rfl⟩ sched'

/-- The goroutine takes the first task and its `Run` panics: `GoSafely` recovers and the
goroutine returns, so `Close` returns with the second task never run. -/
def panicSched : List (ℕ × Outcome) :=
  [(0, .ok), (0, .ok), (0, .ok), (0, .ok), (0, .ok), (0, .ok), (1, .ok), (1, .panic), (0, .ok), (0, .ok),
   (0, .ok), (0, .ok)]

theorem panicSched_stopped :
    0 < ((init twoPostsScripts).run panicSched).made ∧ (((init twoPostsScripts).run panicSched).tasks 0).wg = 0 ∧
      ((((init twoPostsScripts).run panicSched).run [(1, .ok)]).tasks 0).wg = 0 ∧
      ((((init twoPostsScripts).run panicSched).run [(1, .ok)]).tasks 0).ran =
        (((init twoPostsScripts).run panicSched).tasks 0).ran :=
  ⟨by decide, by decide, stopped_task_runs_nothing twoPostsScripts panicSched [(1, .ok)] (by decide) (by decide)⟩

example :
    ((init twoPostsScripts).run panicSched).threads 0 = .client [] [.ok 0] .start ∧
      (((init twoPostsScripts).run panicSched).tasks 0).ran = [1] ∧
      (((init twoPostsScripts).run panicSched).tasks 0).ch.sent = [1, 2] := by
  decide

/-- Once `Close` has closed a task's channel, no `Post` puts anything on it. -/
theorem closed_task_takes_no_post (scripts : List (List (Call τ))) (sched sched' : List (ℕ × Outcome)) {k : ℕ}
    (hk : k < ((init scripts).run sched).made) (hclosed : (((init scripts).run sched).tasks k).ch.ch.closed = true) :
    ((((init scripts).run sched).run sched').tasks k).ch.ch.closed = true ∧
      ((((init scripts).run sched).run sched').tasks k).ch.sent = (((init scripts).run sched).tasks k).ch.sent :=
  ((asyncOk_init scripts).run sched).run_task (P := fun task =>
      task.ch.ch.closed = true ∧ task.ch.sent = (((init scripts).run sched).tasks k).ch.sent)
    (fun _ _ hm hP => ⟨(hm.closed hP.1).1, (hm.closed hP.1).2.trans hP.2⟩) hk ⟨hclosed, rfl⟩ sched'

/-- A post after `Close`: the client panics and nothing is sent. -/
def postAfterCloseScripts : List (List (Call ℕ)) := [[.getNamed "a" 1 1 false, .close 0, .post 0 [1]]]

example :
    0 < ((init postAfterCloseScripts).run (List.replicate 5 (0, .ok))).made ∧
      (((init postAfterCloseScripts).run (List.replicate 5 (0, .ok))).tasks 0).ch.ch.closed = true ∧
      ((((init postAfterCloseScripts).run (List.replicate 5 (0, .ok))).run [(0, .ok), (0, .ok)]).tasks 0).ch.ch.closed = true ∧
      ((((init postAfterCloseScripts).run (List.replicate 5 (0, .ok))).run [(0, .ok), (0, .ok)]).tasks 0).ch.sent =
        (((init postAfterCloseScripts).run (List.replicate 5 (0, .ok))).tasks 0).ch.sent := by
  decide

/-- A `Post` on a task whose goroutines have all returned, once the buffer is full, never
returns: it waits for ever, or panics after `Close`. -/
theorem post_blocks_without_workers (scripts : List (List (Call τ))) (sched sched' : List (ℕ × Outcome))
    {t k : ℕ} {calls : List (Call τ)} {results : List (Except String ℕ)} {x : τ} {tasks : List τ}
    (ht : ((init scripts).run sched).threads t = .client calls results (.post k (x :: tasks)))
    (hwg : (((init scripts).run sched).tasks k).wg = 0)
    (hfull : (((init scripts).run sched).tasks k).ch.ch.buf.length = (((init scripts).run sched).tasks k).ch.ch.cap) :
    (((init scripts).run sched).run sched').threads t = .client calls results (.post k (x :: tasks)) ∨
      (((init scripts).run sched).run sched').threads t = .client calls results .panicked := by
  have h := (asyncOk_init scripts).run sched
  exact h.post_stuck (.inl ht) (h.client_lt t calls results _ k ht rfl) hwg hfull sched'

/-- A buffer of one and one goroutine: the first `Run` panics while the client waits to send
its third task. -/
def stuckScripts : List (List (Call ℕ)) := [[.getNamed "a" 1 1 false, .post 0 [1, 2, 3]]]

def stuckSched : List (ℕ × Outcome) := [(0, .ok), (0, .ok), (0, .ok), (0, .ok), (1, .ok), (0, .ok), (1, .panic)]

theorem stuck_post_never_returns :
    ((init stuckScripts).run stuckSched).threads 0 = .client [] [.ok 0] (.post 0 [3]) ∧
      (((init stuckScripts).run stuckSched).tasks 0).wg = 0 ∧
      (((init stuckScripts).run stuckSched).tasks 0).ch.ch.buf.length =
        (((init stuckScripts).run stuckSched).tasks 0).ch.ch.cap ∧
      ((((init stuckScripts).run stuckSched).run [(0, .ok), (0, .ok)]).threads 0 = .client [] [.ok 0] (.post 0 [3]) ∨
        (((init stuckScripts).run stuckSched).run [(0, .ok), (0, .ok)]).threads 0 = .client [] [.ok 0] .panicked) := by
  have ht : ((init stuckScripts).run stuckSched).threads 0 = .client [] [.ok 0] (.post 0 [3]) := by decide
  exact ⟨ht, by decide, by decide, post_blocks_without_workers stuckScripts stuckSched [(0, .ok), (0, .ok)] ht
    (by decide) (by decide)⟩

/-- `GetNamedAsyncTask` reports a name as duplicated only while a task made under that name
has not been removed by a `Close`. -/
theorem duplicated_name_is_open (scripts : List (List (Call τ))) (sched : List (ℕ × Outcome)) {name : String}
    (hdup : ((init scripts).run sched).asyncTaskNames.contains [name] = true) :
    ∃ k < ((init scripts).run sched).made,
      (((init scripts).run sched).tasks k).name = name ∧ ((init scripts).run sched).Open k :=
  (registered_init scripts).run (asyncOk_init scripts) sched name
    ((HashSet.contains_iff _ _).1 hdup name (List.mem_singleton_self name))

/-- A second `GetNamedAsyncTask` of one name, after the first has returned. -/
def twiceScripts : List (List (Call ℕ)) := [[.getNamed "a" 1 1 false, .getNamed "a" 1 1 false]]

theorem twice_duplicated_is_open :
    ((init twiceScripts).run [(0, .ok), (0, .ok)]).asyncTaskNames.contains ["a"] = true ∧
      ∃ k < ((init twiceScripts).run [(0, .ok), (0, .ok)]).made,
        (((init twiceScripts).run [(0, .ok), (0, .ok)]).tasks k).name = "a" ∧
          ((init twiceScripts).run [(0, .ok), (0, .ok)]).Open k := by
  have hdup : ((init twiceScripts).run [(0, .ok), (0, .ok)]).asyncTaskNames.contains ["a"] = true := by decide
  exact ⟨hdup, duplicated_name_is_open twiceScripts [(0, .ok), (0, .ok)] hdup⟩

/-- Two clients ask for the same name at once. -/
def raceScripts : List (List (Call ℕ)) := [[.getNamed "a" 1 1 false], [.getNamed "a" 1 1 false]]

-- The `Contains` check and the `Add` of `GetNamedAsyncTask` are two steps: both clients pass
-- the check before either adds the name, and both get a task of that name.
example :
    ((init raceScripts).run [(0, .ok), (1, .ok), (0, .ok), (1, .ok)]).threads 0 = .client [] [.ok 0] .start ∧
      ((init raceScripts).run [(0, .ok), (1, .ok), (0, .ok), (1, .ok)]).threads 1 = .client [] [.ok 1] .start ∧
      (((init raceScripts).run [(0, .ok), (1, .ok), (0, .ok), (1, .ok)]).tasks 0).name = "a" ∧
      (((init raceScripts).run [(0, .ok), (1, .ok), (0, .ok), (1, .ok)]).tasks 1).name = "a" := by
  decide

end Runs

end WeedgePkg.Asynctask
