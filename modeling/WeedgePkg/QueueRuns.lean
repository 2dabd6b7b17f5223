import WeedgePkg.Queue
import Mathlib.Algebra.BigOperators.Group.Finset.Basic

/-!
# `ExecuteInParallel` over every interleaving

The workers of `ExecuteInParallel` share the counter `done` and each claims the next index
with one atomic add. Whatever order they run in, no two claim the same index, and a worker
returns only once the counter has passed `todo`; so when `wg.Wait()` returns, every index below
`todo` has been passed to `fn` exactly once. A run keeps this as an invariant of the owner's
state and its workers' places. The owner then runs `Dispose`, which marks the queue disposed
for good.
-/

namespace WeedgePkg.Jobutils.Queue

variable {τ α : Type}

namespace WorkerPc

/-- The index a worker is about to pass to `fn`. -/
def calling : WorkerPc → Multiset ℕ
  | .call index => {index}
  | _ => 0

def running : WorkerPc → ℕ
  | .done => 0
  | _ => 1

def exhausted : WorkerPc → Bool
  | .wgDone | .done => true
  | _ => false

@[simp] theorem calling_add : calling .add = 0 := rfl
@[simp] theorem calling_call (index : ℕ) : calling (.call index) = {index} := rfl
@[simp] theorem calling_wgDone : calling .wgDone = 0 := rfl
@[simp] theorem calling_done : calling .done = 0 := rfl
@[simp] theorem running_add : running .add = 1 := rfl
@[simp] theorem running_call (index : ℕ) : running (.call index) = 1 := rfl
@[simp] theorem running_wgDone : running .wgDone = 1 := rfl
@[simp] theorem running_done : running .done = 0 := rfl

end WorkerPc

def Thread.workerPc : Thread τ α → WorkerPc
  | .worker _ pc => pc
  | _ => .done

def Thread.ownerOf : Thread τ α → Option τ
  | .worker owner _ => some owner
  | _ => none

theorem Call.thread_ownerOf (call : Call τ α) (o : τ) : call.thread.ownerOf = some o ↔ call = .worker o := by
  cases call <;> simp [Call.thread, Thread.ownerOf]

theorem workerStep_todo (par : ParState α) (pc : WorkerPc) : (workerStep par pc).1.todo = par.todo := by
  cases pc <;> rfl

theorem workerStep_items (par : ParState α) (pc : WorkerPc) : (workerStep par pc).1.items = par.items := by
  cases pc <;> rfl

/-- The indices below `todo` claimed so far: `min(done + 1, todo)`. -/
def ParState.claimed (par : ParState α) : ℕ := (min (par.done + 1) (par.todo : ℤ)).toNat

theorem sum_comp_update {ι β M : Type} [DecidableEq ι] [AddCommMonoid M] (s : Finset ι) (f : β → M)
    (g : ι → β) {t : ι} (ht : t ∈ s) (v : β) :
    ∑ x ∈ s, f (Function.update g t v x) + f (g t) = ∑ x ∈ s, f (g x) + f v := by
  have hrest : ∑ x ∈ s.erase t, f (Function.update g t v x) = ∑ x ∈ s.erase t, f (g x) :=
    Finset.sum_congr rfl fun x hx => by rw [Function.update_of_ne (Finset.ne_of_mem_erase hx)]
  rw [← Finset.add_sum_erase _ _ ht, ← Finset.add_sum_erase _ (fun x => f (g x)) ht, hrest,
    Function.update_self]
  ac_rfl

/-! ## The workers' claims -/

/-- What holds while the owner waits: the indices passed to `fn` and those about to be are the
indices claimed below `todo`, each once; `wg` counts the workers that have not returned; and a
worker stops only once the counter has passed `todo`. -/
structure Claimed (ws : Finset τ) (pcs : τ → WorkerPc) (par : ParState α) : Prop where
  done_ge : -1 ≤ par.done
  claims : (par.called : Multiset ℕ) + ∑ t ∈ ws, (pcs t).calling = Multiset.range par.claimed
  wg_eq : par.wg = ∑ t ∈ ws, (pcs t).running
  exhausted : ∀ t ∈ ws, (pcs t).exhausted = true → (par.todo : ℤ) ≤ par.done

namespace Claimed

variable {ws : Finset τ} {pcs pcs' : τ → WorkerPc} {par : ParState α}

theorem congr (h : Claimed ws pcs par) (hpcs : ∀ t ∈ ws, pcs' t = pcs t) : Claimed ws pcs' par where
  done_ge := h.done_ge
  claims := by rw [Finset.sum_congr rfl fun t ht => by rw [hpcs t ht]]; exact h.claims
  wg_eq := by rw [Finset.sum_congr rfl fun t ht => by rw [hpcs t ht]]; exact h.wg_eq
  exhausted := fun t ht he => h.exhausted t ht (hpcs t ht ▸ he)

/-- Once `wg` is zero every worker has returned, and some worker found the counter past
`todo`: every index below `todo` was passed to `fn`, once. -/
theorem called_perm (h : Claimed ws pcs par) (hne : ws.Nonempty) (hwg : par.wg = 0) :
    par.called.Perm (List.range par.todo) := by
  have hdone : ∀ t ∈ ws, pcs t = .done := by
    intro t ht
    have hzero := (Finset.sum_eq_zero_iff.mp (h.wg_eq ▸ hwg)) t ht
    cases hpc : pcs t <;> simp_all [WorkerPc.running]
  obtain ⟨t, ht⟩ := hne
  have hpast := h.exhausted t ht (by rw [hdone t ht]; rfl)
  have hall : par.claimed = par.todo := by
    simp only [ParState.claimed]
    omega
  have hnone : ∑ t ∈ ws, (pcs t).calling = 0 :=
    Finset.sum_eq_zero fun t ht => by rw [hdone t ht]; rfl
  rw [← Multiset.coe_eq_coe, Multiset.coe_range, ← hall, ← h.claims, hnone, add_zero]

variable [DecidableEq τ]

/-- The claim of index `done + 1` below `todo` puts it in the hands of the worker. -/
theorem claim_index (h : Claimed ws pcs par) {t : τ} (ht : t ∈ ws) (hpc : pcs t = .add)
    (hlt : par.done + 1 < par.todo) :
    Claimed ws (Function.update pcs t (.call (par.done + 1).toNat)) { par with done := par.done + 1 } where
  done_ge := by dsimp only; have := h.done_ge; omega
  claims := by
    have hsum := sum_comp_update ws WorkerPc.calling pcs ht (.call (par.done + 1).toNat)
    have hnext : ParState.claimed { par with done := par.done + 1 } = par.claimed + 1 := by
      simp only [ParState.claimed]
      have := h.done_ge
      omega
    have hindex : (par.done + 1).toNat = par.claimed := by
      simp only [ParState.claimed]
      omega
    simp only [hpc, WorkerPc.calling_add, WorkerPc.calling_call, add_zero] at hsum
    dsimp only
    rw [hnext, Multiset.range_succ, ← h.claims, hsum, hindex, ← Multiset.singleton_add]
    ac_rfl
  wg_eq := by
    have hsum := sum_comp_update ws WorkerPc.running pcs ht (.call (par.done + 1).toNat)
    rw [hpc] at hsum
    exact h.wg_eq.trans (add_right_cancel hsum).symm
  exhausted := by
    intro s hs he
    by_cases e : s = t
    · subst e
      simp [WorkerPc.exhausted] at he
    · rw [Function.update_of_ne e] at he
      have := h.exhausted s hs he
      omega

/-- A claim at or past `todo` sends the worker to `wg.Done()`. -/
theorem claim_past (h : Claimed ws pcs par) {t : τ} (ht : t ∈ ws) (hpc : pcs t = .add)
    (hle : (par.todo : ℤ) ≤ par.done + 1) :
    Claimed ws (Function.update pcs t .wgDone) { par with done := par.done + 1 } where
  done_ge := by dsimp only; have := h.done_ge; omega
  claims := by
    have hsum := sum_comp_update ws WorkerPc.calling pcs ht .wgDone
    have hsame : ParState.claimed { par with done := par.done + 1 } = par.claimed := by
      simp only [ParState.claimed]
      omega
    simp only [hpc, WorkerPc.calling_add, WorkerPc.calling_wgDone, add_zero] at hsum
    dsimp only
    rw [hsame, ← h.claims, hsum]
  wg_eq := by
    have hsum := sum_comp_update ws WorkerPc.running pcs ht .wgDone
    rw [hpc] at hsum
    exact h.wg_eq.trans (add_right_cancel hsum).symm
  exhausted := fun _ _ _ => hle

theorem call (h : Claimed ws pcs par) {t : τ} {index : ℕ} (ht : t ∈ ws) (hpc : pcs t = .call index) :
    Claimed ws (Function.update pcs t .add) { par with called := par.called ++ [index] } where
  done_ge := h.done_ge
  claims := by
    have hsum := sum_comp_update ws WorkerPc.calling pcs ht .add
    simp only [hpc, WorkerPc.calling_add, WorkerPc.calling_call, add_zero] at hsum
    show ((par.called ++ [index] : List ℕ) : Multiset ℕ) + _ = Multiset.range par.claimed
    rw [← h.claims, ← Multiset.coe_add, ← hsum, Multiset.coe_singleton]
    ac_rfl
  wg_eq := by
    have hsum := sum_comp_update ws WorkerPc.running pcs ht .add
    rw [hpc] at hsum
    exact h.wg_eq.trans (add_right_cancel hsum).symm
  exhausted := by
    intro s hs he
    by_cases e : s = t
    · subst e
      simp [WorkerPc.exhausted] at he
    · rw [Function.update_of_ne e] at he
      exact h.exhausted s hs he

/-- `wg.Done()` of a worker that found the counter past `todo`. -/
theorem wgDone (h : Claimed ws pcs par) {t : τ} (ht : t ∈ ws) (hpc : pcs t = .wgDone) :
    Claimed ws (Function.update pcs t .done) { par with wg := par.wg - 1 } where
  done_ge := h.done_ge
  claims := by
    have hsum := sum_comp_update ws WorkerPc.calling pcs ht .done
    simp only [hpc, WorkerPc.calling_wgDone, WorkerPc.calling_done, add_zero] at hsum
    rw [hsum]
    exact h.claims
  wg_eq := by
    have hsum := sum_comp_update ws WorkerPc.running pcs ht .done
    simp only [hpc, WorkerPc.running_wgDone, WorkerPc.running_done, add_zero] at hsum
    show par.wg - 1 = _
    have := h.wg_eq
    omega
  exhausted := by
    have hpast := h.exhausted t ht (by rw [hpc]; rfl)
    intro s hs he
    exact hpast

theorem workerStep (h : Claimed ws pcs par) {t : τ} (ht : t ∈ ws) :
    Claimed ws (Function.update pcs t (Queue.workerStep par (pcs t)).2) (Queue.workerStep par (pcs t)).1 := by
  cases hpc : pcs t with
  | add =>
    simp only [Queue.workerStep]
    split_ifs with hle
    · exact h.claim_past ht hpc hle
    · exact h.claim_index ht hpc (by omega)
  | call index => exact h.call ht hpc
  | wgDone => exact h.wgDone ht hpc
  | done =>
    show Claimed ws (Function.update pcs t .done) par
    rw [← hpc, Function.update_eq_self]
    exact h

end Claimed

theorem wakeNext_disposed (q : Queue τ α) : (wakeNext q).1.disposed = q.disposed := by
  unfold wakeNext
  split <;> rfl

theorem afterWake_disposed (q : Queue τ α) : (afterWake q).1.disposed = q.disposed := by
  unfold afterWake
  split_ifs
  · rfl
  · exact wakeNext_disposed q

/-! ## The owner and the run -/

variable [DecidableEq τ]

/-- What the owner's place says of its state: before the lock nothing is claimed and every
worker waits at its first add; while it waits, `Claimed`; afterwards every index below `todo`
was passed to `fn` once, and from the first step of `Dispose` on the queue is disposed. -/
def ExecStage (ws : List τ) (pcs : τ → WorkerPc) (disposed : Bool) : ExecPc τ α → ParState α → Prop
  | .start, par => (∀ t ∈ ws, pcs t = .add) ∧ par.todo = 0 ∧ par.called = []
  | .wait, par => 0 < par.todo ∧ Claimed ws.toFinset pcs par
  | .unlock, par => 0 < par.todo ∧ par.called.Perm (List.range par.todo)
  | .dispose pc, par => 0 < par.todo ∧ par.called.Perm (List.range par.todo) ∧ (pc ≠ .start → disposed = true)
  | .done, par => par.called.Perm (List.range par.todo) ∧ (0 < par.todo → disposed = true)

/-- The invariant of a run for `ExecuteInParallel` on goroutine `o` with workers `ws`. -/
structure ExecOk (o : τ) (ws : List τ) (w : World τ α) : Prop where
  workers : ∀ t, (w.threads t).ownerOf = some o ↔ t ∈ ws
  owner : ∃ pc par, w.threads o = .execute ws pc par ∧ par.todo = par.items.length ∧
    ExecStage ws (fun t => (w.threads t).workerPc) w.q.disposed pc par

theorem ExecStage.congr {ws : List τ} {pcs pcs' : τ → WorkerPc} {d d' : Bool} {pc : ExecPc τ α}
    {par : ParState α} (h : ExecStage ws pcs d pc par) (hpcs : ∀ t ∈ ws, pcs' t = pcs t)
    (hd : d = true → d' = true) : ExecStage ws pcs' d' pc par := by
  cases pc with
  | start => exact ⟨fun t ht => (hpcs t ht).trans (h.1 t ht), h.2⟩
  | wait => exact ⟨h.1, h.2.congr fun t ht => hpcs t (List.mem_toFinset.mp ht)⟩
  | unlock => exact h
  | dispose pc => exact ⟨h.1, h.2.1, fun hs => hd (h.2.2 hs)⟩
  | done => exact ⟨h.1, fun hpos => hd (h.2 hpos)⟩

variable {q : Queue τ α} {t : τ}

section Disposed

theorem putStep_disposed {change : List α → List α} {pc : PutPc τ} (h : q.disposed = true) :
    (putStep t change q pc).1.disposed = true := by
  cases pc <;> simp only [putStep] <;> (try split_ifs) <;> simp [afterWake_disposed, h]

theorem pollStep_disposed {number : ℤ} {timed timeUp : Bool} {pc : PollPc α} (h : q.disposed = true) :
    (pollStep t number timed timeUp q pc).1.disposed = true := by
  cases pc <;> simp only [pollStep, itemsGet] <;> (try split_ifs) <;> simpa

/-- `Dispose` marks the queue disposed at its first step that takes the lock. -/
theorem disposeStep_disposed {pc : DisposePc τ α} (h : pc = .start ∨ q.disposed = true)
    (hpc : (disposeStep t q pc).2 ≠ .start) : (disposeStep t q pc).1.disposed = true := by
  cases pc with
  | start =>
    simp only [disposeStep] at hpc ⊢
    split_ifs at hpc ⊢ <;> simp_all [disposeFinish]
  | add left =>
    have hq : q.disposed = true := by simpa using h
    cases left <;> simpa [disposeStep, disposeFinish]
  | send left =>
    have hq : q.disposed = true := by simpa using h
    cases left with
    | nil => simpa [disposeStep, disposeFinish]
    | cons w left => simp only [disposeStep]; split_ifs <;> simp_all [disposeFinish]
  | unlock d => simpa [disposeStep] using h
  | done d => simpa [disposeStep] using h

theorem disposeStep_keeps_disposed (pc : DisposePc τ α) (h : q.disposed = true) :
    (disposeStep t q pc).1.disposed = true := by
  by_cases hs : (disposeStep t q pc).2 = .start
  · cases pc with
    | start =>
      simp only [disposeStep] at hs ⊢
      split_ifs at hs ⊢ <;> simp_all [disposeFinish]
    | add left => cases left <;> simp [disposeStep, disposeFinish] at hs
    | send left =>
      cases left with
      | nil => simp [disposeStep, disposeFinish] at hs
      | cons w left => simp only [disposeStep] at hs; split_ifs at hs <;> simp [disposeFinish] at hs
    | unlock d => simp [disposeStep] at hs
    | done d => simp [disposeStep] at hs
  · exact disposeStep_disposed (.inr h) hs

theorem execStep_disposed {workers : List τ} {par : ParState α} {pc : ExecPc τ α} (h : q.disposed = true) :
    (execStep t workers q par pc).1.disposed = true := by
  cases pc with
  | start => simp only [execStep]; split_ifs <;> simpa
  | dispose pc =>
    have hd := disposeStep_keeps_disposed (t := t) pc h
    simp only [execStep]
    split <;> rename_i hds <;> rw [hds] at hd <;> exact hd
  | _ => simpa [execStep]

theorem World.step_disposed (w : World τ α) (t : τ) (c : Bool) (h : w.q.disposed = true) :
    (w.step t c).q.disposed = true := by
  unfold World.step
  split
  · split
    · exact h
    · exact putStep_disposed h
  · exact putStep_disposed h
  · exact pollStep_disposed h
  · exact disposeStep_keeps_disposed _ h
  · exact execStep_disposed h
  · split
    · exact h
    · exact h

end Disposed

namespace World

variable (w : World τ α)

theorem step_ownerOf (t' : τ) (c : Bool) : ((w.step t' c).threads t).ownerOf = (w.threads t).ownerOf := by
  unfold World.step
  split
  · rename_i items pc hth
    split <;> by_cases e : t = t' <;> simp_all [Function.update_of_ne, Thread.ownerOf]
  all_goals
    try (rename_i hth; by_cases e : t = t' <;> simp_all [Function.update_of_ne, Thread.ownerOf]; done)
  rename_i owner pc hth
  split
  · rename_i workers par howner
    by_cases e : t = t'
    · subst e
      simp [hth, Thread.ownerOf]
    · by_cases eo : t = owner
      · subst eo
        simp [Function.update_of_ne e, howner, Thread.ownerOf]
      · simp [Function.update_of_ne e, Function.update_of_ne eo]
  · rfl

/-- A step of another goroutine that is not one of `t`'s workers leaves `t` where it is. -/
theorem step_not_owner {t' : τ} (c : Bool) (h : t ≠ t') (hw : (w.threads t').ownerOf ≠ some t) :
    (w.step t' c).threads t = w.threads t := by
  unfold World.step
  split
  · split <;> simp [Function.update_of_ne h]
  · simp [Function.update_of_ne h]
  · simp [Function.update_of_ne h]
  · simp [Function.update_of_ne h]
  · simp [Function.update_of_ne h]
  · rename_i owner pc hth
    have ho : t ≠ owner := by
      rintro rfl
      simp [hth, Thread.ownerOf] at hw
    split
    · simp [Function.update_of_ne h, Function.update_of_ne ho]
    · rfl

theorem step_worker {o : τ} {ws : List τ} {pc : WorkerPc} {par : ParState α} (c : Bool)
    (hth : w.threads t = .worker o pc) (ho : w.threads o = .execute ws .wait par) :
    w.step t c = ⟨w.q, Function.update (Function.update w.threads o (.execute ws .wait (workerStep par pc).1)) t
      (.worker o (workerStep par pc).2)⟩ := by
  simp [World.step, hth, ho]

theorem step_worker_idle {o : τ} {pc : WorkerPc} (c : Bool) (hth : w.threads t = .worker o pc)
    (ho : ∀ workers par, w.threads o ≠ .execute workers .wait par) : w.step t c = w := by
  unfold World.step
  rw [hth]
  dsimp only
  split
  · rename_i workers par howner
    exact absurd howner (ho workers par)
  · rfl

theorem step_execute {ws : List τ} {pc : ExecPc τ α} {par : ParState α} (c : Bool)
    (hth : w.threads t = .execute ws pc par) :
    w.step t c = ⟨(execStep t ws w.q par pc).1,
      Function.update w.threads t (.execute ws (execStep t ws w.q par pc).2.1 (execStep t ws w.q par pc).2.2)⟩ := by
  simp [World.step, hth]

end World

namespace ExecOk

variable {o : τ} {ws : List τ} {w : World τ α}

theorem worker_of_mem (h : ExecOk o ws w) {t : τ} (ht : t ∈ ws) : ∃ pc, w.threads t = .worker o pc := by
  have hown := (h.workers t).2 ht
  cases hth : w.threads t with
  | worker owner pc =>
    rw [hth] at hown
    cases hown
    exact ⟨pc, rfl⟩
  | _ => rw [hth] at hown; cases hown

theorem owner_not_mem (h : ExecOk o ws w) : o ∉ ws := by
  intro ho
  obtain ⟨pc, hpc⟩ := h.worker_of_mem ho
  obtain ⟨_, _, hown, -⟩ := h.owner
  rw [hown] at hpc
  cases hpc

theorem frame (h : ExecOk o ws w) {w' : World τ α} (hown : ∀ t, (w'.threads t).ownerOf = (w.threads t).ownerOf)
    (ho : w'.threads o = w.threads o) (hws : ∀ t ∈ ws, w'.threads t = w.threads t)
    (hd : w.q.disposed = true → w'.q.disposed = true) : ExecOk o ws w' := by
  obtain ⟨pc, par, hth, htodo, hstage⟩ := h.owner
  refine ⟨fun t => hown t ▸ h.workers t, pc, par, ho.trans hth, htodo, hstage.congr ?_ hd⟩
  intro t ht
  rw [hws t ht]

/-- The owner moves to another place of its call; its workers stay where they are. -/
theorem setOwner (h : ExecOk o ws w) (q' : Queue τ α) {pc : ExecPc τ α} {par : ParState α}
    (htodo : par.todo = par.items.length)
    (hstage : ExecStage ws (fun t => (w.threads t).workerPc) q'.disposed pc par) :
    ExecOk o ws ⟨q', Function.update w.threads o (.execute ws pc par)⟩ := by
  have hws : ∀ s ∈ ws, Function.update w.threads o (.execute ws pc par) s = w.threads s :=
    fun s hs => Function.update_of_ne (fun e : s = o => h.owner_not_mem (e ▸ hs)) _ _
  refine ⟨fun s => ?_, pc, par, Function.update_self .., htodo,
    hstage.congr (fun s hs => by dsimp only; rw [hws s hs]) id⟩
  dsimp only
  by_cases e : s = o
  · subst e
    simp [Thread.ownerOf, h.owner_not_mem]
  · rw [Function.update_of_ne e]
    exact h.workers s

/-- A worker moves while the owner waits, and the owner's state with it. -/
theorem setWorker (h : ExecOk o ws w) {t : τ} (ht : t ∈ ws) {wpc : WorkerPc} {par : ParState α}
    (htodo : par.todo = par.items.length) (hpos : 0 < par.todo)
    (hclaimed : Claimed ws.toFinset (Function.update (fun s => (w.threads s).workerPc) t wpc) par) :
    ExecOk o ws ⟨w.q, Function.update (Function.update w.threads o (.execute ws .wait par)) t (.worker o wpc)⟩ := by
  have hot : t ≠ o := fun e => h.owner_not_mem (e ▸ ht)
  refine ⟨fun s => ?_, .wait, par, ?_, htodo, hpos, hclaimed.congr fun s hs => ?_⟩
  · dsimp only
    by_cases e : s = t
    · subst e
      simp [Thread.ownerOf, ht]
    · rw [Function.update_of_ne e]
      by_cases eo : s = o
      · subst eo
        simp [Thread.ownerOf, h.owner_not_mem]
      · rw [Function.update_of_ne eo]
        exact h.workers s
  · dsimp only
    rw [Function.update_of_ne hot.symm, Function.update_self]
  · have hso : s ≠ o := fun e => h.owner_not_mem (e ▸ List.mem_toFinset.mp hs)
    dsimp only
    by_cases e : s = t
    · subst e
      simp [Thread.workerPc]
    · rw [Function.update_of_ne e, Function.update_of_ne e, Function.update_of_ne hso]

/-- A step of the owner: it takes the lock and starts the workers, waits for them, unlocks and
runs `Dispose`. -/
theorem ownerStep (h : ExecOk o ws w) (hnd : ws.Nodup) (hne : ws ≠ []) (c : Bool) : ExecOk o ws (w.step o c) := by
  obtain ⟨pc, par, hth, htodo, hstage⟩ := h.owner
  rw [World.step_execute w c hth]
  cases pc with
  | start =>
    obtain ⟨hadd, hzero, hcalled⟩ := hstage
    simp only [execStep]
    split_ifs with hlock hempty
    · -- `todo == 0`: it returns holding the lock, with nothing claimed
      exact h.setOwner _ htodo ⟨by rw [hzero, hcalled]; rfl, fun hpos => absurd hzero (Nat.ne_of_gt hpos)⟩
    · -- the workers start, all at their first add
      have hadd' : ∀ s ∈ ws.toFinset, (w.threads s).workerPc = .add :=
        fun s hs => hadd s (List.mem_toFinset.mp hs)
      refine h.setOwner _ rfl ⟨List.length_pos_iff.mpr hempty, le_refl _, ?_, ?_, ?_⟩
      · rw [Finset.sum_congr rfl fun s hs => by rw [hadd' s hs]]
        simp [ParState.claimed]
      · rw [Finset.sum_congr rfl fun s hs => by rw [hadd' s hs]]
        simp [List.toFinset_card_of_nodup hnd]
      · intro s hs he
        rw [hadd' s hs] at he
        cases he
    · exact h.setOwner _ htodo ⟨hadd, hzero, hcalled⟩
  | wait =>
    obtain ⟨hpos, hclaimed⟩ := hstage
    simp only [execStep]
    split_ifs with hwg
    · exact h.setOwner _ htodo ⟨hpos, hclaimed.called_perm (List.toFinset_nonempty_iff ws |>.mpr hne) hwg⟩
    · exact h.setOwner _ htodo ⟨hpos, hclaimed⟩
  | unlock =>
    obtain ⟨hpos, hperm⟩ := hstage
    exact h.setOwner _ htodo ⟨hpos, hperm, fun hs => absurd rfl hs⟩
  | dispose dpc =>
    obtain ⟨hpos, hperm, hd⟩ := hstage
    have hdq : dpc = .start ∨ w.q.disposed = true := by
      by_cases hs : dpc = .start
      · exact .inl hs
      · exact .inr (hd hs)
    simp only [execStep]
    split
    · rename_i q' d hds
      have hq' := disposeStep_disposed hdq (by rw [hds]; simp)
      rw [hds] at hq'
      exact h.setOwner _ htodo ⟨hperm, fun _ => hq'⟩
    · rename_i q' dpc' hnotdone hds
      refine h.setOwner _ htodo ⟨hpos, hperm, fun hs => ?_⟩
      have hq' := disposeStep_disposed hdq (by rw [hds]; exact hs)
      rw [hds] at hq'
      exact hq'
  | done => exact h.setOwner _ htodo hstage

/-- A step of a worker: while the owner waits it claims, calls or returns; otherwise it does
not move. -/
theorem workerStep (h : ExecOk o ws w) {t : τ} (ht : t ∈ ws) (c : Bool) : ExecOk o ws (w.step t c) := by
  obtain ⟨wpc, hwpc⟩ := h.worker_of_mem ht
  obtain ⟨pc, par, hth, htodo, hstage⟩ := h.owner
  cases pc with
  | wait =>
    obtain ⟨hpos, hclaimed⟩ := hstage
    rw [World.step_worker w c hwpc hth]
    have hstep := hclaimed.workerStep (List.mem_toFinset.mpr ht)
    simp only [hwpc, Thread.workerPc] at hstep
    refine h.setWorker ht ?_ ?_ hstep
    · rw [workerStep_todo, workerStep_items]
      exact htodo
    · rw [workerStep_todo]
      exact hpos
  | _ =>
    rw [World.step_worker_idle w c hwpc (fun workers par' e => by rw [hth] at e; cases e)]
    exact h

theorem step (h : ExecOk o ws w) (hnd : ws.Nodup) (hne : ws ≠ []) (t : τ) (c : Bool) :
    ExecOk o ws (w.step t c) := by
  by_cases ho : t = o
  · subst ho
    exact h.ownerStep hnd hne c
  by_cases hw : t ∈ ws
  · exact h.workerStep hw c
  · refine h.frame (fun s => w.step_ownerOf t c) ?_ ?_ (w.step_disposed t c)
    · exact w.step_not_owner c (Ne.symm ho) (fun e => hw ((h.workers t).1 e))
    · intro s hs
      obtain ⟨pc, hpc⟩ := h.worker_of_mem hs
      exact w.step_other c (fun e => hw (e ▸ hs)) (fun workers par e => by rw [hpc] at e; cases e)

theorem run (h : ExecOk o ws w) (hnd : ws.Nodup) (hne : ws ≠ []) (sched : List (τ × Bool)) :
    ExecOk o ws (w.run sched) := by
  induction sched generalizing w with
  | nil => exact h
  | cons e sched ih => exact ih (h.step hnd hne e.1 e.2)

end ExecOk

theorem execOk_init (q : Queue τ α) (calls : τ → Call τ α) {o : τ} {ws : List τ}
    (hcall : calls o = .executeInParallel ws) (hworkers : ∀ t, calls t = .worker o ↔ t ∈ ws) :
    ExecOk o ws (World.init q calls) := by
  refine ⟨fun t => (Call.thread_ownerOf (calls t) o).trans (hworkers t), .start, .init, ?_, rfl, ?_, rfl, rfl⟩
  · show (calls o).thread = _
    rw [hcall]
    rfl
  · intro t ht
    show (calls t).thread.workerPc = .add
    rw [(hworkers t).2 ht]
    rfl

/-- `ExecuteInParallel` on goroutine `o`, started with the goroutines `ws` as its workers
(`numCPU` of them, at least one): in every interleaving of any calls, once it has passed
`wg.Wait()` it has called `fn` exactly once with each index of the items it found under the
lock, and if it found some and has returned, the queue is disposed. -/
theorem executeInParallel_calls_each_item_once (q : Queue τ α) (calls : τ → Call τ α) {o : τ} {ws : List τ}
    (hcall : calls o = .executeInParallel ws) (hworkers : ∀ t, calls t = .worker o ↔ t ∈ ws)
    (hnd : ws.Nodup) (hne : ws ≠ []) (sched : List (τ × Bool)) {pc : ExecPc τ α} {par : ParState α}
    (hth : ((World.init q calls).run sched).threads o = .execute ws pc par) (hpast : pc ≠ .start ∧ pc ≠ .wait) :
    par.called.Perm (List.range par.items.length) ∧
      (pc = .done → par.items ≠ [] → ((World.init q calls).run sched).q.disposed = true) := by
  obtain ⟨pc', par', hth', htodo, hstage⟩ := ((execOk_init q calls hcall hworkers).run hnd hne sched).owner
  rw [hth] at hth'
  cases hth'
  rw [← htodo]
  cases pc with
  | start => exact absurd rfl hpast.1
  | wait => exact absurd rfl hpast.2
  | unlock => exact ⟨hstage.2, fun e => by cases e⟩
  | dispose dpc => exact ⟨hstage.2.1, fun e => by cases e⟩
  | done =>
    refine ⟨hstage.1, fun _ hitems => hstage.2 ?_⟩
    rw [htodo]
    exact List.length_pos_iff.mpr hitems


/-- `New(hint)` after `Put(5, 6, 7)`. -/
def threeItems : Queue ℕ ℕ := { (newQueue : Queue ℕ ℕ) with items := [5, 6, 7] }

/-- `ExecuteInParallel` on goroutine `0` with workers `1` and `2`. -/
def parallelCalls : ℕ → Call ℕ ℕ
  | 0 => .executeInParallel [1, 2]
  | 1 | 2 => .worker 0
  | _ => .put []

/-- The workers interleave their claims; the owner then waits, unlocks and disposes. -/
def parallelSched : List (ℕ × Bool) :=
  [(0, false), (1, false), (2, false), (1, false), (2, false), (1, false), (1, false), (2, false), (1, false),
   (1, false), (2, false), (0, false), (0, false), (0, false), (0, false)]

theorem parallelSched_calls_each_once :
    ((World.init threeItems parallelCalls).run parallelSched).threads 0 =
        .execute [1, 2] .done ⟨3, 4, [5, 6, 7], 0, [0, 1, 2]⟩ ∧
      ([0, 1, 2] : List ℕ).Perm (List.range 3) ∧
      ((World.init threeItems parallelCalls).run parallelSched).q.disposed = true := by
  have hth : ((World.init threeItems parallelCalls).run parallelSched).threads 0 =
      .execute [1, 2] .done ⟨3, 4, [5, 6, 7], 0, [0, 1, 2]⟩ := rfl
  have hworkers : ∀ t, parallelCalls t = .worker 0 ↔ t ∈ [1, 2] := by
    intro t
    match t with
    | 0 | 1 | 2 => simp [parallelCalls]
    | n + 3 => simp [parallelCalls]
  obtain ⟨hperm, hdisposed⟩ := executeInParallel_calls_each_item_once threeItems parallelCalls rfl hworkers
    (by decide) (by decide) parallelSched hth ⟨by decide, by decide⟩
  exact ⟨hth, hperm, hdisposed rfl (by decide)⟩

end WeedgePkg.Jobutils.Queue
