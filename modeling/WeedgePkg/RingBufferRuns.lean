import WeedgePkg.RingBuffer

/-!
# Runs of the ring buffer: `Len`, `Offer`, and how full the buffer gets

`Len` loads `rb.queue`, then `rb.dequeue`, and subtracts in `uint64`. A `Len` only reads, so
its threads are added beside the threads of a `World` without changing their steps
(`Observed.run_world`). The states a run passes through are its trace: in an interleaving
model the order of the steps is the order in time, so "at some step during a call" is a
state of the trace between the call's first and last steps.
-/

namespace WeedgePkg.Jobutils.RingBuffer

variable {τ ω α : Type} [DecidableEq τ] [DecidableEq ω]

def World.trace (w : World τ α) : List (τ × Bool) → List (World τ α)
  | [] => [w]
  | (t, timeUp) :: sched => w :: (w.step t timeUp).trace sched

/-- Where a `Len` is: before its load of `rb.queue`, before its load of `rb.dequeue` with the
value of the first, or returned. -/
inductive LenPc where
  | start
  | loadDequeue (queue : UInt64)
  | done (len : UInt64)
  deriving DecidableEq, Repr

/-- One step of `Len`: an atomic load of a counter, as a `uint64`. -/
def lenStep (rb : RingBuffer α) : LenPc → LenPc
  | .start => .loadDequeue (UInt64.ofNat rb.queue)
  | .loadDequeue queue => .done (queue - UInt64.ofNat rb.dequeue)
  | .done len => .done len

/-- A world and the threads calling `Len` on its buffer. -/
structure Observed (τ ω α : Type) where
  world : World τ α
  lens : ω → LenPc

inductive Actor (τ ω : Type) where
  | thread (t : τ) (timeUp : Bool)
  | len (o : ω)

namespace Observed

def step (o : Observed τ ω α) : Actor τ ω → Observed τ ω α
  | .thread t timeUp => { o with world := o.world.step t timeUp }
  | .len i => { o with lens := Function.update o.lens i (lenStep o.world.rb (o.lens i)) }

def run (o : Observed τ ω α) : List (Actor τ ω) → Observed τ ω α
  | [] => o
  | a :: sched => (o.step a).run sched

def trace (o : Observed τ ω α) : List (Actor τ ω) → List (Observed τ ω α)
  | [] => [o]
  | a :: sched => o :: (o.step a).trace sched

def threadSteps : List (Actor τ ω) → List (τ × Bool)
  | [] => []
  | .thread t timeUp :: sched => (t, timeUp) :: threadSteps sched
  | .len _ :: sched => threadSteps sched

/-- `Len` changes nothing of the buffer or of the other threads: the world of an observed run
is the run of the world's own steps. -/
theorem run_world (o : Observed τ ω α) (sched : List (Actor τ ω)) :
    (o.run sched).world = o.world.run (threadSteps sched) := by
  induction sched generalizing o with
  | nil => rfl
  | cons a sched ih =>
    cases a with
    | thread t timeUp => exact ih (o.step (.thread t timeUp))
    | len i => exact ih (o.step (.len i))

end Observed

/-! ## How full the buffer gets -/

section Occupancy

variable {rb rb' : RingBuffer α}

/-- A node's sequence number `x` at slot `s`: free for the enqueue position `x`, less than a
lap past `dequeue`; or filled at the enqueue position `x - 1`, which a `put` has claimed. -/
def SeqOk (rb : RingBuffer α) (s x : ℕ) : Prop :=
  (x % rb.cap = s ∧ x < rb.dequeue + rb.cap) ∨ (x % rb.cap = (s + 1) % rb.cap ∧ x ≤ rb.queue)

/-- The buffer holds between `0` and `Cap()` items, and each node's sequence number is one
its slot can have. -/
structure Occupancy (rb : RingBuffer α) : Prop where
  two_le_cap : 2 ≤ rb.cap
  pow_cap : ∃ k, rb.cap = 2 ^ k
  mask_eq : rb.mask = rb.cap - 1
  dequeue_le : rb.dequeue ≤ rb.queue
  queue_le : rb.queue ≤ rb.dequeue + rb.cap
  seq_ok : ∀ s n, rb.nodes[s]? = some n → SeqOk rb s n.position

/-- The counters only grow, and the number of nodes stays. -/
def Grows (rb rb' : RingBuffer α) : Prop :=
  rb.queue ≤ rb'.queue ∧ rb.dequeue ≤ rb'.dequeue ∧ rb'.cap = rb.cap

/-- What a `put` knows of the position it holds. -/
def PutPc.Ok (rb : RingBuffer α) : PutPc → Prop
  | .cas pos => pos < rb.dequeue + rb.cap
  | .write pos | .publish pos => pos < rb.queue
  | _ => True

/-- What a `Poll` knows of the position it holds. -/
def PollPc.Ok (rb : RingBuffer α) : PollPc α → Prop
  | .cas pos => pos < rb.queue
  | .read pos | .clear pos _ | .publish pos _ => pos < rb.dequeue
  | _ => True

def Thread.Ok (rb : RingBuffer α) : Thread α → Prop
  | .put _ _ pc => pc.Ok rb
  | .poll _ pc => pc.Ok rb
  | .dispose _ => True

theorem Grows.refl (rb : RingBuffer α) : Grows rb rb := ⟨Nat.le_refl _, Nat.le_refl _, rfl⟩

theorem Grows.trans {rb'' : RingBuffer α} (h : Grows rb rb') (h' : Grows rb' rb'') : Grows rb rb'' :=
  ⟨h.1.trans h'.1, h.2.1.trans h'.2.1, h'.2.2.trans h.2.2⟩

theorem SeqOk.mono (hg : Grows rb rb') {s x : ℕ} (h : SeqOk rb s x) : SeqOk rb' s x := by
  obtain ⟨hq, hd, hc⟩ := hg
  unfold SeqOk at h ⊢
  rw [hc]
  rcases h with ⟨h1, h2⟩ | ⟨h1, h2⟩
  · exact .inl ⟨h1, by omega⟩
  · exact .inr ⟨h1, by omega⟩

theorem Thread.Ok.mono (hg : Grows rb rb') {th : Thread α} (h : th.Ok rb) : th.Ok rb' := by
  obtain ⟨hq, hd, hc⟩ := hg
  rcases th with ⟨_, _, pc⟩ | ⟨_, pc⟩ | _
  · cases pc <;> simp only [Thread.Ok, PutPc.Ok, hc] at h ⊢ <;> omega
  · cases pc <;> simp only [Thread.Ok, PollPc.Ok] at h ⊢ <;> omega
  · trivial

theorem succ_mod_eq {c : ℕ} (h2 : 2 ≤ c) (x : ℕ) : (x + 1) % c = (x % c + 1) % c := by
  rw [Nat.add_mod, Nat.mod_eq_of_lt (by omega : 1 < c)]

theorem succ_mod_ne {c r : ℕ} (h2 : 2 ≤ c) (hr : r < c) : (r + 1) % c ≠ r := by
  rcases Nat.lt_or_ge (r + 1) c with hlt | hge
  · rw [Nat.mod_eq_of_lt hlt]
    omega
  · rw [show r + 1 = c by omega, Nat.mod_self]
    omega

theorem SeqOk.free (h2 : 2 ≤ rb.cap) {x : ℕ} (h : SeqOk rb (x % rb.cap) x) : x < rb.dequeue + rb.cap := by
  rcases h with ⟨-, h⟩ | ⟨h, -⟩
  · exact h
  · exact absurd h.symm (succ_mod_ne h2 (Nat.mod_lt _ (by omega)))

theorem SeqOk.filled (h2 : 2 ≤ rb.cap) {x : ℕ} (h : SeqOk rb (x % rb.cap) (x + 1)) : x + 1 ≤ rb.queue := by
  rcases h with ⟨h, -⟩ | ⟨-, h⟩
  · rw [succ_mod_eq h2] at h
    exact absurd h (succ_mod_ne h2 (Nat.mod_lt _ (by omega)))
  · exact h

namespace Occupancy

theorem slot (h : Occupancy rb) (pos : ℕ) : pos &&& rb.mask = pos % rb.cap := by
  obtain ⟨k, hk⟩ := h.pow_cap
  rw [h.mask_eq, hk, Nat.and_two_pow_sub_one_eq_mod]

theorem node?_seqOk (h : Occupancy rb) {pos : ℕ} {n : Node α} (hn : rb.node? pos = some n) :
    SeqOk rb (pos % rb.cap) n.position := by
  rw [node?, h.slot] at hn
  exact h.seq_ok _ _ hn

/-- A step that keeps the nodes and the mask, grows the counters, and keeps them at most a
lap apart. -/
theorem counters (h : Occupancy rb) (hnodes : rb'.nodes = rb.nodes) (hmask : rb'.mask = rb.mask)
    (hq : rb.queue ≤ rb'.queue) (hd : rb.dequeue ≤ rb'.dequeue) (hdq : rb'.dequeue ≤ rb'.queue)
    (hqd : rb'.queue ≤ rb'.dequeue + rb.cap) : Occupancy rb' := by
  have hc : rb'.cap = rb.cap := by rw [cap, cap, hnodes]
  have hg : Grows rb rb' := ⟨hq, hd, hc⟩
  refine ⟨hc ▸ h.two_le_cap, hc ▸ h.pow_cap, by rw [hmask, hc, h.mask_eq], hdq, hc ▸ hqd, fun s n hn => ?_⟩
  rw [hnodes] at hn
  exact (h.seq_ok s n hn).mono hg

/-- A step that changes one node and keeps its sequence number one the slot can have. -/
theorem modifyNode (h : Occupancy rb) (pos : ℕ) (g : Node α → Node α) (hg : ∀ n, rb.nodes[pos % rb.cap]? = some n →
    SeqOk rb (pos % rb.cap) (g n).position) :
    Occupancy { rb with nodes := rb.nodes.modify (pos &&& rb.mask) g } := by
  have hc : ({ rb with nodes := rb.nodes.modify (pos &&& rb.mask) g } : RingBuffer α).cap = rb.cap := by
    simp only [cap, List.length_modify]
  have hgr : Grows rb { rb with nodes := rb.nodes.modify (pos &&& rb.mask) g } := ⟨Nat.le_refl _, Nat.le_refl _, hc⟩
  refine ⟨hc ▸ h.two_le_cap, hc ▸ h.pow_cap, by rw [hc]; exact h.mask_eq, h.dequeue_le, hc ▸ h.queue_le,
    fun s n hn => ?_⟩
  simp only [h.slot] at hn
  by_cases hs : pos % rb.cap = s
  · subst hs
    rw [List.getElem?_modify_eq, Option.map_eq_map, Option.map_eq_some_iff] at hn
    obtain ⟨n0, hn0, rfl⟩ := hn
    exact (hg n0 hn0).mono hgr
  · rw [List.getElem?_modify_ne _ _ hs] at hn
    exact (h.seq_ok s n hn).mono hgr

theorem setData (h : Occupancy rb) (pos : ℕ) (d : Option α) : Occupancy (rb.setData pos d) :=
  h.modifyNode pos _ fun n hn => h.seq_ok _ n hn

theorem publishPut (h : Occupancy rb) {pos : ℕ} (hpos : pos < rb.queue) : Occupancy (rb.setPosition pos (pos + 1)) :=
  h.modifyNode pos _ fun _ _ => .inr ⟨succ_mod_eq h.two_le_cap pos, hpos⟩

theorem publishPoll (h : Occupancy rb) {pos : ℕ} (hpos : pos < rb.dequeue) :
    Occupancy (rb.setPosition pos (pos + rb.mask + 1)) := by
  have hlap : pos + rb.mask + 1 = pos + rb.cap := by rw [h.mask_eq]; have := h.two_le_cap; omega
  refine h.modifyNode pos _ fun _ _ => .inl ⟨?_, ?_⟩
  · dsimp only
    rw [hlap, Nat.add_mod_right]
  · dsimp only
    rw [hlap]
    omega

end Occupancy

theorem setData_grows (rb : RingBuffer α) (pos : ℕ) (d : Option α) : Grows rb (rb.setData pos d) :=
  ⟨Nat.le_refl _, Nat.le_refl _, by simp only [cap, setData, List.length_modify]⟩

theorem setPosition_grows (rb : RingBuffer α) (pos p : ℕ) : Grows rb (rb.setPosition pos p) :=
  ⟨Nat.le_refl _, Nat.le_refl _, by simp only [cap, setPosition, List.length_modify]⟩

/-- Every step of a `put` keeps the invariant and what the `put` knows, and only grows the
counters. -/
theorem putStep_occupancy (h : Occupancy rb) (item : α) (offer : Bool) {pc : PutPc} (hpc : pc.Ok rb) :
    Occupancy (putStep rb item offer pc).1 ∧ (putStep rb item offer pc).2.1.Ok (putStep rb item offer pc).1 ∧
      Grows rb (putStep rb item offer pc).1 := by
  cases pc with
  | start => exact ⟨h, trivial, Grows.refl rb⟩
  | loop pos =>
    refine ⟨h, ?_, Grows.refl rb⟩
    simp only [putStep]
    split <;> trivial
  | loadSeq pos =>
    simp only [putStep]
    split
    · exact ⟨h, trivial, Grows.refl rb⟩
    · rename_i n hn
      refine ⟨h, ?_, Grows.refl rb⟩
      split
      · -- the node reads `pos`: it is free, so `pos` is less than a lap past `dequeue`
        rename_i hseq
        have hfree := h.node?_seqOk hn
        rw [hseq] at hfree
        exact hfree.free h.two_le_cap
      · trivial
  | cas pos =>
    simp only [putStep]
    split
    · -- the CAS claims `pos`, less than a lap past `dequeue`
      rename_i hq
      have hlap : pos < rb.dequeue + rb.cap := hpc
      have hgr : Grows rb { rb with queue := pos + 1 } := ⟨show rb.queue ≤ pos + 1 by omega, Nat.le_refl _, rfl⟩
      refine ⟨h.counters rfl rfl hgr.1 hgr.2.1 ?_ ?_, Nat.lt_succ_self pos, hgr⟩
      · show rb.dequeue ≤ pos + 1
        have := h.dequeue_le
        omega
      · show pos + 1 ≤ rb.dequeue + rb.cap
        omega
    · refine ⟨h, ?_, Grows.refl rb⟩
      split <;> trivial
  | reload =>
    refine ⟨h, ?_, Grows.refl rb⟩
    simp only [putStep]
    split <;> trivial
  | write pos => exact ⟨h.setData pos (some item), hpc, setData_grows rb pos (some item)⟩
  | publish pos => exact ⟨h.publishPut hpc, trivial, setPosition_grows rb pos (pos + 1)⟩
  | done ok err => exact ⟨h, trivial, Grows.refl rb⟩
  | panicked => exact ⟨h, trivial, Grows.refl rb⟩

theorem pollRetry_ok (rb : RingBuffer α) (timed timeUp : Bool) (pos : ℕ) : (pollRetry timed timeUp pos : PollPc α).Ok rb := by
  unfold pollRetry
  split <;> trivial

/-- Every step of a `Poll` keeps the invariant and what the `Poll` knows, and only grows the
counters. -/
theorem pollStep_occupancy (h : Occupancy rb) (timed timeUp : Bool) {pc : PollPc α} (hpc : pc.Ok rb) :
    Occupancy (pollStep rb timed timeUp pc).1 ∧ (pollStep rb timed timeUp pc).2.1.Ok (pollStep rb timed timeUp pc).1 ∧
      Grows rb (pollStep rb timed timeUp pc).1 := by
  cases pc with
  | start => exact ⟨h, trivial, Grows.refl rb⟩
  | loop pos =>
    refine ⟨h, ?_, Grows.refl rb⟩
    simp only [pollStep]
    split <;> trivial
  | loadSeq pos =>
    simp only [pollStep]
    split
    · exact ⟨h, trivial, Grows.refl rb⟩
    · rename_i n hn
      refine ⟨h, ?_, Grows.refl rb⟩
      split
      · -- the node reads `pos + 1`: it is filled, so `pos` has been claimed by a `put`
        rename_i hseq
        have hfilled := h.node?_seqOk hn
        rw [hseq] at hfilled
        exact hfilled.filled h.two_le_cap
      · trivial
  | cas pos =>
    simp only [pollStep]
    split
    · -- the CAS claims `pos`, which a `put` has claimed before
      rename_i hd
      have hclaimed : pos < rb.queue := hpc
      have hgr : Grows rb { rb with dequeue := pos + 1 } := ⟨Nat.le_refl _, show rb.dequeue ≤ pos + 1 by omega, rfl⟩
      refine ⟨h.counters rfl rfl hgr.1 hgr.2.1 hclaimed ?_, Nat.lt_succ_self pos, hgr⟩
      show rb.queue ≤ pos + 1 + rb.cap
      have := h.queue_le
      omega
    · exact ⟨h, pollRetry_ok rb timed timeUp pos, Grows.refl rb⟩
  | reload => exact ⟨h, pollRetry_ok rb timed timeUp rb.dequeue, Grows.refl rb⟩
  | read pos => exact ⟨h, hpc, Grows.refl rb⟩
  | clear pos d => exact ⟨h.setData pos none, hpc, setData_grows rb pos none⟩
  | publish pos d => exact ⟨h.publishPoll hpc, trivial, setPosition_grows rb pos (pos + rb.mask + 1)⟩
  | done d err => exact ⟨h, trivial, Grows.refl rb⟩
  | panicked => exact ⟨h, trivial, Grows.refl rb⟩

/-- One step of any thread keeps the invariant and what every thread knows. -/
theorem World.step_occupancy {w : World τ α} (h : Occupancy w.rb) (hth : ∀ t, (w.threads t).Ok w.rb)
    (t : τ) (timeUp : Bool) :
    Occupancy (w.step t timeUp).rb ∧ (∀ t', ((w.step t timeUp).threads t').Ok (w.step t timeUp).rb) ∧
      Grows w.rb (w.step t timeUp).rb := by
  have hown := hth t
  cases ht : w.threads t with
  | put item offer pc =>
    rw [ht] at hown
    have hpc : pc.Ok w.rb := hown
    obtain ⟨h', hpc', hgr⟩ := putStep_occupancy h item offer hpc
    generalize he : putStep w.rb item offer pc = r at h' hpc' hgr
    obtain ⟨rb', pc', claimed⟩ := r
    rw [World.step_put ht timeUp he]
    dsimp only at h' hpc' hgr ⊢
    refine ⟨h', fun t' => ?_, hgr⟩
    by_cases ht' : t' = t
    · rw [ht', Function.update_self]
      exact hpc'
    · rw [Function.update_of_ne ht']
      exact (hth t').mono hgr
  | poll timed pc =>
    rw [ht] at hown
    have hpc : pc.Ok w.rb := hown
    obtain ⟨h', hpc', hgr⟩ := pollStep_occupancy h timed timeUp hpc
    generalize he : pollStep w.rb timed timeUp pc = r at h' hpc' hgr
    obtain ⟨rb', pc', claimed⟩ := r
    rw [World.step_poll ht timeUp he]
    dsimp only at h' hpc' hgr ⊢
    refine ⟨h', fun t' => ?_, hgr⟩
    by_cases ht' : t' = t
    · rw [ht', Function.update_self]
      exact hpc'
    · rw [Function.update_of_ne ht']
      exact (hth t').mono hgr
  | dispose done =>
    cases done with
    | false =>
      -- `Dispose` only sets the flag
      have hgr : Grows w.rb { w.rb with disposed := true } := ⟨Nat.le_refl _, Nat.le_refl _, rfl⟩
      simp only [World.step, ht]
      refine ⟨h.counters rfl rfl hgr.1 hgr.2.1 h.dequeue_le h.queue_le, fun t' => ?_, hgr⟩
      by_cases ht' : t' = t
      · rw [ht', Function.update_self]
        trivial
      · rw [Function.update_of_ne ht']
        exact (hth t').mono hgr
    | true =>
      simp only [World.step, ht]
      exact ⟨h, hth, Grows.refl w.rb⟩

theorem World.run_occupancy {w : World τ α} (h : Occupancy w.rb) (hth : ∀ t, (w.threads t).Ok w.rb)
    (sched : List (τ × Bool)) :
    Occupancy (w.run sched).rb ∧ (∀ t, ((w.run sched).threads t).Ok (w.run sched).rb) ∧ Grows w.rb (w.run sched).rb := by
  induction sched generalizing w with
  | nil => exact ⟨h, hth, Grows.refl w.rb⟩
  | cons e sched ih =>
    obtain ⟨h', hth', hgr⟩ := World.step_occupancy h hth e.1 e.2
    obtain ⟨h'', hth'', hgr'⟩ := ih h' hth'
    exact ⟨h'', hth'', hgr.trans hgr'⟩

theorem occupancy_newRingBuffer {size : UInt64} (h2 : 2 ≤ size.toNat) (h63 : size.toNat ≤ 2 ^ 63) :
    Occupancy (newRingBuffer α size) := by
  obtain ⟨k, hk, hle, -⟩ := roundUp_spec (by omega) h63
  have hcap : (newRingBuffer α size).cap = 2 ^ k := by rw [newRingBuffer_cap, hk]
  refine ⟨by omega, ⟨k, hcap⟩, ?_, Nat.le_refl 0, Nat.zero_le _, fun s n hn => ?_⟩
  · rw [newRingBuffer_mask (hk ▸ Nat.one_le_two_pow), hcap, hk]
  · -- node `s` starts at position `s`: free for enqueue position `s`
    simp only [newRingBuffer, List.getElem?_map, Option.map_eq_some_iff] at hn
    obtain ⟨i, hi, rfl⟩ := hn
    have hs : s < (roundUp size).toNat := (List.getElem?_eq_some_iff.mp hi).1.trans_eq List.length_range
    rw [List.getElem?_range hs, Option.some.injEq] at hi
    subst hi
    have hsc : s < (newRingBuffer α size).cap := by rw [newRingBuffer_cap]; exact hs
    exact .inl ⟨Nat.mod_eq_of_lt hsc, by simp only [newRingBuffer] at hsc ⊢; omega⟩

/-- From `NewRingBuffer(size)` with `2 ≤ size ≤ 2^63`, in every interleaving of any calls,
`dequeue ≤ queue ≤ dequeue + Cap()`: the buffer never holds more than `Cap()` items. The
counters are numbers here where the source's are `uint64`, so this speaks of runs that claim
fewer than `2^64` positions, before `queue` could wrap. -/
theorem newRingBuffer_run_occupancy (size : UInt64) (h2 : 2 ≤ size.toNat) (h63 : size.toNat ≤ 2 ^ 63)
    (calls : τ → Call α) (sched : List (τ × Bool)) :
    ((World.init (newRingBuffer α size) calls).run sched).rb.dequeue ≤
        ((World.init (newRingBuffer α size) calls).run sched).rb.queue ∧
      ((World.init (newRingBuffer α size) calls).run sched).rb.queue ≤
        ((World.init (newRingBuffer α size) calls).run sched).rb.dequeue + (newRingBuffer α size).cap := by
  have hinit : ∀ t, ((World.init (newRingBuffer α size) calls).threads t).Ok (newRingBuffer α size) := by
    intro t
    show (calls t).thread.Ok _
    cases calls t <;> trivial
  obtain ⟨h, -, hgr⟩ := World.run_occupancy (occupancy_newRingBuffer h2 h63) hinit sched
  exact ⟨h.dequeue_le, hgr.2.2 ▸ h.queue_le⟩

end Occupancy

/-- Two `Put`s and a `Get` on `NewRingBuffer(4)`, one step each in turn. -/
def putsAndGet : ℕ → Call ℕ
  | 0 => .put 1 false
  | 1 => .put 2 false
  | _ => .poll false

def putsAndGetSched : List (ℕ × Bool) :=
  [0, 1, 2, 0, 1, 2, 0, 1, 2, 0, 1, 2].map fun t => (t, false)

theorem putsAndGet_occupancy :
    2 ≤ (4 : UInt64).toNat ∧ (4 : UInt64).toNat ≤ 2 ^ 63 ∧
      ((World.init (newRingBuffer ℕ 4) putsAndGet).run putsAndGetSched).rb.dequeue ≤
          ((World.init (newRingBuffer ℕ 4) putsAndGet).run putsAndGetSched).rb.queue ∧
        ((World.init (newRingBuffer ℕ 4) putsAndGet).run putsAndGetSched).rb.queue ≤
          ((World.init (newRingBuffer ℕ 4) putsAndGet).run putsAndGetSched).rb.dequeue +
            (newRingBuffer ℕ 4).cap :=
  ⟨by decide, by decide, newRingBuffer_run_occupancy 4 (by decide) (by decide) putsAndGet _⟩

theorem forall_mem_of_all {β : Type} {P : β → Prop} [DecidablePred P] {l : List β}
    (h : (l.all fun x => decide (P x)) = true) : ∀ x ∈ l, P x :=
  fun x hx => of_decide_eq_true (List.all_eq_true.mp h x hx)

/-! ## Two races -/

def twoOffers : Fin 2 → Call ℕ
  | 0 => .put 1 true
  | 1 => .put 2 true

/-- Both `Offer`s load `queue = 0` and find the node free; the first wins the CAS, and the
second fails it and returns. -/
def offerRace : List (Fin 2 × Bool) :=
  ([0, 0, 0, 1, 1, 1, 0, 1] : List (Fin 2)).map fun t => (t, false)

def putGet : Fin 2 → Call ℕ
  | 0 => .put 1 false
  | 1 => .poll false

/-- `Len` loads `queue`, a `Put` and a `Get` run to their returns, and `Len` loads
`dequeue`. -/
def lenRace : List (Actor (Fin 2) Unit) :=
  .len () :: (List.replicate 6 (.thread 0 false) ++ List.replicate 7 (.thread 1 false)) ++ [.len ()]

def lenRaceStart : Observed (Fin 2) Unit ℕ := ⟨World.init (newRingBuffer ℕ 2) putGet, fun _ => .start⟩

/-- An `Offer` returns `(false, nil)` although the buffer of capacity `2` never holds more
than one item, and a `Len` returns `2^64 - 1` although the buffer never holds more than one. -/
theorem offer_len_not_linearizable :
    ((World.init (newRingBuffer ℕ 2) twoOffers).run offerRace).threads 1 = .put 2 true (.done false none) ∧
      (∀ w ∈ (World.init (newRingBuffer ℕ 2) twoOffers).trace offerRace, w.rb.queue - w.rb.dequeue < w.rb.cap) ∧
      (lenRaceStart.run lenRace).lens () = .done 0xFFFFFFFFFFFFFFFF ∧
      ∀ o ∈ lenRaceStart.trace lenRace,
        o.world.rb.dequeue ≤ o.world.rb.queue ∧ o.world.rb.queue - o.world.rb.dequeue ≤ 1 ∧ o.world.rb.cap = 2 :=
  ⟨by decide, forall_mem_of_all (by decide), by decide, forall_mem_of_all (by decide)⟩

end WeedgePkg.Jobutils.RingBuffer
