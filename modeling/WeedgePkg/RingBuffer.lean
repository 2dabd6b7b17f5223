import Mathlib.Data.List.Basic
import Mathlib.Data.Nat.Bitwise
import Mathlib.Logic.Function.Basic

/-!
# `jobutils.RingBuffer`

The lock-free multi-producer multi-consumer ring buffer as a transition system. Every node
carries a sequence number `position`: a producer may claim enqueue position `pos` when the
node of `pos` reads `pos`, and publishes `pos + 1` after writing its item; a consumer may
claim dequeue position `pos` when the node reads `pos + 1`, and publishes `pos + mask + 1`
after taking the item. Each atomic load, CAS and store, and each plain access of
`node.data`, is one step of one thread; a run is any interleaving of them.

The counters are natural numbers: in runs with fewer than `2^63` claimed positions no
`uint64` of the buffer wraps, so `seq - pos == 0` is `seq = pos`. The lists `enqBy` and
`deqBy` are ghost state: the threads whose CAS claimed each position, in order.
-/

namespace WeedgePkg.Jobutils

/-! ## `roundUp` -/

/-- `roundUp(v)`: every bit of `v - 1` below its highest set one is set, then one is added. -/
def roundUp (v : UInt64) : UInt64 :=
  let v := v - 1
  let v := v ||| v >>> 1
  let v := v ||| v >>> 2
  let v := v ||| v >>> 4
  let v := v ||| v >>> 8
  let v := v ||| v >>> 16
  let v := v ||| v >>> 32
  v + 1

/-- The bits of `y` at and below `L` that lie within `2^i` of `L` are set, and none above. -/
def SmearedBelow (L i y : ℕ) : Prop := y < 2 ^ (L + 1) ∧ ∀ j ≤ L, L < j + 2 ^ i → y.testBit j

theorem smearedBelow_or_shiftRight {L i y : ℕ} (h : SmearedBelow L i y) :
    SmearedBelow L (i + 1) (y ||| y >>> 2 ^ i) := by
  obtain ⟨hlt, hbits⟩ := h
  refine ⟨Nat.or_lt_two_pow hlt ((Nat.shiftRight_le y _).trans_lt hlt), fun j hj hL => ?_⟩
  rw [Nat.testBit_or, Nat.testBit_shiftRight, Bool.or_eq_true]
  -- the bit is set already, or it is copied from `2^i` places higher
  by_cases hnear : L < j + 2 ^ i
  · exact .inl (hbits j hj hnear)
  · refine .inr (hbits (2 ^ i + j) (by omega) ?_)
    rw [Nat.pow_succ] at hL
    omega

theorem smearedBelow_log2 {x : ℕ} (hx : x ≠ 0) : SmearedBelow x.log2 0 x := by
  refine ⟨Nat.lt_log2_self, fun j hj hL => ?_⟩
  have hjL : j = x.log2 := by rw [Nat.pow_zero] at hL; omega
  rw [hjL]
  exact Nat.testBit_log2 hx

theorem eq_of_smearedBelow {L i y : ℕ} (h : SmearedBelow L i y) (hL : L < 2 ^ i) :
    y = 2 ^ (L + 1) - 1 := by
  obtain ⟨hlt, hbits⟩ := h
  apply Nat.eq_of_testBit_eq
  intro j
  rw [Nat.testBit_two_pow_sub_one]
  by_cases hj : j ≤ L
  · rw [hbits j hj (by omega), decide_eq_true (by omega)]
  · rw [Nat.testBit_eq_false_of_lt (hlt.trans_le (Nat.pow_le_pow_right (by omega) (by omega))),
      decide_eq_false (by omega)]

/-- `roundUp` on the natural number of its argument minus one. -/
def smear (x : ℕ) : ℕ :=
  let x := x ||| x >>> 1
  let x := x ||| x >>> 2
  let x := x ||| x >>> 4
  let x := x ||| x >>> 8
  let x := x ||| x >>> 16
  x ||| x >>> 32

theorem smear_eq {x : ℕ} (hx : x ≠ 0) (hlt : x < 2 ^ 64) : smear x = 2 ^ (x.log2 + 1) - 1 := by
  have h := smearedBelow_or_shiftRight <| smearedBelow_or_shiftRight <| smearedBelow_or_shiftRight <|
    smearedBelow_or_shiftRight <| smearedBelow_or_shiftRight <| smearedBelow_or_shiftRight <|
    smearedBelow_log2 hx
  have hL : x.log2 < 2 ^ 6 := (Nat.log2_lt hx).mpr hlt
  exact eq_of_smearedBelow h hL

theorem roundUp_toNat_eq_smear (v : UInt64) (hv : 1 ≤ v) :
    (roundUp v).toNat = (smear (v.toNat - 1) + 1) % 2 ^ 64 := by
  have h1 : (v - 1).toNat = v.toNat - 1 := UInt64.toNat_sub_of_le v 1 hv
  simp only [roundUp, smear, UInt64.toNat_add, UInt64.toNat_or, UInt64.toNat_shiftRight, h1]
  rfl

/-- `roundUp(v)` is the least power of two at or above `v`, for `2 ≤ v ≤ 2^63`. -/
theorem roundUp_toNat {v : UInt64} (h2 : 2 ≤ v.toNat) (h63 : v.toNat ≤ 2 ^ 63) :
    (roundUp v).toNat = 2 ^ ((v.toNat - 1).log2 + 1) := by
  have hx : v.toNat - 1 ≠ 0 := by omega
  have hL : (v.toNat - 1).log2 < 63 := (Nat.log2_lt hx).mpr (by omega)
  have hpow : 2 ^ ((v.toNat - 1).log2 + 1) < 2 ^ 64 := Nat.pow_lt_pow_right (by omega) (by omega)
  rw [roundUp_toNat_eq_smear v (UInt64.le_iff_toNat_le.mpr (by simp; omega)),
    smear_eq hx (by omega), Nat.sub_add_cancel Nat.one_le_two_pow, Nat.mod_eq_of_lt hpow]

/-- `roundUp(v)` is a power of two at least `v` and below `2 * v`, for `1 ≤ v ≤ 2^63`. -/
theorem roundUp_spec {v : UInt64} (h1 : 1 ≤ v.toNat) (h63 : v.toNat ≤ 2 ^ 63) :
    ∃ k, (roundUp v).toNat = 2 ^ k ∧ v.toNat ≤ 2 ^ k ∧ 2 ^ k < 2 * v.toNat := by
  rcases Nat.lt_or_ge v.toNat 2 with hv | hv
  · -- `v = 1`: `v - 1` has no bit to smear
    have hv1 : v = 1 := UInt64.toNat_inj.mp (by simp only [UInt64.toNat_one]; omega)
    exact ⟨0, by rw [hv1]; decide, by omega, by omega⟩
  · refine ⟨(v.toNat - 1).log2 + 1, roundUp_toNat hv h63, ?_, ?_⟩
    · have hhigh : v.toNat - 1 < 2 ^ ((v.toNat - 1).log2 + 1) := Nat.lt_log2_self
      omega
    · have hlow : 2 ^ (v.toNat - 1).log2 ≤ v.toNat - 1 := Nat.log2_self_le (by omega)
      rw [Nat.pow_succ]
      omega

theorem pow_le_of_lt_two_mul {v k j : ℕ} (hk : 2 ^ k < 2 * v) (hj : v ≤ 2 ^ j) : 2 ^ k ≤ 2 ^ j := by
  by_contra hlt
  have hjk : j + 1 ≤ k := (Nat.pow_lt_pow_iff_right (by decide)).mp (Nat.lt_of_not_le hlt)
  have h2 : 2 ^ (j + 1) ≤ 2 ^ k := Nat.pow_le_pow_right (by decide) hjk
  rw [Nat.pow_succ] at h2
  omega

/-! ## The shared state -/

/-- `node`: the sequence number and the item, `nil` being `none`. -/
structure Node (α : Type) where
  position : ℕ
  data : Option α
  deriving DecidableEq, Repr

/-- `ErrDisposed` and `ErrTimeout` of `queue.go`, which the ring buffer returns too. -/
inductive QueueError where
  | disposed
  | timeout
  deriving DecidableEq, Repr

/-- The fields of `RingBuffer`; `disposed` is the flag that `Dispose` turns from `0` to `1`.
The counters are numbers where the source's are `uint64`: a run claims fewer than `2^64`
positions. -/
structure RingBuffer (α : Type) where
  queue : ℕ
  dequeue : ℕ
  mask : ℕ
  disposed : Bool
  nodes : List (Node α)
  deriving DecidableEq, Repr

/-- `NewRingBuffer(size)`: `roundUp(size)` nodes, node `i` at position `i`, and
`mask = size - 1` in `uint64`. -/
def newRingBuffer (α : Type) (size : UInt64) : RingBuffer α :=
  let size := roundUp size
  { queue := 0, dequeue := 0, mask := (size - 1).toNat, disposed := false,
    nodes := (List.range size.toNat).map fun i => ⟨i, none⟩ }

namespace RingBuffer

variable {α : Type}

def cap (rb : RingBuffer α) : ℕ := rb.nodes.length

/-- `rb.nodes[pos&rb.mask]`, or `none` where the index panics. -/
def node? (rb : RingBuffer α) (pos : ℕ) : Option (Node α) := rb.nodes[pos &&& rb.mask]?

/-- `n.data = d` on the node of `pos`. -/
def setData (rb : RingBuffer α) (pos : ℕ) (d : Option α) : RingBuffer α :=
  { rb with nodes := rb.nodes.modify (pos &&& rb.mask) fun n => { n with data := d } }

/-- `atomic.StoreUint64(&n.position, p)` on the node of `pos`. -/
def setPosition (rb : RingBuffer α) (pos p : ℕ) : RingBuffer α :=
  { rb with nodes := rb.nodes.modify (pos &&& rb.mask) fun n => { n with position := p } }

theorem newRingBuffer_cap (size : UInt64) : (newRingBuffer α size).cap = (roundUp size).toNat := by
  simp only [cap, newRingBuffer, List.length_map, List.length_range]

theorem newRingBuffer_mask {size : UInt64} (h : 1 ≤ (roundUp size).toNat) :
    (newRingBuffer α size).mask = (roundUp size).toNat - 1 :=
  UInt64.toNat_sub_of_le _ _ (UInt64.le_iff_toNat_le.mpr (by simpa using h))

theorem newRingBuffer_roundUp (v : UInt64) (h1 : 1 ≤ v.toNat) (h63 : v.toNat ≤ 2 ^ 63) :
    (∃ k, (roundUp v).toNat = 2 ^ k) ∧ v.toNat ≤ (roundUp v).toNat ∧
      (∀ j, v.toNat ≤ 2 ^ j → (roundUp v).toNat ≤ 2 ^ j) ∧
      (newRingBuffer α v).cap = (roundUp v).toNat ∧ (newRingBuffer α v).mask = (newRingBuffer α v).cap - 1 ∧
      ∀ pos, pos &&& (newRingBuffer α v).mask = pos % (newRingBuffer α v).cap := by
  obtain ⟨k, hk, hle, hlt⟩ := roundUp_spec h1 h63
  have hmask : (newRingBuffer α v).mask = 2 ^ k - 1 := by
    rw [newRingBuffer_mask (hk ▸ Nat.one_le_two_pow), hk]
  refine ⟨⟨k, hk⟩, hk ▸ hle, fun j hj => hk ▸ pow_le_of_lt_two_mul hlt hj, newRingBuffer_cap v, ?_, ?_⟩
  · rw [hmask, newRingBuffer_cap, hk]
  · intro pos
    rw [hmask, newRingBuffer_cap, hk, Nat.and_two_pow_sub_one_eq_mod]

theorem newRingBuffer_roundUp_five :
    1 ≤ (5 : UInt64).toNat ∧ (5 : UInt64).toNat ≤ 2 ^ 63 ∧ (newRingBuffer ℕ 5).cap = 8 ∧
      ∀ pos, pos &&& (newRingBuffer ℕ 5).mask = pos % 8 :=
  have h := newRingBuffer_roundUp (α := ℕ) 5 (by decide) (by decide)
  ⟨by decide, by decide, by decide, fun pos => (h.2.2.2.2.2 pos).trans (by rw [h.2.2.2.1]; rfl)⟩

/-! ## Threads -/

/-- Where a thread in `put` is: at `pos := atomic.LoadUint64(&rb.queue)`, at the load of
`rb.disposed` heading the loop, at the load of `n.position`, at the CAS on `rb.queue`, at the
reload of `rb.queue` in the `default` case, at `n.data = item`, at the store of `pos+1` into
`n.position`, returned, or panicked on the index `pos&rb.mask`. -/
inductive PutPc where
  | start
  | loop (pos : ℕ)
  | loadSeq (pos : ℕ)
  | cas (pos : ℕ)
  | reload
  | write (pos : ℕ)
  | publish (pos : ℕ)
  | done (ok : Bool) (err : Option QueueError)
  | panicked
  deriving DecidableEq, Repr

/-- Where a thread in `Poll` is: as in `put`, on `rb.dequeue`, then at `data := n.data`, at
`n.data = nil`, at the store of `pos+rb.mask+1` into `n.position`, returned, or panicked. -/
inductive PollPc (α : Type) where
  | start
  | loop (pos : ℕ)
  | loadSeq (pos : ℕ)
  | cas (pos : ℕ)
  | reload
  | read (pos : ℕ)
  | clear (pos : ℕ) (data : Option α)
  | publish (pos : ℕ) (data : Option α)
  | done (data : Option α) (err : Option QueueError)
  | panicked
  deriving DecidableEq, Repr

/-- A call and where its thread is. `Put(item)` is `put(item, false)` and `Offer(item)` is
`put(item, true)`; `Get()` is `Poll(0)`, and `timed` is `timeout > 0`. -/
inductive Thread (α : Type) where
  | put (item : α) (offer : Bool) (pc : PutPc)
  | poll (timed : Bool) (pc : PollPc α)
  | dispose (done : Bool)
  deriving DecidableEq, Repr

inductive Call (α : Type) where
  | put (item : α) (offer : Bool)
  | poll (timed : Bool)
  | dispose

def Call.thread : Call α → Thread α
  | .put item offer => .put item offer .start
  | .poll timed => .poll timed .start
  | .dispose => .dispose false

/-- One step of `put(item, offer)`: the shared state, the next program counter, and whether
the step's CAS claimed an enqueue position. -/
def putStep (rb : RingBuffer α) (item : α) (offer : Bool) : PutPc → RingBuffer α × PutPc × Bool
  | .start => (rb, .loop rb.queue, false)
  | .loop pos => (rb, if rb.disposed then .done false (some .disposed) else .loadSeq pos, false)
  | .loadSeq pos =>
    match rb.node? pos with
    | none => (rb, .panicked, false)
    | some n => (rb, if n.position = pos then .cas pos else .reload, false)
  | .cas pos =>
    if rb.queue = pos then ({ rb with queue := pos + 1 }, .write pos, true)
    -- a failed CAS keeps the stale `pos`; `Offer` gives up after one attempt
    else (rb, if offer then .done false none else .loop pos, false)
  | .reload => (rb, if offer then .done false none else .loop rb.queue, false)
  | .write pos => (rb.setData pos (some item), .publish pos, false)
  | .publish pos => (rb.setPosition pos (pos + 1), .done true none, false)
  | .done ok err => (rb, .done ok err, false)
  | .panicked => (rb, .panicked, false)

/-- The end of an unsuccessful turn of `Poll`: `if timeout > 0 && time.Since(start) >= timeout`,
the clock being the scheduler's `timeUp`. -/
def pollRetry (timed timeUp : Bool) (pos : ℕ) : PollPc α :=
  if timed && timeUp then .done none (some .timeout) else .loop pos

/-- One step of `Poll`: the shared state, the next program counter, and whether the step's
CAS claimed a dequeue position. -/
def pollStep (rb : RingBuffer α) (timed timeUp : Bool) : PollPc α → RingBuffer α × PollPc α × Bool
  | .start => (rb, .loop rb.dequeue, false)
  | .loop pos => (rb, if rb.disposed then .done none (some .disposed) else .loadSeq pos, false)
  | .loadSeq pos =>
    match rb.node? pos with
    | none => (rb, .panicked, false)
    | some n => (rb, if n.position = pos + 1 then .cas pos else .reload, false)
  | .cas pos =>
    if rb.dequeue = pos then ({ rb with dequeue := pos + 1 }, .read pos, true)
    else (rb, pollRetry timed timeUp pos, false)
  | .reload => (rb, pollRetry timed timeUp rb.dequeue, false)
  | .read pos => (rb, .clear pos ((rb.node? pos).bind Node.data), false)
  | .clear pos d => (rb.setData pos none, .publish pos d, false)
  | .publish pos d => (rb.setPosition pos (pos + rb.mask + 1), .done d none, false)
  | .done d err => (rb, .done d err, false)
  | .panicked => (rb, .panicked, false)

/-! ## Runs -/

/-- The ring buffer, every thread, and the ghost record of which thread claimed each
enqueue and dequeue position. -/
structure World (τ α : Type) where
  rb : RingBuffer α
  threads : τ → Thread α
  enqBy : List τ
  deqBy : List τ

namespace World

variable {τ : Type} [DecidableEq τ]

def init (rb : RingBuffer α) (calls : τ → Call α) : World τ α := ⟨rb, fun t => (calls t).thread, [], []⟩

/-- One step of thread `t`; `timeUp` is whether a timed `Poll`'s timeout has passed. -/
def step (w : World τ α) (t : τ) (timeUp : Bool) : World τ α :=
  match w.threads t with
  | .put item offer pc =>
    let (rb, pc, claimed) := putStep w.rb item offer pc
    { rb, threads := Function.update w.threads t (.put item offer pc),
      enqBy := if claimed then w.enqBy ++ [t] else w.enqBy, deqBy := w.deqBy }
  | .poll timed pc =>
    let (rb, pc, claimed) := pollStep w.rb timed timeUp pc
    { rb, threads := Function.update w.threads t (.poll timed pc), enqBy := w.enqBy,
      deqBy := if claimed then w.deqBy ++ [t] else w.deqBy }
  -- `atomic.CompareAndSwapUint64(&rb.disposed, 0, 1)`
  | .dispose false =>
    { w with rb := { w.rb with disposed := true }, threads := Function.update w.threads t (.dispose true) }
  | .dispose true => w

theorem step_put {w : World τ α} {t : τ} {item : α} {offer : Bool} {pc : PutPc}
    (h : w.threads t = .put item offer pc) (timeUp : Bool) {rb : RingBuffer α} {pc' : PutPc} {claimed : Bool}
    (e : putStep w.rb item offer pc = (rb, pc', claimed)) :
    w.step t timeUp =
      ⟨rb, Function.update w.threads t (.put item offer pc'), if claimed then w.enqBy ++ [t] else w.enqBy,
        w.deqBy⟩ := by
  simp only [step, h, e]

theorem step_poll {w : World τ α} {t : τ} {timed : Bool} {pc : PollPc α}
    (h : w.threads t = .poll timed pc) (timeUp : Bool) {rb : RingBuffer α} {pc' : PollPc α} {claimed : Bool}
    (e : pollStep w.rb timed timeUp pc = (rb, pc', claimed)) :
    w.step t timeUp =
      ⟨rb, Function.update w.threads t (.poll timed pc'), w.enqBy,
        if claimed then w.deqBy ++ [t] else w.deqBy⟩ := by
  simp only [step, h, e]

theorem step_put_done {w : World τ α} {t : τ} {item : α} {offer ok : Bool} {err : Option QueueError}
    (h : w.threads t = .put item offer (.done ok err)) (timeUp : Bool) : w.step t timeUp = w := by
  rw [step_put h timeUp rfl, ← h, Function.update_eq_self]
  rfl

def run (w : World τ α) : List (τ × Bool) → World τ α
  | [] => w
  | (t, timeUp) :: sched => (w.step t timeUp).run sched

end World

end RingBuffer

/-! ## One node -/

open RingBuffer

/-- `Put(1)`, `Put(2)` and `Get()`. -/
def twoPutsOneGet : Fin 3 → Call ℕ
  | 0 => .put 1 false
  | 1 => .put 2 false
  | 2 => .poll false

/-- The buffer once both `Put`s of `twoPutsOneGet` have returned: the second item is in the
only node, over the first. -/
def overwritten : RingBuffer ℕ := ⟨2, 0, 0, false, [⟨2, some 2⟩]⟩

def spinPcs : List (PollPc ℕ) := [.start, .loop 0, .loadSeq 0, .reload]

theorem pollStep_spin {pc : PollPc ℕ} (h : pc ∈ spinPcs) (timeUp : Bool) :
    ∃ pc' ∈ spinPcs, pollStep overwritten false timeUp pc = (overwritten, pc', false) := by
  simp only [spinPcs, List.mem_cons, List.not_mem_nil, or_false] at h
  rcases h with rfl | rfl | rfl | rfl <;> cases timeUp <;> decide

/-- The consumer of `twoPutsOneGet` going round its loop on `overwritten`, both producers
having returned. -/
def Spinning (w : World (Fin 3) ℕ) : Prop :=
  w.rb = overwritten ∧ w.threads 0 = .put 1 false (.done true none) ∧
    w.threads 1 = .put 2 false (.done true none) ∧ ∃ pc ∈ spinPcs, w.threads 2 = .poll false pc

theorem spinning_step {w : World (Fin 3) ℕ} (h : Spinning w) (t : Fin 3) (timeUp : Bool) :
    Spinning (w.step t timeUp) := by
  obtain ⟨hrb, h0, h1, pc, hpc, h2⟩ := h
  -- the producers' steps change nothing; the consumer's keep it in its loop
  rcases (by decide : ∀ t : Fin 3, t = 0 ∨ t = 1 ∨ t = 2) t with rfl | rfl | rfl
  · rw [World.step_put_done h0]
    exact ⟨hrb, h0, h1, pc, hpc, h2⟩
  · rw [World.step_put_done h1]
    exact ⟨hrb, h0, h1, pc, hpc, h2⟩
  · obtain ⟨pc', hpc', e⟩ := pollStep_spin hpc timeUp
    rw [← hrb] at e
    rw [World.step_poll h2 timeUp e]
    refine ⟨hrb, ?_, ?_, pc', hpc', Function.update_self (2 : Fin 3) _ w.threads⟩
    · exact (Function.update_of_ne (by decide : (0 : Fin 3) ≠ 2) (.poll false pc') w.threads).trans h0
    · exact (Function.update_of_ne (by decide : (1 : Fin 3) ≠ 2) (.poll false pc') w.threads).trans h1

theorem spinning_run {w : World (Fin 3) ℕ} (h : Spinning w) (sched : List (Fin 3 × Bool)) :
    Spinning (w.run sched) := by
  induction sched generalizing w with
  | nil => exact h
  | cons e sched ih => exact ih (spinning_step h e.1 e.2)

/-- `NewRingBuffer(1)` after `Put(1)` and then `Put(2)` have run to their returns. -/
def twoPutsRun : World (Fin 3) ℕ :=
  (World.init (newRingBuffer ℕ 1) twoPutsOneGet).run (List.replicate 6 (0, false) ++ List.replicate 6 (1, false))

theorem newRingBuffer_one_put_overwrites :
    twoPutsRun.rb.cap = 1 ∧ twoPutsRun.rb.queue - twoPutsRun.rb.dequeue = 2 ∧
      twoPutsRun.rb.nodes = [⟨2, some 2⟩] ∧ twoPutsRun.threads 0 = .put 1 false (.done true none) ∧
      twoPutsRun.threads 1 = .put 2 false (.done true none) ∧ ∀ sched, Spinning (twoPutsRun.run sched) := by
  have hw : Spinning twoPutsRun := ⟨by decide, by decide, by decide, .start, by decide, by decide⟩
  exact ⟨by decide, by decide, by decide, hw.2.1, hw.2.2.1, spinning_run hw⟩

end WeedgePkg.Jobutils
