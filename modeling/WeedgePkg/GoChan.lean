import Mathlib.Data.List.Basic

/-!
# Buffered channels

A channel made with `make(chan T, cap)` for `cap > 0`. A send appends to the buffer while it
has room and blocks when it is full; a receive takes the oldest value and blocks on an empty
buffer. Once the channel is closed a send or a second close panics, while a receive still
drains the buffer and then reports `!ok`. `Logged` keeps beside a channel the values sent on
it and those received from it: what was received is what was sent without the buffer, so a
channel hands its values out in the order they were sent.
-/

namespace GoChan

variable {τ : Type}

/-- A buffered channel; its buffer holds at most `cap` values. -/
structure Chan (τ : Type) where
  buf : List τ
  cap : ℕ
  closed : Bool
  cap_pos : 0 < cap
  buf_le : buf.length ≤ cap

/-- What a send does: it puts its value in the buffer, waits, or panics. -/
inductive Send (σ : Type) where
  | sent (ch : σ)
  | blocked
  | panicked

/-- What a receive does: it takes a value, finds the channel closed and drained, or waits. -/
inductive Recv (τ σ : Type) where
  | value (x : τ) (ch : σ)
  | closed
  | blocked

namespace Chan

def make (cap : ℕ) (h : 0 < cap) : Chan τ := ⟨[], cap, false, h, Nat.zero_le _⟩

/-- `ch <- x` -/
def send (ch : Chan τ) (x : τ) : Send (Chan τ) :=
  if ch.closed then .panicked
  else if h : ch.buf.length < ch.cap then
    .sent ⟨ch.buf ++ [x], ch.cap, false, ch.cap_pos, by rw [List.length_append, List.length_singleton]; omega⟩
  else .blocked

/-- `x, ok := <-ch` -/
def recv (ch : Chan τ) : Recv τ (Chan τ) :=
  match h : ch.buf with
  | x :: rest =>
    .value x ⟨rest, ch.cap, ch.closed, ch.cap_pos, by have := ch.buf_le; rw [h, List.length_cons] at this; omega⟩
  | [] => if ch.closed then .closed else .blocked

/-- `close(ch)`; `none` is the panic of closing a closed channel. -/
def close (ch : Chan τ) : Option (Chan τ) :=
  if ch.closed then none else some { ch with closed := true }

variable {ch ch' : Chan τ} {x : τ}

theorem send_eq_sent (h : ch.send x = .sent ch') :
    ch.closed = false ∧ ch'.buf = ch.buf ++ [x] ∧ ch'.cap = ch.cap ∧ ch'.closed = false := by
  unfold send at h
  split at h
  · cases h
  · split at h
    · cases h; simp_all
    · cases h

theorem send_of_closed (h : ch.closed = true) : ch.send x = .panicked := by
  simp [send, h]

/-- A send on an open channel with a full buffer waits. -/
theorem send_of_full (hopen : ch.closed = false) (hfull : ch.cap ≤ ch.buf.length) : ch.send x = .blocked := by
  simp [send, hopen, Nat.not_lt.2 hfull]

theorem recv_eq_value (h : ch.recv = .value x ch') :
    ch.buf = x :: ch'.buf ∧ ch'.cap = ch.cap ∧ ch'.closed = ch.closed := by
  unfold recv at h
  split at h
  · rename_i y rest hbuf
    cases h
    exact ⟨hbuf, rfl, rfl⟩
  · split at h <;> cases h

theorem recv_eq_closed (h : ch.recv = .closed) : ch.buf = [] ∧ ch.closed = true := by
  unfold recv at h
  split at h
  · cases h
  · rename_i hbuf
    split at h
    · exact ⟨hbuf, by assumption⟩
    · cases h

/-- A closed channel with an empty buffer reports `!ok` to every receive. -/
theorem recv_of_drained (hbuf : ch.buf = []) (hclosed : ch.closed = true) : ch.recv = .closed := by
  unfold recv
  split
  · rename_i y rest h; rw [hbuf] at h; cases h
  · rw [if_pos hclosed]

theorem close_eq_some (h : ch.close = some ch') :
    ch.closed = false ∧ ch'.buf = ch.buf ∧ ch'.cap = ch.cap ∧ ch'.closed = true := by
  unfold close at h
  split at h
  · cases h
  · cases h; simp_all

theorem close_of_closed (h : ch.closed = true) : ch.close = none := by
  simp [close, h]

end Chan

/-- A channel with the values sent on it and those received from it, in order. -/
structure Logged (τ : Type) where
  ch : Chan τ
  sent : List τ
  recvd : List τ
  fifo : sent = recvd ++ ch.buf

namespace Logged

/-- A channel just made; nothing was sent on it. -/
def make (cap : ℕ) (h : 0 < cap) : Logged τ := ⟨Chan.make cap h, [], [], rfl⟩

def send (l : Logged τ) (x : τ) : Send (Logged τ) :=
  match h : l.ch.send x with
  | .sent ch => .sent ⟨ch, l.sent ++ [x], l.recvd, by rw [(Chan.send_eq_sent h).2.1, l.fifo, List.append_assoc]⟩
  | .blocked => .blocked
  | .panicked => .panicked

def recv (l : Logged τ) : Recv τ (Logged τ) :=
  match h : l.ch.recv with
  | .value x ch =>
    .value x ⟨ch, l.sent, l.recvd ++ [x], by
      rw [l.fifo, (Chan.recv_eq_value h).1, List.append_assoc, List.singleton_append]⟩
  | .closed => .closed
  | .blocked => .blocked

def close (l : Logged τ) : Option (Logged τ) :=
  match h : l.ch.close with
  | some ch => some ⟨ch, l.sent, l.recvd, by rw [l.fifo, (Chan.close_eq_some h).2.1]⟩
  | none => none

variable {l l' : Logged τ} {x : τ}

/-- What was received is a prefix of what was sent. -/
theorem recvd_prefix (l : Logged τ) : l.recvd <+: l.sent := ⟨l.ch.buf, l.fifo.symm⟩

theorem send_eq_sent (h : l.send x = .sent l') :
    l.ch.send x = .sent l'.ch ∧ l'.sent = l.sent ++ [x] ∧ l'.recvd = l.recvd := by
  unfold send at h
  split at h
  · rename_i ch hch
    cases h
    exact ⟨hch, rfl, rfl⟩
  · cases h
  · cases h

theorem send_of_closed (h : l.ch.closed = true) : l.send x = .panicked := by
  unfold send
  split
  · rename_i ch hch; rw [Chan.send_of_closed h] at hch; cases hch
  · rename_i hch; rw [Chan.send_of_closed h] at hch; cases hch
  · rfl

theorem send_of_blocked (h : l.ch.send x = .blocked) : l.send x = .blocked := by
  unfold send
  split
  · rename_i ch hch; rw [h] at hch; cases hch
  · rfl
  · rename_i hch; rw [h] at hch; cases hch

theorem recv_eq_value (h : l.recv = .value x l') :
    l.ch.recv = .value x l'.ch ∧ l'.sent = l.sent ∧ l'.recvd = l.recvd ++ [x] := by
  unfold recv at h
  split at h
  · rename_i y ch hch
    cases h
    exact ⟨hch, rfl, rfl⟩
  · cases h
  · cases h

theorem recv_eq_closed (h : l.recv = .closed) : l.ch.recv = .closed := by
  unfold recv at h
  split at h
  · cases h
  · assumption
  · cases h

theorem close_eq_some (h : l.close = some l') :
    l.ch.close = some l'.ch ∧ l'.sent = l.sent ∧ l'.recvd = l.recvd := by
  unfold close at h
  split at h
  · rename_i ch hch
    cases h
    exact ⟨hch, rfl, rfl⟩
  · cases h

theorem close_of_closed (h : l.ch.closed = true) : l.close = none := by
  unfold close
  split
  · rename_i ch hch; rw [Chan.close_of_closed h] at hch; cases hch
  · rfl

end Logged

end GoChan
