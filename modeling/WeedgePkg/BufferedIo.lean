import WeedgePkg.DecimalText

/-!
# Buffered byte streams, as Go's `bufio` and `io` read and write them

A `bufio.Reader` over a source that delivers a fixed byte string and then `io.EOF` is
observed only through the size of its buffer and the bytes not yet read: `ReadSlice`
finds its delimiter only within one buffer's worth of unread bytes, and `io.ReadFull`
and `io.CopyN` take bytes in order. A `bufio.Writer` over a sink that accepts every
write is observed through the bytes written so far; `Flush` moves nothing that matters.
-/

namespace WeedgePkg

/-- The error values of the code: those of `io` and `bufio`, the ones made by
`errors.New` or `fmt.Errorf` (by their text), and values of a named string type. -/
inductive GoError where
  | eof
  | unexpectedEOF
  | bufferFull
  | shortWrite
  | new (msg : String)
  | named (typeName : String) (msg : Bytes)
  deriving DecidableEq, Repr

namespace Bufio

/-- A `bufio.Reader`: its buffer size (never below 16 in `bufio.NewReaderSize`) and the
bytes it has still to deliver, buffered or not. -/
structure Reader where
  size : ℕ
  input : Bytes
  size_ge : 16 ≤ size

def Reader.withInput (r : Reader) (input : Bytes) : Reader := { r with input }

@[simp] theorem Reader.withInput_input (r : Reader) (p : Bytes) : (r.withInput p).input = p := rfl
@[simp] theorem Reader.withInput_size (r : Reader) (p : Bytes) : (r.withInput p).size = r.size := rfl
@[simp] theorem Reader.withInput_withInput (r : Reader) (p q : Bytes) :
    (r.withInput p).withInput q = r.withInput q := rfl

abbrev ReadM := EStateM GoError Reader

/-- `b.ReadSlice(delim)`: the bytes up to and including `delim` when it lies in the next
buffer's worth; `ErrBufferFull` after a full buffer without it; `io.EOF` when the
source ends first (the partial slice it also returns is not modelled: no caller reads it). -/
def readSlice (delim : UInt8) : ReadM Bytes := fun r =>
  match (r.input.take r.size).idxOf? delim with
  | some i => .ok (r.input.take (i + 1)) (r.withInput (r.input.drop (i + 1)))
  | none =>
    if r.size ≤ r.input.length then .error .bufferFull (r.withInput (r.input.drop r.size))
    else .error .eof (r.withInput [])

/-- `io.ReadFull(b, p)` with `len(p) = n`. -/
def readFull (n : ℕ) : ReadM Bytes := fun r =>
  if n ≤ r.input.length then .ok (r.input.take n) (r.withInput (r.input.drop n))
  else .error (if r.input = [] then .eof else .unexpectedEOF) (r.withInput [])

/-- `io.CopyN(w, b, n)`: the bytes copied to `w`, with `io.EOF` when the source ends first. -/
def copyN (n : ℕ) (r : Reader) : Bytes × Option GoError × Reader :=
  if n ≤ r.input.length then (r.input.take n, none, r.withInput (r.input.drop n))
  else (r.input, some .eof, r.withInput [])

/-- A `bufio.Writer` over a sink that accepts everything: the bytes written so far. -/
abbrev WriteM := EStateM GoError Bytes

/-- `w.Write(p)`, `w.WriteString(s)` and `w.WriteByte(c)`. -/
def write (p : Bytes) : WriteM Unit := modify (· ++ p)

@[simp] theorem write_run (p out : Bytes) : (write p).run out = .ok () (out ++ p) := rfl

theorem idxOf?_append_cons {α : Type} [BEq α] [LawfulBEq α] {a : α} {l t : List α} (h : a ∉ l) :
    (l ++ a :: t).idxOf? a = some l.length := by
  induction l with
  | nil => simp [List.idxOf?_cons]
  | cons b l ih =>
    rw [List.mem_cons, not_or] at h
    have hb : (b == a) = false := by simpa using Ne.symm h.1
    simp [List.idxOf?_cons, hb, ih h.2]

/-- A line that fits in the buffer comes back whole, with the rest left unread. -/
theorem readSlice_line (r : Reader) {l : Bytes} {delim : UInt8} (rest : Bytes) (hl : delim ∉ l)
    (hfit : l.length + 1 ≤ r.size) :
    (readSlice delim).run (r.withInput (l ++ delim :: rest)) = .ok (l ++ [delim]) (r.withInput rest) := by
  obtain ⟨k, hk⟩ : ∃ k, r.size - l.length = k + 1 := ⟨r.size - l.length - 1, by omega⟩
  have htake : (l ++ delim :: rest).take r.size = l ++ delim :: rest.take k := by
    rw [List.take_append, List.take_of_length_le (by omega), hk, List.take_succ_cons]
  simp only [EStateM.run, readSlice, Reader.withInput_input, Reader.withInput_size, htake,
    idxOf?_append_cons hl, Reader.withInput_withInput]
  congr 1
  · rw [List.take_append, List.take_of_length_le (by omega)]
    simp
  · rw [List.drop_append, List.drop_eq_nil_of_le (by omega)]
    simp

/-- A line longer than the buffer fails with `ErrBufferFull`. -/
theorem readSlice_long (r : Reader) {delim : UInt8} (hno : delim ∉ r.input.take r.size)
    (hlen : r.size ≤ r.input.length) :
    (readSlice delim).run r = .error .bufferFull (r.withInput (r.input.drop r.size)) := by
  have hnone : (r.input.take r.size).idxOf? delim = none := List.idxOf?_eq_none_iff.mpr hno
  simp only [EStateM.run, readSlice, hnone, if_pos hlen]

theorem readFull_append (r : Reader) (p rest : Bytes) :
    (readFull p.length).run (r.withInput (p ++ rest)) = .ok p (r.withInput rest) := by
  simp [EStateM.run, readFull]

theorem copyN_append (r : Reader) (p rest : Bytes) :
    copyN p.length (r.withInput (p ++ rest)) = (p, none, r.withInput rest) := by
  simp [copyN]

end Bufio

end WeedgePkg
