import WeedgePkg.GoFloat

/-!
# The RDB readers of `rdb/structure`

Every reader takes its bytes from an `io.Reader` with `io.ReadFull` and only logs what goes
wrong: past the end of the input a read yields zeros and leaves the reader at the end.
What does not return is a panic (a `make` with a negative length, an index out of range)
or a loop that never ends; `Abort` names them. The reader is the bytes not yet read.
-/

namespace WeedgePkg.Rdb
open Decimal

/-- How a call ends without returning: the runtime errors `makeslice: len out of range`,
`index out of range` and `slice bounds out of range`, or a loop that runs for ever. -/
inductive Abort where
  | makeSliceLen
  | indexOutOfRange
  | sliceBounds
  | diverges
  deriving DecidableEq, Repr

abbrev RdbM := EStateM Abort Bytes

instance instDecidableEqResult {ε σ α : Type} [DecidableEq ε] [DecidableEq σ] [DecidableEq α] :
    DecidableEq (EStateM.Result ε σ α)
  | .ok a s, .ok b t =>
    decidable_of_iff (a = b ∧ s = t) ⟨fun ⟨ha, hs⟩ => ha ▸ hs ▸ rfl, fun e => by cases e; exact ⟨rfl, rfl⟩⟩
  | .error a s, .error b t =>
    decidable_of_iff (a = b ∧ s = t) ⟨fun ⟨ha, hs⟩ => ha ▸ hs ▸ rfl, fun e => by cases e; exact ⟨rfl, rfl⟩⟩
  | .ok _ _, .error _ _ => isFalse fun e => by cases e
  | .error _ _, .ok _ _ => isFalse fun e => by cases e

/-- Go's `int(u)` of a `uint64`: the same bits, as a signed number. -/
def goInt (u : UInt64) : ℤ := u.toInt64.toInt

/-- `binary.LittleEndian.UintN` of the bytes, as a number. -/
def leValue (bs : Bytes) : ℕ := bs.foldr (fun b acc => b.toNat + 256 * acc) 0

/-- `binary.BigEndian.UintN` of the bytes, as a number. -/
def beValue (bs : Bytes) : ℕ := bs.foldl (fun acc b => 256 * acc + b.toNat) 0

/-- `ReadBytes(rd, n)`: `n` bytes, zeros past the end of the input. -/
def readBytes (n : ℤ) : RdbM Bytes := fun inp =>
  if n < 0 then .error .makeSliceLen inp
  else .ok (inp.take n.toNat ++ List.replicate (n.toNat - inp.length) 0) (inp.drop n.toNat)

def readByte : RdbM UInt8 := do
  let b ← readBytes 1
  pure (b.headD 0)

def readUint8 : RdbM UInt8 := readByte

def readUint16 : RdbM UInt16 := do
  let b ← readBytes 2
  pure (UInt16.ofNat (leValue b))

def readUint24 : RdbM UInt32 := do
  let b ← readBytes 3
  pure (UInt32.ofNat (leValue (b ++ [0])))

def readUint32 : RdbM UInt32 := do
  let b ← readBytes 4
  pure (UInt32.ofNat (leValue b))

def readUint64 : RdbM UInt64 := do
  let b ← readBytes 8
  pure (UInt64.ofNat (leValue b))

def readInt8 : RdbM Int8 := do
  let b ← readByte
  pure b.toInt8

def readInt16 : RdbM Int16 := do
  let b ← readBytes 2
  pure (UInt16.ofNat (leValue b)).toInt16

/-- `ReadInt24`: three bytes shifted into the top of an `int32`, then back down. -/
def readInt24 : RdbM Int32 := do
  let b ← readBytes 3
  pure ((UInt32.ofNat (leValue (0 :: b))).toInt32 >>> 8)

def readInt32 : RdbM Int32 := do
  let b ← readBytes 4
  pure (UInt32.ofNat (leValue b)).toInt32

def readInt64 : RdbM Int64 := do
  let b ← readBytes 8
  pure (UInt64.ofNat (leValue b)).toInt64

/-- What `readEncodedLength` reports, `read len32Bit failed` (or `len64Bit`) or `illegal
length encoding`; `ReadLength` and `ReadString` only log it. -/
inductive LengthError where
  | readFailed (bits : ℕ)
  | illegal (firstByte : UInt8)
  deriving DecidableEq, Repr

/-- `io.ReadFull` of `n` bytes: the bytes, or `none` when the input ends first (having
consumed the rest of it). -/
def readFull (n : ℕ) : RdbM (Option Bytes) := fun inp =>
  if n ≤ inp.length then .ok (some (inp.take n)) (inp.drop n) else .ok none []

/-- `readEncodedLength`: the length, whether it is a special encoding, and the error. -/
def readEncodedLength : RdbM (UInt64 × Bool × Option LengthError) := do
  let firstByte ← readByte
  let first2bits := (firstByte &&& 0xc0) >>> 6
  if first2bits = 0 then pure ((firstByte &&& 0x3f).toUInt64, false, none)
  else if first2bits = 1 then do
    let nextByte ← readByte
    pure (((firstByte &&& 0x3f).toUInt64 <<< 8) ||| nextByte.toUInt64, false, none)
  else if first2bits = 2 then
    if firstByte = 0x80 then do
      match ← readFull 4 with
      | none => pure (0, false, some (.readFailed 32))
      | some b => pure (UInt64.ofNat (beValue b), false, none)
    else if firstByte = 0x81 then do
      match ← readFull 8 with
      | none => pure (0, false, some (.readFailed 64))
      | some b => pure (UInt64.ofNat (beValue b), false, none)
    else pure (0, false, some (.illegal firstByte))
  else pure ((firstByte &&& 0x3f).toUInt64, true, none)

def readLength : RdbM UInt64 := do
  let (length, _, _) ← readEncodedLength
  pure length

/-! ## LZF -/

/-- Where `lzfDecompress` is in its token stream: at a control byte, inside a literal run
with `k` bytes to go, at the extra length byte of a long back-reference, or at the low
offset byte of a back-reference of `length`. -/
inductive LzfMode where
  | control
  | literal (k : ℕ)
  | extLength (ctrl : UInt8)
  | offset (ctrl : UInt8) (length : ℕ)

/-- The back-reference copy of `lzfDecompress`: `count` bytes from `ref` to `o`, one at a
time, so a copy may overlap what it writes. -/
def lzfCopy : ℕ → ℤ → ℕ → Bytes → Except Abort (Bytes × ℕ)
  | 0, _, o, out => .ok (out, o)
  | k + 1, ref, o, out =>
    if 0 ≤ ref ∧ ref.toNat < out.length ∧ o < out.length then
      lzfCopy k (ref + 1) (o + 1) (out.set o (out.getD ref.toNat 0))
    else .error .indexOutOfRange

/-- One input byte of `lzfDecompress`'s loop: the new mode, output and output position. -/
def lzfStep (mode : LzfMode) (out : Bytes) (o : ℕ) (c : UInt8) : Except Abort (LzfMode × Bytes × ℕ) :=
  match mode with
  | .control =>
    if c < 32 then .ok (.literal (c.toNat + 1), out, o)
    else if c >>> 5 = 7 then .ok (.extLength c, out, o)
    else .ok (.offset c (c >>> 5).toNat, out, o)
  | .literal k =>
    if o < out.length then
      .ok (if k = 1 then .control else .literal (k - 1), out.set o c, o + 1)
    else .error .indexOutOfRange
  | .extLength ctrl => .ok (.offset ctrl (7 + c.toNat), out, o)
  | .offset ctrl length =>
    let ref : ℤ := o - ((ctrl &&& 0x1f).toNat <<< 8) - c.toNat - 1
    match lzfCopy (length + 2) ref o out with
    | .ok (out', o') => .ok (.control, out', o')
    | .error e => .error e

/-- The loop of `lzfDecompress` over the input; ending inside a token reads past `in`. -/
def lzfLoop : LzfMode → Bytes → ℕ → Bytes → Except Abort Bytes
  | .control, out, _, [] => .ok out
  | _, _, _, [] => .error .indexOutOfRange
  | mode, out, o, c :: rest =>
    match lzfStep mode out o c with
    | .ok (mode', out', o') => lzfLoop mode' out' o' rest
    | .error e => .error e

def lzfDecompress (inp : Bytes) (outLen : ℤ) : Except Abort Bytes :=
  if outLen < 0 then .error .makeSliceLen
  else lzfLoop .control (List.replicate outLen.toNat 0) 0 inp

def liftExcept {α : Type} : Except Abort α → RdbM α
  | .ok a => pure a
  | .error e => throw e

/-- `ReadString`: a length-prefixed string, an integer in 8, 16 or 32 bits, or an LZF block;
an unknown special encoding falls through to a plain read of its length. -/
def readString : RdbM Bytes := do
  let (length, special, _) ← readEncodedLength
  if special then
    if length = 0 then
      let b ← readInt8
      pure (intText b.toInt)
    else if length = 1 then
      let b ← readInt16
      pure (intText b.toInt)
    else if length = 2 then
      let b ← readInt32
      pure (intText b.toInt)
    else if length = 3 then
      let inLen ← readLength
      let outLen ← readLength
      let inp ← readBytes (goInt inLen)
      liftExcept (lzfDecompress inp (goInt outLen))
    else readBytes (goInt length)
  else readBytes (goInt length)

/-! ## Floats -/

/-- `ReadFloat`: a special byte, or a length byte and a decimal text; `0` when the text is
cut short, and whatever `ParseFloat` returns when it does not parse. -/
def readFloat : RdbM GoFloat.Float64 := do
  let u ← readUint8
  if u = 253 then pure .nan
  else if u = 254 then pure (.inf false)
  else if u = 255 then pure (.inf true)
  else
    match ← readFull u.toNat with
    | none => pure (GoFloat.zero false)
    | some buf => pure (GoFloat.parseFloat buf).1

def readDouble : RdbM GoFloat.Float64 := do
  let b ← readBytes 8
  pure (GoFloat.float64frombits (UInt64.ofNat (leValue b)))

end WeedgePkg.Rdb
