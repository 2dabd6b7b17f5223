import WeedgePkg.RdbCrc64
import WeedgePkg.GoFloat

/-!
# The RDB encoder of `rdb/encoder.go` and the dumps of `rdb/dump.go`

An `Encoder` writes through `io.MultiWriter(w, e.crc)`, so its CRC digest sees every byte
that reaches the buffer; the structure keeps that as a field. A dump is an object's type
byte and encoding, then the footer: the RDB version as two little-endian bytes and the
digest's register as eight.
-/

namespace WeedgePkg.Rdb
open Decimal GoFloat

def version : UInt16 := 6

def rdbTypeString : UInt8 := 0
def rdbTypeList : UInt8 := 1
def rdbTypeSet : UInt8 := 2
def rdbTypeZSet : UInt8 := 3
def rdbTypeHash : UInt8 := 4

/-- `binary.LittleEndian.PutUint16` -/
def putUint16LE (v : UInt16) : Bytes := [v.toUInt8, (v >>> 8).toUInt8]

/-- `binary.LittleEndian.PutUint32` -/
def putUint32LE (v : UInt32) : Bytes :=
  [v.toUInt8, (v >>> 8).toUInt8, (v >>> 16).toUInt8, (v >>> 24).toUInt8]

/-- `binary.BigEndian.PutUint32` -/
def putUint32BE (v : UInt32) : Bytes :=
  [(v >>> 24).toUInt8, (v >>> 16).toUInt8, (v >>> 8).toUInt8, v.toUInt8]

/-- `strconv.ParseInt(s, 10, bitSize)`, its value when it returns no error: an optional sign
and decimal digits, within the signed range of `bitSize` bits. -/
def parseInt (s : Bytes) (bitSize : ℕ) : Option ℤ :=
  let neg := s.head? = some 45
  let digits := if s.head? = some 43 ∨ neg then s.drop 1 else s
  if digits = [] ∨ !digits.all (fun c => 48 ≤ c ∧ c ≤ 57) then none
  else
    let v := digitsValue digits
    if neg then (if v ≤ 2 ^ (bitSize - 1) then some (-(v : ℤ)) else none)
    else if v < 2 ^ (bitSize - 1) then some v else none

/-- An `Encoder` over a `bytes.Buffer`: the bytes written through it, and the register of
its digest, which has been fed exactly those bytes. -/
structure Encoder where
  written : Bytes
  crc : UInt64
  crc_eq : crc = digestOf written

def newEncoder : Encoder := ⟨[], 0, rfl⟩

/-- `e.w.Write(p)`: to the buffer and to the digest. -/
def Encoder.write (e : Encoder) (p : Bytes) : Encoder :=
  ⟨e.written ++ p, crc64 e.crc p, by rw [e.crc_eq, digestOf, crc64_append, digestOf]⟩

@[simp] theorem Encoder.write_written (e : Encoder) (p : Bytes) :
    (e.write p).written = e.written ++ p := rfl

def Encoder.encodeType (e : Encoder) (v : UInt8) : Encoder := e.write [v]

/-- `EncodeLength`: six bits, fourteen bits, or `0x80` and four big-endian bytes. -/
def Encoder.encodeLength (e : Encoder) (l : UInt32) : Encoder :=
  if l < (1 : UInt32) <<< 6 then e.write [l.toUInt8]
  else if l < (1 : UInt32) <<< 14 then e.write [(l >>> 8).toUInt8 ||| (1 : UInt8) <<< 6, l.toUInt8]
  else e.write (((2 : UInt8) <<< 6) :: putUint32BE l)

/-- `encodeIntString`: a string that is the canonical decimal of an `int32` is written as
one, two or four little-endian bytes after its marker; `none` when it is not written. -/
def Encoder.encodeIntString (e : Encoder) (b : Bytes) : Option Encoder :=
  match parseInt b 32 with
  | none => none
  | some i =>
    if b ≠ intText i then none
    else if -128 ≤ i ∧ i ≤ 127 then some (e.write [(3 : UInt8) <<< 6, (Int8.ofInt i).toUInt8])
    else if -32768 ≤ i ∧ i ≤ 32767 then
      some (e.write (((3 : UInt8) <<< 6 ||| 1) :: putUint16LE (Int16.ofInt i).toUInt16))
    else if -2147483648 ≤ i ∧ i ≤ 2147483647 then
      some (e.write (((3 : UInt8) <<< 6 ||| 2) :: putUint32LE (Int32.ofInt i).toUInt32))
    else none

/-- `EncodeString`; the length is `uint32(len(s))`. -/
def Encoder.encodeString (e : Encoder) (s : Bytes) : Encoder :=
  match e.encodeIntString s with
  | some e' => e'
  | none => (e.encodeLength (UInt32.ofNat s.length)).write s

/-- `EncodeFloat`: the three special bytes, or the 17-digit `'g'` text after its length. -/
def Encoder.encodeFloat (e : Encoder) (f : Float64) : Encoder :=
  match f with
  | .nan => e.write [253]
  | .inf false => e.write [254]
  | .inf true => e.write [255]
  | .finite _ =>
    let b := formatFloatG f 17
    (e.write [UInt8.ofNat b.length]).write b

/-- `EncodeDumpFooter`: the version, little-endian, then the digest's `Sum(nil)`. -/
def Encoder.encodeDumpFooter (e : Encoder) : Encoder :=
  let e := e.write (putUint16LE version)
  e.write (digestSum e.crc [])

/-! ## Dumps -/

def stringPayload (v : Bytes) : Encoder :=
  (newEncoder.encodeType rdbTypeString).encodeString v

/-- The payload shared by `DumpListValue` and `DumpSetValue`: the type, the count, and each
element as a string. -/
def stringsPayload (typ : UInt8) (v : List Bytes) : Encoder :=
  v.foldl Encoder.encodeString ((newEncoder.encodeType typ).encodeLength (UInt32.ofNat v.length))

def hashPayload (v : List (Bytes × Bytes)) : Encoder :=
  v.foldl (fun e p => (e.encodeString p.1).encodeString p.2)
    ((newEncoder.encodeType rdbTypeHash).encodeLength (UInt32.ofNat v.length))

def zsetPayload (v : List (Bytes × Float64)) : Encoder :=
  v.foldl (fun e p => (e.encodeString p.1).encodeFloat p.2)
    ((newEncoder.encodeType rdbTypeZSet).encodeLength (UInt32.ofNat v.length))

def dumpStringValue (v : Bytes) : Bytes := (stringPayload v).encodeDumpFooter.written

def dumpListValue (v : List Bytes) : Bytes := (stringsPayload rdbTypeList v).encodeDumpFooter.written

def dumpSetValue (v : List Bytes) : Bytes := (stringsPayload rdbTypeSet v).encodeDumpFooter.written

def dumpHashValue (v : List (Bytes × Bytes)) : Bytes := (hashPayload v).encodeDumpFooter.written

def dumpZSetValue (v : List (Bytes × Float64)) : Bytes := (zsetPayload v).encodeDumpFooter.written

/-- The footer follows the payload: the version bytes, then the CRC-64/Jones of the payload
and the version bytes, little-endian. -/
theorem encodeDumpFooter_written (e : Encoder) :
    e.encodeDumpFooter.written = e.written ++ [6, 0] ++ le64 (crcJones (e.written ++ [6, 0])) := by
  have hcrc : (e.write (putUint16LE version)).crc = digestOf (e.written ++ [6, 0]) :=
    (e.write (putUint16LE version)).crc_eq
  simp only [Encoder.encodeDumpFooter, Encoder.write_written, hcrc, digestSum_nil,
    digestOf_eq_crcJones]
  rfl

end WeedgePkg.Rdb
