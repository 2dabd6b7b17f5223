import WeedgePkg.RdbReader

/-!
# Ziplists, listpacks and intsets

`ReadZipList`, `ReadListpack` and `ReadIntset` each read one string with `ReadString` and
decode it with a fresh reader of its own. A ziplist with the count `65535` is read up to a
`0xFE` byte; past the end of its string every read is a zero, so without that byte the
loop never ends.
-/

namespace WeedgePkg.Rdb
open Decimal

/-- A reader run `n` times, its results in order. -/
def readCount {α : Type} (read : RdbM α) : ℕ → RdbM (List α)
  | 0 => pure []
  | n + 1 => do
    let a ← read
    let as ← readCount read n
    pure (a :: as)

/-- A reader run on a string of its own, as `bufio.NewReader(strings.NewReader(s))`. -/
def readWithin {α : Type} (read : RdbM α) (s : Bytes) : Except Abort α :=
  match read.run s with
  | .ok a _ => .ok a
  | .error e _ => .error e

/-! ## Ziplists -/

/-- `readZipListEntry(rd, firstByte)`: the previous length, then a string or an integer. -/
def readZipListEntry (firstByte : UInt8) : RdbM Bytes := do
  if firstByte = 0xFE then
    let _ ← readUint32
  let fb ← readByte
  let first2bits := (fb &&& 0xc0) >>> 6
  if first2bits = 0 then readBytes (fb &&& 0x3f).toNat
  else if first2bits = 1 then do
    let secondByte ← readByte
    readBytes (((fb &&& 0x3f).toNat <<< 8) ||| secondByte.toNat)
  else if first2bits = 2 then do
    let lenBytes ← readBytes 4
    readBytes (beValue lenBytes)
  else if fb = 0xFE then do
    let v ← readInt8
    pure (intText v.toInt)
  else if fb = 0xC0 then do
    let v ← readInt16
    pure (intText v.toInt)
  else if fb = 0xF0 then do
    let v ← readInt24
    pure (intText v.toInt)
  else if fb = 0xD0 then do
    let v ← readInt32
    pure (intText v.toInt)
  else if fb = 0xE0 then do
    let v ← readInt64
    pure (intText v.toInt)
  else if fb >>> 4 = 0x0F then
    -- `ZIP_INT_04B`: the value plus one in the low four bits
    pure (intText ((fb &&& 0x0f).toNat - 1 : ℤ))
  else pure []

/-- The loop of `ReadZipList` for the count `65535`: entries up to a `0xFE` byte. While input
is left every turn reads at least that byte, so `fuel` beyond the input's length is never
used up; once the input is gone the loop reads zeros forever. -/
def zipListUntilEnd : ℕ → RdbM (List Bytes)
  | 0 => throw .diverges
  | fuel + 1 => fun inp =>
    if inp = [] then .error .diverges inp
    else
      (do
        let firstByte ← readByte
        if firstByte = 0xFE then pure []
        else do
          let ele ← readZipListEntry firstByte
          let eles ← zipListUntilEnd fuel
          pure (ele :: eles)) inp

/-- The body of `ReadZipList` on its own reader. -/
def zipListBody : RdbM (List Bytes) := do
  let _ ← readUint32
  let _ ← readUint32
  let size ← readUint16
  if size.toNat = 65535 then fun inp => zipListUntilEnd (inp.length + 1) inp
  else do
    let elements ← readCount (do
      let firstByte ← readByte
      readZipListEntry firstByte) size.toNat
    let _ ← readByte
    pure elements

def readZipList : RdbM (List Bytes) := do
  let s ← readString
  liftExcept (readWithin zipListBody s)

/-! ## Listpacks -/

/-- `lpEncodeBacklen(len)`: the bytes of an entry's back-length. -/
def lpEncodeBacklen (len : ℕ) : ℕ :=
  if len ≤ 127 then 1
  else if len < 16383 then 2
  else if len < 2097151 then 3
  else if len < 268435455 then 4
  else 5

/-- The integer encodings of `readListpackEntry`: the unsigned value, where the negative
values start, and the largest value of the width. -/
def listpackInt (uval negstart negmax : UInt64) : Bytes :=
  let val : Int64 := if uval ≥ negstart then -(negmax - uval).toInt64 - 1 else uval.toInt64
  intText val.toInt

/-- `readListpackEntry`: one element, string or integer, and its back-length. -/
def readListpackEntry : RdbM Bytes := do
  let fireByte ← readByte
  if fireByte &&& 0x80 = 0 then do
    let _ ← readBytes (lpEncodeBacklen 1)
    pure (listpackInt (fireByte &&& 0x7f).toUInt64 0xFFFFFFFFFFFFFFFF 0)
  else if fireByte &&& 0xC0 = 0x80 then do
    let length := (fireByte &&& 0x3f).toNat
    let ele ← readBytes length
    let _ ← readBytes (lpEncodeBacklen (1 + length))
    pure ele
  else if fireByte &&& 0xE0 = 0xC0 then do
    let secondByte ← readByte
    let _ ← readBytes (lpEncodeBacklen 2)
    pure (listpackInt (((fireByte &&& 0x1f).toUInt64 <<< 8) + secondByte.toUInt64) ((1 : UInt64) <<< 12) 8191)
  else if fireByte = 0xF1 then do
    let uval ← readUint16
    let _ ← readBytes (lpEncodeBacklen 2)
    pure (listpackInt uval.toUInt64 ((1 : UInt64) <<< 15) 65535)
  else if fireByte = 0xF2 then do
    let uval ← readUint24
    let _ ← readBytes (lpEncodeBacklen (1 + 3))
    pure (listpackInt uval.toUInt64 ((1 : UInt64) <<< 23) ((0xFFFFFFFF : UInt64) >>> 8))
  else if fireByte = 0xF3 then do
    let uval ← readUint32
    let _ ← readBytes (lpEncodeBacklen (1 + 4))
    pure (listpackInt uval.toUInt64 ((1 : UInt64) <<< 31) 0xFFFFFFFF)
  else if fireByte = 0xF4 then do
    let uval ← readUint64
    let _ ← readBytes (lpEncodeBacklen (1 + 8))
    pure (listpackInt uval ((1 : UInt64) <<< 63) 0xFFFFFFFFFFFFFFFF)
  else if fireByte &&& 0xF0 = 0xE0 then do
    let secondByte ← readByte
    let length := ((fireByte &&& 0x0f).toNat <<< 8) + secondByte.toNat
    let ele ← readBytes length
    let _ ← readBytes (lpEncodeBacklen (2 + length))
    pure ele
  else if fireByte = 0xF0 then do
    let length := (← readUint32).toNat
    let ele ← readBytes length
    let _ ← readBytes (lpEncodeBacklen (5 + length))
    pure ele
  else
    -- an unknown encoding is logged and read as the integer `0 ≥ 0`, that is `-1`
    pure (listpackInt 0 0 0)

/-- The body of `ReadListpack` on its own reader. -/
def listpackBody : RdbM (List Bytes) := do
  let _ ← readUint32
  let size ← readUint16
  let elements ← readCount readListpackEntry size.toNat
  let _ ← readByte
  pure elements

def readListpack : RdbM (List Bytes) := do
  let s ← readString
  liftExcept (readWithin listpackBody s)

/-! ## Intsets -/

/-- One element of an intset of `encodingType` bytes; `""` for a width it does not know. -/
def intsetElement (encodingType : ℕ) : RdbM Bytes := do
  let intBytes ← readBytes encodingType
  if encodingType = 2 then pure (intText (UInt16.ofNat (leValue intBytes)).toInt16.toInt)
  else if encodingType = 4 then pure (intText (UInt32.ofNat (leValue intBytes)).toInt32.toInt)
  else if encodingType = 8 then pure (intText (UInt64.ofNat (leValue intBytes)).toInt64.toInt)
  else pure []

/-- The body of `ReadIntset` on its own reader. -/
def intsetBody : RdbM (List Bytes) := do
  let encodingType ← readUint32
  let size ← readUint32
  readCount (intsetElement encodingType.toNat) size.toNat

def readIntset : RdbM (List Bytes) := do
  let s ← readString
  liftExcept (readWithin intsetBody s)

end WeedgePkg.Rdb
