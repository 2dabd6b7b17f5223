import WeedgePkg.RdbStructures
import WeedgePkg.AssocMap

/-!
# The stream and module loaders of `rdb/types`

A stream is read as its listpack nodes, each turned into `xadd` commands, then the last
id and the consumer groups, turned into `xsetid`, `CREATE` and `xclaim`. Inside a node the
listpack's elements are walked with an index; a read past the last element panics.
Slicing is checked against the slice's length: a slice built by `append` may have room
beyond it, which the model does not track. A module value is skipped opcode by opcode.
-/

namespace WeedgePkg.Rdb
open Decimal GoFloat

abbrev RedisCmd := List Bytes

/-! ## `strconv.ParseInt(s, 10, 64)` -/

/-- The digit loop of `strconv.ParseUint`: a byte that is not a digit is a syntax error,
a value past `maxVal` is a range error that returns `maxVal`. -/
def parseUintLoop (maxVal : ℕ) (n : ℕ) : Bytes → ℕ × Option NumError
  | [] => (n, none)
  | c :: cs =>
    if c < 48 ∨ 57 < c then (0, some .errSyntax)
    else if (2 ^ 64 - 1) / 10 + 1 ≤ n ∨ maxVal < n * 10 + (c.toNat - 48) then (maxVal, some .errRange)
    else parseUintLoop maxVal (n * 10 + (c.toNat - 48)) cs

/-- `strconv.ParseInt(s, 10, 64)`: the value it returns, and its error. -/
def parseInt64 (s : Bytes) : Int64 × Option NumError :=
  let neg := s.head? = some 45
  let body := if s.head? = some 43 ∨ neg then s.drop 1 else s
  if body = [] then (0, some .errSyntax)
  else
    match parseUintLoop (2 ^ 64 - 1) 0 body with
    | (_, some .errSyntax) => (0, some .errSyntax)
    | (un, _) =>
      if !neg ∧ 2 ^ 63 ≤ un then (Int64.ofNat (2 ^ 63 - 1), some .errRange)
      else if neg ∧ 2 ^ 63 < un then (Int64.ofInt (-2 ^ 63), some .errRange)
      else (Int64.ofInt (if neg then -(un : ℤ) else un), none)

/-! ## Walking a listpack's elements -/

abbrev ElementsM := EStateM Abort ℕ

def nextString (elements : List Bytes) : ElementsM Bytes := fun inx =>
  match elements[inx]? with
  | none => .error .indexOutOfRange inx
  | some ele => .ok ele (inx + 1)

/-- `nextInteger(&inx, elements)`; a text that does not parse is only logged. -/
def nextInteger (elements : List Bytes) : ElementsM Int64 := do
  let ele ← nextString elements
  pure (parseInt64 ele).1

/-- `elements[lo:hi]` -/
def sliceOf (elements : List Bytes) (lo hi : ℤ) : Except Abort (List Bytes) :=
  if 0 ≤ lo ∧ lo ≤ hi ∧ hi ≤ elements.length then
    .ok ((elements.drop lo.toNat).take (hi - lo).toNat)
  else .error .sliceBounds

/-- The values of an entry that shares the master entry's fields, each after its field. -/
def sameFieldArgs (elements : List Bytes) : List Bytes → ElementsM (List Bytes)
  | [] => pure []
  | field :: fields => do
    let value ← nextString elements
    let rest ← sameFieldArgs elements fields
    pure (field :: value :: rest)

/-- One entry of a node: its flags and the `xadd` command it stands for. -/
def streamEntry (masterKey : Bytes) (masterMs masterSeq : Int64) (fields elements : List Bytes) :
    ElementsM (Int64 × RedisCmd) := do
  let flags ← nextInteger elements
  let entryMs ← nextInteger elements
  let entrySeq ← nextInteger elements
  let id := intText (entryMs + masterMs).toInt ++ ascii "-" ++ intText (entrySeq + masterSeq).toInt
  let args ←
    if flags &&& 2 = 2 then sameFieldArgs elements fields
    else do
      let num ← nextInteger elements
      let inx ← get
      let hi : Int64 := Int64.ofNat inx + num * 2
      match sliceOf elements inx hi.toInt with
      | .error e => throw e
      | .ok values => do
        set hi.toInt.toNat
        pure values
  let _ ← nextString elements
  pure (flags, ascii "xadd" :: masterKey :: id :: args)

/-- The entry loop `for count != 0 || deleted != 0`. Every turn reads at least four
elements and a read past the last one panics, so `fuel` past the number of elements is
never used up. -/
def streamEntries (masterKey : Bytes) (masterMs masterSeq : Int64) (fields elements : List Bytes) :
    ℕ → Int64 → Int64 → ElementsM (List RedisCmd)
  | 0, _, _ => throw .diverges
  | fuel + 1, count, deleted =>
    if count = 0 ∧ deleted = 0 then pure []
    else do
      let (flags, args) ← streamEntry masterKey masterMs masterSeq fields elements
      if flags &&& 1 = 1 then streamEntries masterKey masterMs masterSeq fields elements fuel count (deleted - 1)
      else do
        let rest ← streamEntries masterKey masterMs masterSeq fields elements fuel (count - 1) deleted
        pure (args :: rest)

/-- A node's elements: the master entry, then its entries. -/
def streamListpack (masterKey : Bytes) (masterMs masterSeq : Int64) (elements : List Bytes) :
    Except Abort (List RedisCmd) :=
  let walk : ElementsM (List RedisCmd) := do
    let count ← nextInteger elements
    let deleted ← nextInteger elements
    let numFields ← nextInteger elements
    let hi : Int64 := 3 + numFields
    match sliceOf elements 3 hi.toInt with
    | .error e => throw e
    | .ok fields => do
      set hi.toInt.toNat
      -- the master entry ends with `"0"`; anything else is only logged
      let _ ← nextString elements
      streamEntries masterKey masterMs masterSeq fields elements (elements.length + 1) count deleted
  match walk.run 0 with
  | .ok cmds _ => .ok cmds
  | .error e _ => .error e

/-- One listpack node: its key is the master id, big-endian `ms` then `seq`. -/
def streamNode (masterKey : Bytes) : RdbM (List RedisCmd) := do
  let key ← readString
  if key.length < 8 then throw .sliceBounds
  if key.length < 16 then throw .indexOutOfRange
  let masterMs := (UInt64.ofNat (beValue (key.take 8))).toInt64
  let masterSeq := (UInt64.ofNat (beValue ((key.drop 8).take 8))).toInt64
  let elements ← readListpack
  liftExcept (streamListpack masterKey masterMs masterSeq elements)

/-- A node keyed by master id `0-2^63` (sequence `0x8000000000000000`) with one entry that
shares the master field `f`, value `v`, at diff `0-0`: the listpack holds
`1 0 1 f 0 | 2 0 0 v 4`, its integers as 7-bit uints. The entry's id is printed from
`int64`s. -/
theorem streamNode_high_seq_signed :
    (streamNode (ascii "s")).run
      ([16, 0, 0, 0, 0, 0, 0, 0, 0, 0x80, 0, 0, 0, 0, 0, 0, 0] ++
        [29, 29, 0, 0, 0, 10, 0, 1, 1, 0, 1, 1, 1, 0x81, 102, 2, 0, 1, 2, 1, 0, 1, 0, 1, 0x81, 118, 2, 4, 1, 0xFF] ++
        [7]) =
      .ok [[ascii "xadd", ascii "s", ascii "0--9223372036854775808", ascii "f", ascii "v"]] [7] := by
  decide

def streamIdText (ms seq : ℕ) : Bytes := natText ms ++ ascii "-" ++ natText seq

def readStreamId : RdbM Bytes := do
  let tmpBytes ← readBytes 16
  pure (streamIdText (beValue (tmpBytes.take 8)) (beValue (tmpBytes.drop 8)))

/-- One entry of a group's pending list: its id, delivery time and delivery count. -/
def readPelEntry : RdbM (Bytes × UInt64 × UInt64) := do
  let streamId ← readStreamId
  let deliveryTime ← readUint64
  let deliveryCount ← readLength
  pure (streamId, deliveryTime, deliveryCount)

/-- A consumer: one `xclaim` per entry of its pending list. -/
def streamConsumer (masterKey groupName : Bytes) (mapId2Time mapId2Count : AssocMap.Map Bytes UInt64) :
    RdbM (List RedisCmd) := do
  let consumerName ← readString
  let _ ← readUint64
  let nPEL ← readLength
  readCount (do
    let streamId ← readStreamId
    pure [ascii "xclaim", masterKey, groupName, consumerName, ascii "0", streamId,
      ascii "TIME", natText ((AssocMap.get mapId2Time streamId).getD 0).toNat,
      ascii "RETRYCOUNT", natText ((AssocMap.get mapId2Count streamId).getD 0).toNat,
      ascii "JUSTID", ascii "FORCE"]) (goInt nPEL).toNat

/-- A consumer group: `CREATE`, then the claims of its consumers. -/
def streamGroup (masterKey : Bytes) (typeByte : UInt8) : RdbM (List RedisCmd) := do
  let groupName ← readString
  let lastMs ← readLength
  let lastSeq ← readLength
  if typeByte = 19 then
    let _ ← readLength
  let nPel ← readLength
  let pel ← readCount readPelEntry (goInt nPel).toNat
  let mapId2Time := AssocMap.ofEntries (pel.map fun e => (e.1, e.2.1))
  let mapId2Count := AssocMap.ofEntries (pel.map fun e => (e.1, e.2.2))
  let nConsumer ← readLength
  let claims ← readCount (streamConsumer masterKey groupName mapId2Time mapId2Count) (goInt nConsumer).toNat
  pure ([ascii "CREATE", masterKey, groupName, streamIdText lastMs.toNat lastSeq.toNat] :: claims.flatten)

def readStream (masterKey : Bytes) (typeByte : UInt8) : RdbM (List RedisCmd) := do
  let nListpack := goInt (← readLength)
  let nodes ← readCount (streamNode masterKey) nListpack.toNat
  let _ ← readLength
  let lastMs ← readLength
  let lastSeq ← readLength
  let lastid := streamIdText lastMs.toNat lastSeq.toNat
  -- an empty stream is made with `XADD MAXLEN 0`
  let empty := if nListpack = 0 then
      [[ascii "xadd", masterKey, ascii "MAXLEN", ascii "0", lastid, ascii "x", ascii "y"]]
    else []
  if typeByte = 19 then
    let _ ← readCount readLength 5
  let nConsumerGroup ← readLength
  let groups ← readCount (streamGroup masterKey typeByte) (goInt nConsumerGroup).toNat
  pure (nodes.flatten ++ empty ++ [[ascii "xsetid", masterKey, lastid]] ++ groups.flatten)

/-! ## Modules -/

/-- The opcode loop of `ModuleObject.LoadFromBuffer`. `SINT` reads nothing. Past the end of
the input the next opcode reads as `EOF`, so the loop takes at most two turns more than
there are bytes. -/
def moduleOpcodes : ℕ → UInt8 → RdbM Unit
  | 0, _ => throw .diverges
  | fuel + 1, opcode =>
    if opcode = 0 then pure ()
    else do
      if opcode = 2 then
        let _ ← readLength
      else if opcode = 3 then
        let _ ← readFloat
      else if opcode = 4 then
        let _ ← readDouble
      else if opcode = 5 then
        let _ ← readString
      let next ← readByte
      moduleOpcodes fuel next

/-- `ModuleObject.LoadFromBuffer`: the module id, then the opcodes up to `EOF`. -/
def moduleLoadFromBuffer : RdbM Unit := do
  let _ ← readLength
  let opcode ← readByte
  fun inp => moduleOpcodes (inp.length + 2) opcode inp

/-- Module id 0, then a `SINT` field `0` and `EOF`, or a `FLOAT` field of four zero bytes
and `EOF`, each followed by the next type byte `7`. -/
theorem moduleLoadFromBuffer_sint_float_out_of_step :
    moduleLoadFromBuffer.run [0, 1, 0, 0, 7] = .ok () [0, 7] ∧
      moduleLoadFromBuffer.run [0, 3, 0, 0, 0, 0, 0, 7] = .ok () [0, 0, 0, 7] := by
  decide

end WeedgePkg.Rdb
