import WeedgePkg.RdbStream
import WeedgePkg.RdbEncoder

/-!
# Redis objects: `ParseObject`, `Rewrite` and `DecodeDump`

`ParseObject` picks a loader by the type byte; each loader reads its object and keeps the
key it is given, except the sorted set's, which never stores it. `Rewrite` turns an object
into the commands that recreate it, and a hash's commands follow the map's iteration order.
`DecodeDump` reads a dump's type byte and object with the empty key and converts the object
into a value; its sorted-set branch returns `nil` as soon as a score parses without error.
-/

namespace WeedgePkg.Rdb
open Decimal GoFloat

def rdbTypeZSet2 : UInt8 := 5
def rdbTypeModule : UInt8 := 6
def rdbTypeModule2 : UInt8 := 7
def rdbTypeHashZipmap : UInt8 := 9
def rdbTypeListZiplist : UInt8 := 10
def rdbTypeSetIntset : UInt8 := 11
def rdbTypeZSetZiplist : UInt8 := 12
def rdbTypeHashZiplist : UInt8 := 13
def rdbTypeListQuicklist : UInt8 := 14
def rdbTypeStreamListpacks : UInt8 := 15
def rdbTypeHashListpack : UInt8 := 16
def rdbTypeZSetListpack : UInt8 := 17
def rdbTypeListQuicklist2 : UInt8 := 18
def rdbTypeStreamListpacks2 : UInt8 := 19

/-- `ZSetEntry`: a member and its score as text. -/
structure ZSetEntry where
  member : Bytes
  score : Bytes
  deriving DecidableEq

/-- The objects `ParseObject` builds, with the fields their loaders fill in. -/
inductive RedisObject where
  | string (key value : Bytes)
  | list (key : Bytes) (elements : List Bytes)
  | set (key : Bytes) (elements : List Bytes)
  | zset (key : Bytes) (elements : List ZSetEntry)
  | hash (key : Bytes) (value : AssocMap.Map Bytes Bytes)
  | stream (key : Bytes) (cmds : List RedisCmd)
  | module
  deriving DecidableEq

/-- The pairs `list[i], list[i+1]` of a loop `for i := 0; i < size; i += 2`: an odd count
reads past the end. -/
def pairsOf : List Bytes → Except Abort (List (Bytes × Bytes))
  | [] => .ok []
  | [_] => .error .indexOutOfRange
  | a :: b :: rest => (pairsOf rest).map ((a, b) :: ·)

/-! ## Lists and sets -/

def readList : RdbM (List Bytes) := do
  let size ← readLength
  readCount readString (goInt size).toNat

/-- `ListObject.readQuickList`: a ziplist per node. -/
def readQuickList : RdbM (List Bytes) := do
  let size ← readLength
  let nodes ← readCount readZipList (goInt size).toNat
  pure nodes.flatten

/-- A node of `readQuickList2`: one plain element, a packed listpack, or a container it
does not know, which is only logged. -/
def readQuickList2Node : RdbM (List Bytes) := do
  let container ← readLength
  if container = 1 then
    let ele ← readString
    pure [ele]
  else if container = 2 then readListpack
  else pure []

def readQuickList2 : RdbM (List Bytes) := do
  let size ← readLength
  let nodes ← readCount readQuickList2Node (goInt size).toNat
  pure nodes.flatten

def listLoadFromBuffer (typeByte : UInt8) : RdbM (List Bytes) :=
  if typeByte = rdbTypeList then readList
  else if typeByte = rdbTypeListZiplist then readZipList
  else if typeByte = rdbTypeListQuicklist then readQuickList
  else if typeByte = rdbTypeListQuicklist2 then readQuickList2
  else pure []

/-- `SetObject.readSet`: `make([]string, size)` panics on a negative size. -/
def readSet : RdbM (List Bytes) := do
  let size := goInt (← readLength)
  if size < 0 then throw .makeSliceLen
  readCount readString size.toNat

def setLoadFromBuffer (typeByte : UInt8) : RdbM (List Bytes) :=
  if typeByte = rdbTypeSet then readSet
  else if typeByte = rdbTypeSetIntset then readIntset
  else pure []

/-! ## Sorted sets -/

/-- The shared loop of `readZset` and `readZset2`: a member, then a score formatted by
`fmt.Sprintf("%f", score)`. -/
def readZsetWith (readScore : RdbM Float64) : RdbM (List ZSetEntry) := do
  let size := goInt (← readLength)
  if size < 0 then throw .makeSliceLen
  readCount (do
    let member ← readString
    let score ← readScore
    pure ⟨member, sprintfF score⟩) size.toNat

def readZset : RdbM (List ZSetEntry) := readZsetWith readFloat

def readZset2 : RdbM (List ZSetEntry) := readZsetWith readDouble

/-- `readZsetZiplist` and `readZsetListpack`: members and scores alternate; an odd count is
logged and then read past the end. -/
def zsetPairs (read : RdbM (List Bytes)) : RdbM (List ZSetEntry) := do
  let list ← read
  let pairs ← liftExcept (pairsOf list)
  pure (pairs.map fun p => ⟨p.1, p.2⟩)

def readZsetZiplist : RdbM (List ZSetEntry) := zsetPairs readZipList

def readZsetListpack : RdbM (List ZSetEntry) := zsetPairs readListpack

def zsetLoadFromBuffer (typeByte : UInt8) : RdbM (List ZSetEntry) :=
  if typeByte = rdbTypeZSet then readZset
  else if typeByte = rdbTypeZSet2 then readZset2
  else if typeByte = rdbTypeZSetZiplist then readZsetZiplist
  else if typeByte = rdbTypeZSetListpack then readZsetListpack
  else pure []

/-! ## Hashes -/

/-- `HashObject.readHash`: each field and value assigned in turn. -/
def readHash : RdbM (AssocMap.Map Bytes Bytes) := do
  let size ← readLength
  let entries ← readCount (do
    let key ← readString
    let value ← readString
    pure (key, value)) (goInt size).toNat
  pure (AssocMap.ofEntries entries)

/-- `readHashZiplist` and `readHashListpack`: fields and values alternate; an odd count
reads past the end. -/
def hashPairs (read : RdbM (List Bytes)) : RdbM (AssocMap.Map Bytes Bytes) := do
  let list ← read
  let pairs ← liftExcept (pairsOf list)
  pure (AssocMap.ofEntries pairs)

def readHashZiplist : RdbM (AssocMap.Map Bytes Bytes) := hashPairs readZipList

def readHashListpack : RdbM (AssocMap.Map Bytes Bytes) := hashPairs readListpack

/-- `HashObject.LoadFromBuffer`: the map. A zipmap is only logged as not implemented. -/
def hashLoadFromBuffer (typeByte : UInt8) : RdbM (AssocMap.Map Bytes Bytes) :=
  if typeByte = rdbTypeHash then readHash
  else if typeByte = rdbTypeHashZiplist then readHashZiplist
  else if typeByte = rdbTypeHashListpack then readHashListpack
  else pure []

/-! ## `ParseObject` -/

/-- `ParseObject(rd, typeByte, key)`; `none` for a type byte it does not know. -/
def parseObject (typeByte : UInt8) (key : Bytes) : RdbM (Option RedisObject) :=
  if typeByte = rdbTypeString then do
    let value ← readString
    pure (some (.string key value))
  else if typeByte = rdbTypeList ∨ typeByte = rdbTypeListZiplist ∨ typeByte = rdbTypeListQuicklist ∨
      typeByte = rdbTypeListQuicklist2 then do
    let elements ← listLoadFromBuffer typeByte
    pure (some (.list key elements))
  else if typeByte = rdbTypeSet ∨ typeByte = rdbTypeSetIntset then do
    let elements ← setLoadFromBuffer typeByte
    pure (some (.set key elements))
  else if typeByte = rdbTypeZSet ∨ typeByte = rdbTypeZSet2 ∨ typeByte = rdbTypeZSetZiplist ∨
      typeByte = rdbTypeZSetListpack then do
    let elements ← zsetLoadFromBuffer typeByte
    -- `ZsetObject.LoadFromBuffer` does not assign `o.key`: it stays `""`
    pure (some (.zset [] elements))
  else if typeByte = rdbTypeHash ∨ typeByte = rdbTypeHashZipmap ∨ typeByte = rdbTypeHashZiplist ∨
      typeByte = rdbTypeHashListpack then do
    let value ← hashLoadFromBuffer typeByte
    pure (some (.hash key value))
  else if typeByte = rdbTypeStreamListpacks ∨ typeByte = rdbTypeStreamListpacks2 then do
    let cmds ← readStream key typeByte
    pure (some (.stream key cmds))
  else if typeByte = rdbTypeModule ∨ typeByte = rdbTypeModule2 then do
    moduleLoadFromBuffer
    pure (some .module)
  else pure none

/-- `Rewrite()`. A hash's commands follow the iteration order of its map. -/
def RedisObject.rewrite (order : AssocMap.IterOrder Bytes Bytes) : RedisObject → List RedisCmd
  | .string key value => [[ascii "set", key, value]]
  | .list key elements => elements.map fun ele => [ascii "rpush", key, ele]
  | .set key elements => elements.map fun ele => [ascii "sadd", key, ele]
  | .zset key elements => elements.map fun ele => [ascii "zadd", key, ele.score, ele.member]
  | .hash key value => (order.arrange value).map fun kv => [ascii "hset", key, kv.1, kv.2]
  | .stream _ cmds => cmds
  | .module => []

/-! ## `DecodeDump` -/

/-- The values `DecodeDump` returns: `String`, `Hash`, `List`, `Set` and `ZSet`. -/
inductive DumpValue where
  | string (v : Bytes)
  | hash (v : List (Bytes × Bytes))
  | list (v : List Bytes)
  | set (v : List Bytes)
  | zset (v : List (Bytes × Float64))
  deriving DecidableEq

/-- The loop of `DecodeDump`'s sorted-set branch: `if s, err := strconv.ParseFloat(...);
err == nil { return nil, err }`, so it stops at the first score that parses, with that
parse's error. -/
def decodeZSetScores : List ZSetEntry → Except (Option NumError) (List (Bytes × Float64))
  | [] => .ok []
  | e :: es =>
    let (s, err) := parseFloat e.score
    if err = none then .error err
    else (decodeZSetScores es).map ((e.member, s) :: ·)

def dumpResult (order : AssocMap.IterOrder Bytes Bytes) : Option RedisObject → Option DumpValue × Option NumError
  | some (.string _ v) => (some (.string v), none)
  | some (.hash _ v) => (some (.hash (order.arrange v)), none)
  | some (.list _ es) => (some (.list es), none)
  | some (.set _ es) => (some (.set es), none)
  | some (.zset _ es) =>
    match decodeZSetScores es with
    | .error err => (none, err)
    | .ok data => (some (.zset data), none)
  | _ => (none, none)

/-- `DecodeDump(p)`: the type byte, then the object under the key `""`. -/
def decodeDump (order : AssocMap.IterOrder Bytes Bytes) (p : Bytes) :
    Except Abort (Option DumpValue × Option NumError) :=
  match (do let typeByte ← readByte; parseObject typeByte []).run p with
  | .ok o _ => .ok (dumpResult order o)
  | .error e _ => .error e

end WeedgePkg.Rdb
