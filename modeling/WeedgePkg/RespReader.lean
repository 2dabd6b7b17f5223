import WeedgePkg.BufferedIo

/-!
# The RESP reader of `client/resp/resp_proto.go`

`RespReader` reads frames off a `bufio.Reader`. A frame starts with a line ended by
`"\r\n"`; its first byte names the type, and bulk strings carry a payload read by length.
`Parse` reads one reply, recursing into arrays; `ParseRequest` reads an array of bulk
strings; `ParseBulkTo` copies one bulk payload into a writer.

`Parse` recurses once per level of array nesting, and every level first reads a line of at
least three bytes, so `parse` bounds the depth by the length of the unread input.
-/

namespace WeedgePkg.Resp
open Bufio Decimal

/-- A value of the named string type `respclient.Error`. -/
def respError (msg : Bytes) : GoError := .named "respclient.Error" msg

/-- The dynamic values `RespReader.Parse` returns: `nil`, `string`, `Error`, `int64`,
`[]byte` and `[]interface{}`. -/
inductive Reply where
  | null
  | str (s : Bytes)
  | error (s : Bytes)
  | int (n : Int64)
  | bulk (b : Bytes)
  | array (items : List Reply)
  deriving Repr

/-- `readLine`: one line, without its `"\r\n"`. -/
def readLine : ReadM Bytes := fun r =>
  match readSlice 10 r with
  | .error .bufferFull r' => .error (.new "long resp line") r'
  | .error e r' => .error e r'
  | .ok p r' =>
    if p.length < 2 ∨ p[p.length - 2]? ≠ some 13 then .error (.new "bad resp line terminator") r'
    else .ok (p.take (p.length - 2)) r'

/-- The digit loop shared by `parseLen` and `parseInt`, over Go's wrapping `int`/`int64`;
`none` at the first byte outside `'0'..'9'`. -/
def digitLoop (n : Int64) : Bytes → Option Int64
  | [] => some n
  | b :: p => if b < 48 ∨ 57 < b then none else digitLoop (wrapStep n b) p

/-- `parseLen`: the length of a bulk string or an array, `-1` for the null `"-1"`. -/
def parseLen (p : Bytes) : Except GoError Int64 :=
  if p = [] then .error (.new "malformed length")
  else if p = ascii "-1" then .ok (-1)
  else match digitLoop 0 p with
    | some n => .ok n
    | none => .error (.new "illegal bytes in length")

/-- `parseInt`: an integer reply, with an optional leading `-`. -/
def parseInt : Bytes → Except GoError Int64
  | [] => .error (.new "malformed integer")
  | b :: q =>
    if b = 45 ∧ q = [] then .error (.new "malformed integer")
    else
      let digits := if b = 45 then q else b :: q
      match digitLoop 0 digits with
      | some n => .ok (if b = 45 then -n else n)
      | none => .error (.new "illegal bytes in length")

def ofExcept {α : Type} : Except GoError α → ReadM α
  | .ok a => pure a
  | .error e => throw e

/-- The body shared by the `'$'` branches of `Parse` and `parseBulk`: the payload of
length `n` and the empty line after it, or `nil` for a negative length. -/
def bulkPayload (n : Int64) : ReadM (Option Bytes) :=
  if n < 0 then pure none else do
    let p ← readFull n.toNatClampNeg
    let l ← readLine
    if l ≠ [] then throw (.new "bad bulk string format") else pure (some p)

/-- The loop `for i := range r { r[i], err = read(); ... }` over `n` elements. -/
def readTimes {α : Type} (read : ReadM α) : ℕ → ReadM (List α)
  | 0 => pure []
  | k + 1 => do
    let v ← read
    let vs ← readTimes read k
    pure (v :: vs)

/-- `Parse` allowed to nest arrays `depth - 1` deep. -/
def parseAt : ℕ → ReadM Reply
  | 0 => throw (.new "nesting deeper than the input")
  | depth + 1 => do
    let line ← readLine
    match line with
    | [] => throw (.new "short resp line")
    | c :: body =>
      if c = 43 then
        -- `'+'`, with the allocation-free replies for `"+OK"` and `"+PONG"`
        if line = ascii "+OK" then pure (.str (ascii "OK"))
        else if line = ascii "+PONG" then pure (.str (ascii "PONG"))
        else pure (.str body)
      else if c = 45 then pure (.error body)
      else if c = 58 then do
        let n ← ofExcept (parseInt body)
        pure (.int n)
      else if c = 36 then do
        let n ← ofExcept (parseLen body)
        match ← bulkPayload n with
        | none => pure .null
        | some p => pure (.bulk p)
      else if c = 42 then do
        let n ← ofExcept (parseLen body)
        if n < 0 then pure .null else do
          let items ← readTimes (parseAt depth) n.toNatClampNeg
          pure (.array items)
      else throw (.new "unexpected response line")

def parse : ReadM Reply := fun r => parseAt (r.input.length + 1) r

/-- `parseBulk`: one bulk string of a request, `nil` for `"$-1"`. -/
def parseBulk : ReadM (Option Bytes) := do
  let line ← readLine
  match line with
  | [] => throw (.new "short resp line")
  | c :: body =>
    if c = 36 then do
      let n ← ofExcept (parseLen body)
      bulkPayload n
    else throw (.new ("not invalid bulk string type, but " ++ String.singleton (Char.ofNat c.toNat)))

/-- `RespReader.ParseRequest`: an array of bulk strings; `nil` for `"*-1"`. -/
def parseRequest : ReadM (Option (List (Option Bytes))) := do
  let line ← readLine
  match line with
  | [] => throw (.new "short resp line")
  | c :: body =>
    if c = 42 then do
      let n ← ofExcept (parseLen body)
      if n < 0 then pure none else do
        let items ← readTimes parseBulk n.toNatClampNeg
        pure (some items)
    else
      throw (.new ("not invalid array of bulk string type, but " ++ String.singleton (Char.ofNat c.toNat)))

/-- `RespReader.ParseBulkTo(w)`: the error returned, the reader after the call, and the
bytes of `w` after it (a writer that accepts every write). -/
def parseBulkTo (r : Reader) (w : Bytes) : Option GoError × Reader × Bytes :=
  match readLine r with
  | .error e r' => (some e, r', w)
  | .ok [] r' => (some (.new "ledis: short response line"), r', w)
  | .ok (c :: body) r' =>
    if c = 45 then (some (respError body), r', w)
    else if c = 36 then
      match parseLen body with
      | .error e => (some e, r', w)
      | .ok n =>
        if n < 0 then (none, r', w)
        else
          match copyN n.toNatClampNeg r' with
          | (copied, some e, r'') => (some e, r'', w ++ copied)
          | (copied, none, r'') =>
            if copied.length ≠ n.toNatClampNeg then (some .shortWrite, r'', w ++ copied)
            else
              match readLine r'' with
              | .error e r3 => (some e, r3, w ++ copied)
              | .ok l r3 =>
                if l ≠ [] then (some (.new "bad bulk string format"), r3, w ++ copied)
                else (none, r3, w ++ copied)
    else (some (.new ("not invalid bulk string type, but " ++ String.singleton (Char.ofNat c.toNat))), r', w)

end WeedgePkg.Resp
