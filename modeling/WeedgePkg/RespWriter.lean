import WeedgePkg.BufferedIo

/-!
# The RESP writer of `client/resp/resp_proto.go` and `resp_cmd_client.go`

`RespWriter` appends frames to a `bufio.Writer`; the sink under it accepts every write,
so the only errors are the ones the writer makes itself: `WriteArray` rejects an element
of a type it has no frame for, after it has already written the array header and the
elements before it. `WriteCommand` frames a request as an array of bulk strings, and
`RespCmdClient.WriteWithStringArgs` builds the same request with `fmt.Sprintf`.
-/

namespace WeedgePkg.Resp
open Bufio Decimal

/-- The dynamic values an `interface{}` handed to the writers can hold. A `float64` is
given by its shortest `'g'` text, which is both its `%v` text and what
`strconv.AppendFloat(dst, f, 'g', -1, 64)` writes; any other type by its `%T` and `%v` texts. -/
inductive GoValue where
  | array (items : List GoValue)
  | nilArray
  | bytes (b : Bytes)
  | nilBytes
  | null
  | int64 (n : Int64)
  | int (n : Int64)
  | string (s : Bytes)
  | error (text : Bytes)
  | bool (b : Bool)
  | float64 (text : String)
  | other (typeName : String) (text : String)

def respTerm : Bytes := [13, 10]

/-- `nullBulk` and `nullArray`, both `"-1"`. -/
def nullBulk : Bytes := ascii "-1"

/-- `intBuffer`, filled by `init` with `strconv.Itoa(i)` for `0 ≤ i < 10000`. -/
def intBuffer : List Bytes := (List.range 10000).map (fun i : ℕ => intText i)

@[simp] theorem ascii_colon : ascii ":" = [58] := rfl
@[simp] theorem ascii_plus : ascii "+" = [43] := rfl
@[simp] theorem ascii_minus : ascii "-" = [45] := rfl
@[simp] theorem ascii_dollar : ascii "$" = [36] := rfl
@[simp] theorem ascii_star : ascii "*" = [42] := rfl

def writeTerm : WriteM Unit := write respTerm

/-- The unexported `writeInteger`: the digits of `n`, from the table when it holds them. -/
def writeIntegerText (n : Int64) : WriteM Unit :=
  if 0 ≤ n ∧ n.toInt < intBuffer.length then write (intBuffer.getD n.toNatClampNeg [])
  else write (intText n.toInt)

def writeInteger (n : Int64) : WriteM Unit := do
  write (ascii ":")
  writeIntegerText n
  writeTerm

def writeString (s : Bytes) : WriteM Unit := do
  write (ascii "+")
  write s
  writeTerm

/-- `WriteError`, for an error with text `e.Error()`, or `nil`. -/
def writeError (e : Option Bytes) : WriteM Unit := do
  write (ascii "-")
  match e with
  | some text => write text
  | none => write (ascii "error is nil, invalid")
  writeTerm

/-- `WriteBulk`, for a `[]byte` that may be `nil`. -/
def writeBulk (b : Option Bytes) : WriteM Unit := do
  write (ascii "$")
  match b with
  | none => write nullBulk
  | some b =>
    writeIntegerText (Int64.ofNat b.length)
    writeTerm
    write b
  writeTerm

/-- The `%T %v` texts of the scalar values `WriteArray` rejects. -/
def GoValue.describe : GoValue → String
  | .int n => "int " ++ toString n.toInt
  | .bool b => "bool " ++ toString b
  | .float64 text => "float64 " ++ text
  | .other typeName text => typeName ++ " " ++ text
  | _ => ""

mutual
/-- `WriteArray`, for a `[]interface{}` that may be `nil`. -/
def writeArray : Option (List GoValue) → WriteM Unit
  | none => do
    write (ascii "*")
    write nullBulk
    writeTerm
  | some ay => do
    write (ascii "*")
    writeIntegerText (Int64.ofNat ay.length)
    writeTerm
    writeElems ay

/-- The loop of `WriteArray`: it stops at the first element that fails. -/
def writeElems : List GoValue → WriteM Unit
  | [] => pure ()
  | v :: vs => do
    writeElem v
    writeElems vs

/-- The type switch of `WriteArray` on one element. -/
def writeElem : GoValue → WriteM Unit
  | .array xs => writeArray (some xs)
  | .nilArray => writeArray none
  | .bytes b => writeBulk (some b)
  | .nilBytes => writeBulk none
  | .null => writeBulk none
  | .int64 n => writeInteger n
  | .string s => writeString s
  | .error text => writeError (some text)
  | v => throw (.new ("invalid array type " ++ v.describe))
end

def writeBulkString (s : Bytes) : WriteM Unit := do
  write (ascii "$")
  writeIntegerText (Int64.ofNat s.length)
  writeTerm
  write s
  writeTerm

def writeBulkInt64 (n : Int64) : WriteM Unit := writeBulk (some (intText n.toInt))

/-- `writeBulkFloat64`, for a float given by its shortest `'g'` text. -/
def writeBulkFloat64 (text : String) : WriteM Unit := writeBulk (some text.toUTF8.toList)

def byteText (b : UInt8) : Bytes := natText b.toNat

mutual
/-- `fmt.Fprint(&buf, v)`: the `%v` text of a value. -/
def fprint : GoValue → Bytes
  | .array xs => ascii "[" ++ fprintElems xs ++ ascii "]"
  | .nilArray => ascii "[]"
  | .bytes b => ascii "[" ++ List.intercalate (ascii " ") (b.map byteText) ++ ascii "]"
  | .nilBytes => ascii "[]"
  | .null => ascii "<nil>"
  | .int64 n => intText n.toInt
  | .int n => intText n.toInt
  | .string s => s
  | .error text => text
  | .bool b => ascii (toString b)
  | .float64 text => text.toUTF8.toList
  | .other _ text => text.toUTF8.toList

/-- The elements of a slice under `%v`, separated by spaces. -/
def fprintElems : List GoValue → Bytes
  | [] => []
  | [v] => fprint v
  | v :: vs => fprint v ++ ascii " " ++ fprintElems vs
end

/-- One argument of `WriteCommand`. A `bytes.Buffer` that nothing was written to hands out
a `nil` slice, so an empty `%v` text goes out as a null bulk string. -/
def writeArg : GoValue → WriteM Unit
  | .string s => writeBulkString s
  | .bytes b => writeBulk (some b)
  | .nilBytes => writeBulk none
  | .int n => writeBulkInt64 n
  | .int64 n => writeBulkInt64 n
  | .float64 text => writeBulkFloat64 text
  | .bool b => writeBulkString (ascii (if b then "1" else "0"))
  | .null => writeBulkString []
  | v => writeBulk (if fprint v = [] then none else some (fprint v))

def writeArgs : List GoValue → WriteM Unit
  | [] => pure ()
  | v :: vs => do
    writeArg v
    writeArgs vs

/-- `WriteCommand(cmd, args...)`, with its final `Flush`. -/
def writeCommand (cmd : Bytes) (args : List GoValue) : WriteM Unit := do
  write (ascii "*")
  writeIntegerText (Int64.ofNat (1 + args.length))
  writeTerm
  writeBulkString cmd
  writeArgs args

/-- `fmt.Sprintf("$%d\r\n%s\r\n", len(arg), arg)` -/
def sprintfBulk (arg : Bytes) : Bytes :=
  ascii "$" ++ intText (Int64.ofNat arg.length).toInt ++ respTerm ++ arg ++ respTerm

/-- `RespCmdClient.WriteWithStringArgs(args...)`, for a `[]string` that may be `nil`, with
the `Flush` of `WriteStringResp`. -/
def writeWithStringArgs : Option (List Bytes) → WriteM Unit
  | none => throw (.new "args cannot be nil")
  | some [] => throw (.new "args cannot be empty")
  | some args =>
    let cmdResp := (ascii "*" ++ intText (Int64.ofNat args.length).toInt ++ respTerm)
      ++ (args.map sprintfBulk).flatten
    write cmdResp

end WeedgePkg.Resp
