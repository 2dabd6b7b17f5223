import WeedgePkg.GoStrconv
import WeedgePkg.RespCodec

/-!
# The reply helpers of `client/resp/resp_reply.go`

`Int`, `Int64`, `Uint64`, `Float64`, `String`, `Bytes`, `Bool`, `Values` and `Strings` turn
the reply and the error of `Receive` into one Go type. They share one shape: an error handed
in comes back with the zero value, a nil reply is `ErrNil`, an error reply is returned as the
error, and a type the helper has no case for gives `"unexpected type for NAME, got type T"`.
`Conversions` is that shape, and each helper is it applied to its own cases.

`Receive` itself returns an error reply both as the reply and as the error, so through
`Receive` every helper returns the server's error as the error it was handed.
-/

namespace WeedgePkg.Resp

open Bufio Decimal GoFloat

/-- What a helper returns as its `error`: a Go error value, or the `*strconv.NumError` of the
parser `func` on `input`. -/
inductive ReplyError where
  | go (e : GoError)
  | num (func : String) (input : Bytes) (err : NumError)
  deriving DecidableEq, Repr

def errNil : GoError := .new "nil returned"

def errNegativeInt : GoError := .new "unexpected value for Uint64"

/-- What `%T` prints for each dynamic type `Parse` returns. -/
def Reply.typeName : Reply → String
  | .null => "<nil>"
  | .str _ => "string"
  | .error _ => "respclient.Error"
  | .int _ => "int64"
  | .bulk _ => "[]uint8"
  | .array _ => "[]interface {}"

/-- The cases of a helper's type switch besides `nil` and `Error`, and its zero value. -/
structure Conversions (β : Type) where
  name : String
  zero : β
  int : Option (Int64 → β × Option ReplyError) := none
  bulk : Option (Bytes → β × Option ReplyError) := none
  str : Option (Bytes → β × Option ReplyError) := none
  array : Option (List Reply → β × Option ReplyError) := none

namespace Conversions

variable {β : Type} (c : Conversions β)

/-- The case a reply of an `int64`, `[]byte`, `string` or `[]interface{}` takes, if any. -/
def case? : Reply → Option (β × Option ReplyError)
  | .int n => c.int.map (· n)
  | .bulk b => c.bulk.map (· b)
  | .str s => c.str.map (· s)
  | .array vs => c.array.map (· vs)
  | .null | .error _ => none

def convert (reply : Reply) (err : Option GoError) : β × Option ReplyError :=
  match err with
  | some e => (c.zero, some (.go e))
  | none =>
    match reply with
    | .null => (c.zero, some (.go errNil))
    | .error s => (c.zero, some (.go (respError s)))
    | reply => (c.case? reply).getD
        (c.zero, some (.go (.new ("unexpected type for " ++ c.name ++ ", got type " ++ reply.typeName))))

end Conversions

/-- A parser's result as a helper returns it: the value, and the error as a `*NumError`. -/
def numResult {β : Type} (func : String) (input : Bytes) (r : β × Option NumError) : β × Option ReplyError :=
  (r.1, r.2.map (.num func input))

/-- `Int`. An `int` is 64 bits wide, so `int64(int(reply)) == reply` always holds, and
`ParseInt(s, 10, 0)` is `ParseInt(s, 10, 64)`. -/
def int (reply : Reply) (err : Option GoError) : Int64 × Option ReplyError :=
  Conversions.convert
    { name := "Int", zero := 0, int := some fun n => (n, none),
      bulk := some fun b => numResult "ParseInt" b (Strconv.parseInt b) } reply err

def int64 (reply : Reply) (err : Option GoError) : Int64 × Option ReplyError :=
  Conversions.convert
    { name := "Int64", zero := 0, int := some fun n => (n, none),
      bulk := some fun b => numResult "ParseInt" b (Strconv.parseInt b) } reply err

/-- `Uint64`: a negative integer reply is `errNegativeInt`. -/
def uint64 (reply : Reply) (err : Option GoError) : UInt64 × Option ReplyError :=
  Conversions.convert
    { name := "Uint64", zero := 0,
      int := some fun n => if n < 0 then (0, some (.go errNegativeInt)) else (n.toUInt64, none),
      bulk := some fun b => numResult "ParseUint" b (Strconv.parseUint b) } reply err

def float64 (reply : Reply) (err : Option GoError) : Float64 × Option ReplyError :=
  Conversions.convert
    { name := "Float64", zero := zero false,
      bulk := some fun b => numResult "ParseFloat" b (parseFloat b) } reply err

def string (reply : Reply) (err : Option GoError) : Bytes × Option ReplyError :=
  Conversions.convert
    { name := "String", zero := [], bulk := some fun b => (b, none), str := some fun s => (s, none) }
    reply err

def bytes (reply : Reply) (err : Option GoError) : Bytes × Option ReplyError :=
  Conversions.convert
    { name := "Bytes", zero := [], bulk := some fun b => (b, none), str := some fun s => (s, none) }
    reply err

def bool (reply : Reply) (err : Option GoError) : Bool × Option ReplyError :=
  Conversions.convert
    { name := "Bool", zero := false, int := some fun n => (n != 0, none),
      bulk := some fun b => numResult "ParseBool" b (Strconv.parseBool b) } reply err

def values (reply : Reply) (err : Option GoError) : List Reply × Option ReplyError :=
  Conversions.convert { name := "Values", zero := [], array := some fun vs => (vs, none) } reply err

def multiBulk (reply : Reply) (err : Option GoError) : List Reply × Option ReplyError := values reply err

/-- The loop of `Strings`: a nil element stays `""`, a bulk string is taken, and any other
element stops the loop with an error. -/
def stringsLoop : List Reply → Except String (List Bytes)
  | [] => .ok []
  | .null :: rest => ([] :: ·) <$> stringsLoop rest
  | .bulk p :: rest => (p :: ·) <$> stringsLoop rest
  | v :: _ => .error ("unexpected element type for Strings, got type " ++ v.typeName)

def strings (reply : Reply) (err : Option GoError) : List Bytes × Option ReplyError :=
  Conversions.convert
    { name := "Strings", zero := [],
      array := some fun vs => match stringsLoop vs with
        | .ok r => (r, none)
        | .error text => ([], some (.go (.new text))) } reply err

def Reply.errorOf : Reply → Option GoError
  | .error s => some (respError s)
  | _ => none

/-- `Receive`: the reply `Parse` read and its error. A read error closes the connection,
which is the last component, and returns a nil reply. -/
def receive (r : Reader) : Reply × Option GoError × Reader × Bool :=
  match parse.run r with
  | .ok reply r' => (reply, reply.errorOf, r', false)
  | .error e r' => (.null, some e, r', true)

/-- A helper applied to what `Receive` returns, as in `Int64(c.Receive())`. -/
def receiveAs {β : Type} (helper : Reply → Option GoError → β × Option ReplyError) (r : Reader) :
    β × Option ReplyError :=
  helper (receive r).1 (receive r).2.1

def defaultReader : Reader := ⟨4096, [], by decide⟩

/-! ## What the helpers return -/

namespace Conversions

variable {β : Type} (c : Conversions β)

@[simp] theorem convert_some (reply : Reply) (e : GoError) : c.convert reply (some e) = (c.zero, some (.go e)) :=
  rfl

@[simp] theorem convert_null : c.convert .null none = (c.zero, some (.go errNil)) := rfl

@[simp] theorem convert_error (s : Bytes) : c.convert (.error s) none = (c.zero, some (.go (respError s))) := rfl

/-- Through `Receive`, every helper returns an error reply as the error it is handed, with its
zero value: the helper's own `case Error` is never reached. -/
theorem receiveAs_err (r : Reader) {s : Bytes} (hv : (RespValue.err s).Fits r.size) (rest : Bytes) :
    receiveAs c.convert (r.withInput (frame (.err s) ++ rest)) = (c.zero, some (.go (respError s))) := by
  simp [receiveAs, receive, parse_frame r rest hv, RespValue.reply, Reply.errorOf]

end Conversions

theorem receive_frame (r : Reader) {v : RespValue} (rest : Bytes) (hv : v.Fits r.size) :
    receive (r.withInput (frame v ++ rest)) = (v.reply, v.reply.errorOf, r.withInput rest, false) := by
  simp [receive, parse_frame r rest hv]

/-- `Int64` and `Int` read back every `int64` a server sends, as an integer reply and as the
decimal text in a bulk string. -/
theorem receive_int64_roundtrip (r : Reader) (n : Int64) (rest : Bytes) (hint : (RespValue.int n).Fits r.size)
    (hbulk : (RespValue.bulk (intText n.toInt)).Fits r.size) :
    receiveAs int64 (r.withInput (frame (.int n) ++ rest)) = (n, none) ∧
      receiveAs int64 (r.withInput (frame (.bulk (intText n.toInt)) ++ rest)) = (n, none) ∧
      receiveAs int (r.withInput (frame (.int n) ++ rest)) = (n, none) ∧
      receiveAs int (r.withInput (frame (.bulk (intText n.toInt)) ++ rest)) = (n, none) := by
  simp only [receiveAs, receive_frame r rest hint, receive_frame r rest hbulk, RespValue.reply, Reply.errorOf,
    int64, int, Conversions.convert, Conversions.case?, numResult, Option.map_some, Option.getD_some,
    Strconv.parseInt_intText, Option.map_none, and_self]

theorem receive_minInt64_roundtrip :
    (RespValue.int Int64.minValue).Fits defaultReader.size ∧
      (RespValue.bulk (intText Int64.minValue.toInt)).Fits defaultReader.size ∧
      receiveAs int64 (defaultReader.withInput (frame (.int Int64.minValue) ++ [])) = (Int64.minValue, none) ∧
      receiveAs int64 (defaultReader.withInput (frame (.bulk (intText Int64.minValue.toInt)) ++ [])) =
        (Int64.minValue, none) ∧
      receiveAs int (defaultReader.withInput (frame (.int Int64.minValue) ++ [])) = (Int64.minValue, none) ∧
      receiveAs int (defaultReader.withInput (frame (.bulk (intText Int64.minValue.toInt)) ++ [])) =
        (Int64.minValue, none) :=
  have hint : (RespValue.int Int64.minValue).Fits defaultReader.size := by
    simp only [RespValue.Fits]
    decide
  have hbulk : (RespValue.bulk (intText Int64.minValue.toInt)).Fits defaultReader.size := by
    simp only [RespValue.Fits]
    decide
  ⟨hint, hbulk, receive_int64_roundtrip defaultReader Int64.minValue [] hint hbulk⟩

/-- `Uint64` reads back every `uint64` sent as its decimal text, and refuses a negative
integer reply with `errNegativeInt`. -/
theorem receive_uint64 (r : Reader) (rest : Bytes) :
    (∀ m : UInt64, (RespValue.bulk (natText m.toNat)).Fits r.size →
      receiveAs uint64 (r.withInput (frame (.bulk (natText m.toNat)) ++ rest)) = (m, none)) ∧
    (∀ n : Int64, (RespValue.int n).Fits r.size → n < 0 →
      receiveAs uint64 (r.withInput (frame (.int n) ++ rest)) = (0, some (.go errNegativeInt))) := by
  refine ⟨fun m hv => ?_, fun n hv hn => ?_⟩
  · have hm : m.toNat ≤ Strconv.maxUint64 := by
      have := m.toNat_lt
      unfold Strconv.maxUint64
      omega
    simp [receiveAs, receive_frame r rest hv, RespValue.reply, Reply.errorOf, uint64, Conversions.convert,
      Conversions.case?, numResult, Strconv.parseUint_natText hm]
  · simp [receiveAs, receive_frame r rest hv, RespValue.reply, Reply.errorOf, uint64, Conversions.convert,
      Conversions.case?, hn]

theorem receive_uint64_max_and_minus_one :
    (RespValue.bulk (natText (18446744073709551615 : UInt64).toNat)).Fits defaultReader.size ∧
      receiveAs uint64 (defaultReader.withInput (frame (.bulk (natText (18446744073709551615 : UInt64).toNat)) ++ [])) =
        (18446744073709551615, none) ∧
      (RespValue.int (-1)).Fits defaultReader.size ∧ (-1 : Int64) < 0 ∧
      receiveAs uint64 (defaultReader.withInput (frame (.int (-1)) ++ [])) = (0, some (.go errNegativeInt)) :=
  have hmax : (RespValue.bulk (natText (18446744073709551615 : UInt64).toNat)).Fits defaultReader.size := by
    simp only [RespValue.Fits]
    decide
  have hneg : (RespValue.int (-1)).Fits defaultReader.size := by
    simp only [RespValue.Fits]
    decide
  ⟨hmax, (receive_uint64 defaultReader []).1 _ hmax, hneg, by decide,
    (receive_uint64 defaultReader []).2 _ hneg (by decide)⟩

/-- A bulk string of more than 63 bits of digits does not give zero, as the comment of `Int64`
says of failed conversions, but the nearest bound with a `ParseInt` range error. -/
theorem int64_bulk_overflow {p : Bytes} (hp : ∀ c ∈ p, Strconv.isDigit c) :
    (2 ^ 63 ≤ digitsValue p → int64 (.bulk p) none = (Int64.maxValue, some (.num "ParseInt" p .errRange))) ∧
      (2 ^ 63 < digitsValue p →
        int64 (.bulk (45 :: p)) none = (Int64.minValue, some (.num "ParseInt" (45 :: p) .errRange))) := by
  refine ⟨fun hv => ?_, fun hv => ?_⟩
  · simp [int64, Conversions.convert, Conversions.case?, numResult, Strconv.parseInt_overflow hp hv]
  · simp [int64, Conversions.convert, Conversions.case?, numResult, Strconv.parseInt_minus_overflow hp hv]

theorem int64_bulk_overflow_two_pow :
    (∀ c ∈ natText (2 ^ 63), Strconv.isDigit c) ∧ 2 ^ 63 ≤ digitsValue (natText (2 ^ 63)) ∧
      int64 (.bulk (natText (2 ^ 63))) none =
        (Int64.maxValue, some (.num "ParseInt" (natText (2 ^ 63)) .errRange)) :=
  have hp : ∀ c ∈ natText (2 ^ 63), Strconv.isDigit c := fun _ hc => Strconv.isDigit_of_mem_natText hc
  have hv : 2 ^ 63 ≤ digitsValue (natText (2 ^ 63)) := (digitsValue_natText _).ge
  ⟨hp, hv, (int64_bulk_overflow hp).1 hv⟩

/-! ## `Strings` -/

def Reply.stringOf : Reply → Bytes
  | .bulk p => p
  | _ => []

theorem stringsLoop_ok {vs : List Reply} (h : ∀ v ∈ vs, v = .null ∨ ∃ p, v = .bulk p) :
    stringsLoop vs = .ok (vs.map Reply.stringOf) := by
  induction vs with
  | nil => rfl
  | cons v vs ih =>
    have hrest := ih fun w hw => h w (List.mem_cons_of_mem v hw)
    rcases h v List.mem_cons_self with rfl | ⟨p, rfl⟩ <;> simp [stringsLoop, hrest, Reply.stringOf]

theorem stringsLoop_error {taken : List Reply} (h : ∀ v ∈ taken, v = .null ∨ ∃ p, v = .bulk p) {v : Reply}
    (hv : v ≠ .null ∧ ∀ p, v ≠ .bulk p) (rest : List Reply) :
    stringsLoop (taken ++ v :: rest) = .error ("unexpected element type for Strings, got type " ++ v.typeName) := by
  induction taken with
  | nil =>
    cases v with
    | null => exact absurd rfl hv.1
    | bulk p => exact absurd rfl (hv.2 p)
    | _ => rfl
  | cons w taken ih =>
    have hrest := ih fun x hx => h x (List.mem_cons_of_mem w hx)
    rcases h w List.mem_cons_self with rfl | ⟨p, rfl⟩ <;> simp [stringsLoop, hrest]

/-- `Strings` of an array: one string per element, `""` for a nil one, when every element is
nil or a bulk string; otherwise nothing, with an error naming the type of the first element that
is neither. -/
theorem strings_array (vs : List Reply) :
    ((∀ v ∈ vs, v = .null ∨ ∃ p, v = .bulk p) → strings (.array vs) none = (vs.map Reply.stringOf, none)) ∧
      ∀ taken v rest, vs = taken ++ v :: rest → (∀ w ∈ taken, w = .null ∨ ∃ p, w = .bulk p) →
        v ≠ .null ∧ (∀ p, v ≠ .bulk p) →
        strings (.array vs) none =
          ([], some (.go (.new ("unexpected element type for Strings, got type " ++ v.typeName)))) := by
  refine ⟨fun h => ?_, fun taken v rest hvs htaken hv => ?_⟩
  · simp [strings, Conversions.convert, Conversions.case?, stringsLoop_ok h]
  · subst hvs
    simp [strings, Conversions.convert, Conversions.case?, stringsLoop_error htaken hv]

theorem strings_of_mixed_arrays :
    strings (.array [.bulk (ascii "a"), .null]) none = ([ascii "a", []], none) ∧
      strings (.array [.bulk (ascii "a"), .null, .int 3, .bulk (ascii "b")]) none =
        ([], some (.go (.new "unexpected element type for Strings, got type int64"))) :=
  ⟨(strings_array _).1 (by simp),
    (strings_array _).2 [.bulk (ascii "a"), .null] (.int 3) [.bulk (ascii "b")] rfl (by simp) (by simp)⟩

end WeedgePkg.Resp
