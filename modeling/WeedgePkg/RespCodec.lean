import WeedgePkg.RespParse

/-!
# The RESP codecs: replies and requests

A reply written by `RespWriter` comes back from `RespReader.Parse` (and a bulk string from
`ParseBulkTo`) with exactly the bytes after it left unread, and a request written by
`WriteCommand` comes back from `ParseRequest` the same way. Both need each line of the
frame to fit in the reader's buffer: a `bufio.Reader` may be as small as 16 bytes, and an
integer line such as `":-9223372036854775808\r\n"` is 23.
`WriteWithStringArgs` sends the same bytes as `WriteCommand` on string arguments.
-/

namespace WeedgePkg.Resp
open Bufio Decimal

/-- `Parse` on a frame followed by anything. -/
theorem parse_frame (r : Reader) {v : RespValue} (rest : Bytes) (hv : v.Fits r.size) :
    parse.run (r.withInput (frame v ++ rest)) = .ok v.reply (r.withInput rest) :=
  parseAt_frame r rest hv (by simp only [Reader.withInput_input, List.length_append]; omega)

theorem writeValue_run (v : RespValue) (out : Bytes) :
    (writeValue v).run out = .ok () (out ++ frame v) :=
  writeElem_run out (toResp?_toGo v)

/-- The payload `ParseBulkTo` copies out of a bulk or null bulk string. -/
def RespValue.bulkContents : RespValue → Option Bytes
  | .bulk b => some b
  | .nullBulk => some []
  | _ => none

theorem parseBulkTo_frame (r : Reader) {v : RespValue} {b : Bytes} (rest w : Bytes)
    (hv : v.Fits r.size) (hb : v.bulkContents = some b) :
    parseBulkTo (r.withInput (frame v ++ rest)) w = (none, r.withInput rest, w ++ b) := by
  cases v with
  | bulk p =>
    obtain ⟨hlen, hfit⟩ := hv
    obtain rfl : p = b := by simpa [RespValue.bulkContents] using hb
    have hline := readLine_header_run r 36 (p ++ (respTerm ++ rest)) (by decide) hlen hfit
    have hend := readLine_run r rest (l := []) (by simp) (by have := r.size_ge; simp; omega)
    simp only [EStateM.run, List.nil_append] at hline hend
    simp +decide [parseBulkTo, frame, List.append_assoc, hline, parseLen_lenText hlen,
      ofNat_not_neg hlen, Int64.toNatClampNeg_ofNat_of_lt hlen, copyN_append, hend]
  | nullBulk =>
    obtain rfl : [] = b := by simpa [RespValue.bulkContents] using hb
    have hline := readLine_null_run r 36 rest (by decide)
    simp only [EStateM.run] at hline
    simp +decide [parseBulkTo, frame, hline, parseLen]
  | _ => simp [RespValue.bulkContents] at hb

/-- Reply codec: the writer emits the value's frame, `Parse` reads it back leaving exactly
what follows, and `ParseBulkTo` copies a bulk payload out the same way, for every value
whose lines fit in the reader's buffer. -/
theorem reply_codec_roundtrip (r : Reader) (v : RespValue) (hv : v.Fits r.size) (out rest : Bytes) :
    (writeValue v).run out = .ok () (out ++ frame v) ∧
      parse.run (r.withInput (frame v ++ rest)) = .ok v.reply (r.withInput rest) ∧
      ∀ b w, v.bulkContents = some b →
        parseBulkTo (r.withInput (frame v ++ rest)) w = (none, r.withInput rest, w ++ b) :=
  ⟨writeValue_run v out, parse_frame r rest hv, fun _ w hb => parseBulkTo_frame r rest w hv hb⟩

theorem reply_codec_roundtrip_nested :
    (RespValue.array [.bulk (ascii "a\r\nb"), .int Int64.minValue, .simple (ascii "PONG"),
      .array [.nullBulk, .err (ascii "ERR")], .nullArray]).Fits 4096 ∧
    let v := RespValue.array [.bulk (ascii "a\r\nb"), .int Int64.minValue, .simple (ascii "PONG"),
      .array [.nullBulk, .err (ascii "ERR")], .nullArray]
    (writeValue v).run [] = .ok () ([] ++ frame v) ∧
      parse.run ((⟨4096, [], by decide⟩ : Reader).withInput (frame v ++ ascii "+OK\r\n")) =
        .ok v.reply ((⟨4096, [], by decide⟩ : Reader).withInput (ascii "+OK\r\n")) ∧
      ∀ b w, v.bulkContents = some b →
        parseBulkTo ((⟨4096, [], by decide⟩ : Reader).withInput (frame v ++ ascii "+OK\r\n")) w =
          (none, (⟨4096, [], by decide⟩ : Reader).withInput (ascii "+OK\r\n"), w ++ b) := by
  have hfits : (RespValue.array [.bulk (ascii "a\r\nb"), .int Int64.minValue, .simple (ascii "PONG"),
      .array [.nullBulk, .err (ascii "ERR")], .nullArray]).Fits 4096 := by
    simp only [RespValue.Fits, RespValue.FitsAll]
    decide
  exact ⟨hfits, reply_codec_roundtrip ⟨4096, [], by decide⟩ _ hfits [] (ascii "+OK\r\n")⟩

/-- A 16-byte buffer, the smallest `bufio.NewReaderSize` makes, cannot hold the 23-byte
line of `MinInt64`: `Parse` fails on a reply `WriteInteger` wrote. -/
theorem parse_min_int_small_buffer :
    (writeValue (.int Int64.minValue)).run [] = .ok () (frame (.int Int64.minValue)) ∧
      parse.run (⟨16, frame (.int Int64.minValue), le_refl 16⟩ : Reader) =
        .error (.new "long resp line") ⟨16, (frame (.int Int64.minValue)).drop 16, le_refl 16⟩ :=
  ⟨writeValue_run _ [], rfl⟩

/-! ## Requests -/

/-- The bulk string `WriteCommand` sends for an argument, by the case of its type switch
the argument takes; a `%v` text that is empty leaves the buffer's slice `nil`. -/
def GoValue.argBulk : GoValue → Option Bytes
  | .string s => some s
  | .bytes b => some b
  | .nilBytes => none
  | .int n => some (intText n.toInt)
  | .int64 n => some (intText n.toInt)
  | .float64 text => some text.toUTF8.toList
  | .bool b => some (ascii (if b then "1" else "0"))
  | .null => some []
  | v => if fprint v = [] then none else some (fprint v)

/-- A bulk string, `nil` being the null bulk string. -/
def bulkValue : Option Bytes → RespValue
  | none => .nullBulk
  | some b => .bulk b

@[simp] theorem bulkValue_none : bulkValue none = .nullBulk := rfl

@[simp] theorem bulkValue_some (b : Bytes) : bulkValue (some b) = .bulk b := rfl

/-- The request `WriteCommand(cmd, args...)` sends: an array of bulk strings. -/
def requestValue (cmd : Bytes) (args : List GoValue) : RespValue :=
  .array ((some cmd :: args.map GoValue.argBulk).map bulkValue)

theorem writeBulkString_run (s out : Bytes) :
    (writeBulkString s).run out = .ok () (out ++ frame (.bulk s)) := by
  simp only [writeBulkString, EStateM.run_bind, write_run, writeIntegerText_ofNat_run, writeTerm_run]
  simp [frame, line]

theorem writeArg_run (a : GoValue) (out : Bytes) :
    (writeArg a).run out = .ok () (out ++ frame (bulkValue a.argBulk)) := by
  cases a with
  | string s => exact writeBulkString_run s out
  | bytes b => exact writeBulk_some_run b out
  | nilBytes => exact writeBulk_none_run out
  | int n => exact writeBulk_some_run _ out
  | int64 n => exact writeBulk_some_run _ out
  | float64 text => exact writeBulk_some_run _ out
  | bool b => exact writeBulkString_run _ out
  | null => exact writeBulkString_run [] out
  | array _ | nilArray | error _ | other _ _ =>
    -- the default case: the argument's %v text
    simp only [writeArg, GoValue.argBulk]
    split
    · exact writeBulk_none_run out
    · exact writeBulk_some_run _ out

theorem writeArgs_run (args : List GoValue) (out : Bytes) :
    (writeArgs args).run out = .ok () (out ++ frames (args.map fun a => bulkValue a.argBulk)) := by
  induction args generalizing out with
  | nil => simp [writeArgs, frames]
  | cons a args ih =>
    simp only [writeArgs, EStateM.run_bind, writeArg_run, ih]
    simp [frames]

theorem writeCommand_run (cmd : Bytes) (args : List GoValue) (out : Bytes) :
    (writeCommand cmd args).run out = .ok () (out ++ frame (requestValue cmd args)) := by
  simp only [writeCommand, EStateM.run_bind, write_run, writeIntegerText_ofNat_run, writeTerm_run,
    writeBulkString_run, writeArgs_run]
  simp [requestValue, frame, frames, line, Nat.add_comm, Function.comp_def]

theorem sprintfBulk_eq (arg : Bytes) : sprintfBulk arg = frame (.bulk arg) := by
  simp only [sprintfBulk, frame, line, lenText, ascii_dollar, List.cons_append, List.nil_append,
    List.append_assoc]

theorem flatten_sprintfBulk (args : List Bytes) :
    (args.map sprintfBulk).flatten = frames (args.map RespValue.bulk) := by
  induction args with
  | nil => rfl
  | cons a args ih =>
    simp only [List.map_cons, List.flatten_cons, ih, frames, sprintfBulk_eq]

/-- `WriteWithStringArgs` builds with `fmt.Sprintf` the bytes `WriteCommand` writes. -/
theorem writeWithStringArgs_run (c : Bytes) (ss : List Bytes) (out : Bytes) :
    (writeWithStringArgs (some (c :: ss))).run out = (writeCommand c (ss.map .string)).run out := by
  rw [writeCommand_run]
  simp only [writeWithStringArgs, write_run, flatten_sprintfBulk]
  have hargs : (bulkValue ∘ GoValue.argBulk ∘ GoValue.string) = RespValue.bulk := rfl
  simp only [requestValue, List.map_cons, List.map_map, hargs, bulkValue_some, frame, frames, line,
    lenText, ascii_star, List.length_cons, List.length_map, List.cons_append, List.nil_append,
    List.append_assoc]

theorem parseBulk_frame (r : Reader) {b : Option Bytes} (rest : Bytes) (hb : (bulkValue b).Fits r.size) :
    parseBulk.run (r.withInput (frame (bulkValue b) ++ rest)) = .ok b (r.withInput rest) := by
  cases b with
  | none =>
    have hline := readLine_null_run r 36 rest (by decide)
    simp only [bulkValue_none, frame, parseBulk, EStateM.run_bind, hline]
    simp +decide [parseLen, bulkPayload]
  | some p =>
    obtain ⟨hlen, hfit⟩ := hb
    have hline := readLine_header_run r 36 (p ++ (respTerm ++ rest)) (by decide) hlen hfit
    simp only [bulkValue_some, frame, parseBulk, List.append_assoc, EStateM.run_bind, hline]
    simp +decide [parseLen_lenText hlen, bulkPayload_run r rest hlen]

/-- The loop of `ParseRequest`, one bulk string after another. -/
theorem readTimes_parseBulk (r : Reader) (rest : Bytes) (bs : List (Option Bytes))
    (hbs : ∀ b ∈ bs, (bulkValue b).Fits r.size) :
    (readTimes parseBulk bs.length).run (r.withInput (frames (bs.map bulkValue) ++ rest)) =
      .ok bs (r.withInput rest) := by
  induction bs with
  | nil => rfl
  | cons b bs ih =>
    have hhead := parseBulk_frame r (frames (bs.map bulkValue) ++ rest) (hbs b (by simp))
    have htail := ih (fun b hb => hbs b (by simp [hb]))
    simp only [readTimes, List.map_cons, frames, List.length_cons, List.append_assoc,
      EStateM.run_bind, hhead, htail]
    rfl

theorem parseRequest_frame (r : Reader) (bs : List (Option Bytes)) (rest : Bytes)
    (hlen : bs.length < 2 ^ 63) (hfit : (natText bs.length).length + 3 ≤ r.size)
    (hbs : ∀ b ∈ bs, (bulkValue b).Fits r.size) :
    parseRequest.run (r.withInput (frame (.array (bs.map bulkValue)) ++ rest)) =
      .ok (some bs) (r.withInput rest) := by
  have hline := readLine_header_run r 42 (frames (bs.map bulkValue) ++ rest) (by decide) hlen hfit
  simp only [parseRequest, frame, List.length_map, List.append_assoc, EStateM.run_bind, hline]
  simp +decide only [↓reduceIte, EStateM.run_bind, parseLen_lenText hlen, ofExcept_ok_run,
    ofNat_not_neg hlen, Int64.toNatClampNeg_ofNat_of_lt hlen, readTimes_parseBulk r rest bs hbs,
    EStateM.run_pure]

/-- Every header line fits a buffer of 22 bytes: a length below 2^63 has at most 19 digits. -/
theorem natText_fits {n size : ℕ} (hn : n < 2 ^ 63) (hs : 22 ≤ size) : (natText n).length + 3 ≤ size := by
  have := natText_length_le (k := 19) (by norm_num) (lt_trans hn (by norm_num))
  omega

theorem bulkValue_fits {size : ℕ} (hs : 22 ≤ size) {b : Option Bytes}
    (hb : ∀ p, b = some p → p.length < 2 ^ 63) : (bulkValue b).Fits size := by
  cases b with
  | none => trivial
  | some p => exact ⟨hb p rfl, natText_fits (hb p rfl) hs⟩

/-- `ParseRequest` stops with "long resp line" at a first element whose line does not fit. -/
theorem parseRequest_long_run (r : Reader) {n : ℕ} (hn : n < 2 ^ 63) (hpos : 0 < n)
    (hfit : (natText n).length + 3 ≤ r.size) (body : Bytes) (hno : 10 ∉ body.take r.size)
    (hlen : r.size ≤ body.length) :
    parseRequest.run (r.withInput (line 42 (lenText n) ++ body)) =
      .error (.new "long resp line") (r.withInput (body.drop r.size)) := by
  have hline := readLine_header_run r 42 body (by decide) hn hfit
  have hlong := readLine_long_run (r.withInput body) (by simpa using hno) (by simpa using hlen)
  simp only [Reader.withInput_input, Reader.withInput_size, Reader.withInput_withInput] at hlong
  simp only [parseRequest, EStateM.run_bind, hline]
  -- the header announces at least one element, so the loop reads one
  have hcount : (Int64.ofNat n).toNatClampNeg = (n - 1) + 1 := by
    rw [Int64.toNatClampNeg_ofNat_of_lt hn]
    omega
  simp +decide [parseLen_lenText hn, ofNat_not_neg hn, hcount, readTimes, parseBulk, hlong]

theorem RespValue.fitsAll_iff {size : ℕ} {vs : List RespValue} :
    RespValue.FitsAll size vs ↔ ∀ v ∈ vs, v.Fits size := by
  induction vs with
  | nil => simp [RespValue.FitsAll]
  | cons v vs ih => simp [RespValue.FitsAll, ih]

/-- A buffer of 22 bytes or more, such as `bufio`'s default of 4096, holds every line of a
request whose command and bulk strings are shorter than 2^63 bytes. -/
theorem requestValue_fits {size : ℕ} (hs : 22 ≤ size) (cmd : Bytes) (args : List GoValue)
    (hcmd : cmd.length < 2 ^ 63) (hn : args.length + 1 < 2 ^ 63)
    (hargs : ∀ a ∈ args, ∀ b, a.argBulk = some b → b.length < 2 ^ 63) :
    (requestValue cmd args).Fits size := by
  have hlen : ((some cmd :: args.map GoValue.argBulk).map bulkValue).length < 2 ^ 63 := by simpa using hn
  refine ⟨hlen, natText_fits hlen hs, RespValue.fitsAll_iff.mpr ?_⟩
  intro v hv
  obtain ⟨b, hb, rfl⟩ := List.mem_map.mp hv
  apply bulkValue_fits hs
  rintro p rfl
  simp only [List.mem_cons, List.mem_map] at hb
  rcases hb with h | ⟨a, ha, h⟩
  · cases h
    exact hcmd
  · exact hargs a ha p h

/-- Request codec: `WriteCommand` writes the frame of its request, which `ParseRequest`
reads back as the command and its arguments' bulk strings leaving exactly what follows,
for a reader whose buffer holds each line of that frame; and `WriteWithStringArgs` writes
what `WriteCommand` writes on string arguments. -/
theorem request_codec_roundtrip (r : Reader) (cmd : Bytes) (args : List GoValue)
    (hv : (requestValue cmd args).Fits r.size) (out rest : Bytes) :
    (writeCommand cmd args).run out = .ok () (out ++ frame (requestValue cmd args)) ∧
      parseRequest.run (r.withInput (frame (requestValue cmd args) ++ rest)) =
        .ok (some (some cmd :: args.map GoValue.argBulk)) (r.withInput rest) ∧
      ∀ (c : Bytes) (ss : List Bytes) (out' : Bytes),
        (writeWithStringArgs (some (c :: ss))).run out' = (writeCommand c (ss.map .string)).run out' := by
  obtain ⟨hlen, hfit, hall⟩ := hv
  rw [List.length_map] at hlen hfit
  -- each element's line fits, as the array's `FitsAll` says
  have hbs : ∀ b ∈ some cmd :: args.map GoValue.argBulk, (bulkValue b).Fits r.size := fun b hb =>
    RespValue.fitsAll_iff.mp hall _ (List.mem_map_of_mem hb)
  exact ⟨writeCommand_run cmd args out, parseRequest_frame r _ rest hlen hfit hbs, writeWithStringArgs_run⟩

theorem request_codec_roundtrip_set :
    let r : Reader := ⟨16, [], le_refl 16⟩
    let args := [GoValue.string (ascii "k"), .int 42, .bytes (ascii "v\r\n"), .nilBytes, .bool true, .null]
    (requestValue (ascii "SET") args).Fits r.size ∧
      (writeCommand (ascii "SET") args).run [] = .ok () ([] ++ frame (requestValue (ascii "SET") args)) ∧
      parseRequest.run (r.withInput (frame (requestValue (ascii "SET") args) ++ ascii "*1\r\n")) =
        .ok (some (some (ascii "SET") :: args.map GoValue.argBulk)) (r.withInput (ascii "*1\r\n")) ∧
      ∀ (c : Bytes) (ss : List Bytes) (out' : Bytes),
        (writeWithStringArgs (some (c :: ss))).run out' = (writeCommand c (ss.map .string)).run out' := by
  have hfits : (requestValue (ascii "SET") [GoValue.string (ascii "k"), .int 42, .bytes (ascii "v\r\n"),
      .nilBytes, .bool true, .null]).Fits 16 := by
    simp only [requestValue, List.map_cons, List.map_nil, GoValue.argBulk, bulkValue_some,
      bulkValue_none, RespValue.Fits, RespValue.FitsAll]
    decide
  exact ⟨hfits, request_codec_roundtrip _ _ _ hfits [] _⟩

/-- With the 16-byte buffer `bufio` allows, the header line of a command of 10^13 bytes
(`"$10000000000000\r\n"`, 17 bytes) does not fit, and `ParseRequest` fails on a request
`WriteCommand` wrote. -/
theorem parse_request_long_cmd_small_buffer :
    (writeCommand (List.replicate (10 ^ 13) 97) []).run [] =
        .ok () (frame (requestValue (List.replicate (10 ^ 13) 97) [])) ∧
      parseRequest.run (⟨16, frame (requestValue (List.replicate (10 ^ 13) 97) []), le_refl 16⟩ : Reader) =
        .error (.new "long resp line") ⟨16, 10 :: (List.replicate (10 ^ 13) 97 ++ respTerm), le_refl 16⟩ := by
  refine ⟨by rw [writeCommand_run, List.nil_append], ?_⟩
  -- the bulk header of the command is 17 bytes, one more than the buffer
  have hpre : (ascii "$10000000000000\r\n").length = 17 := rfl
  have hframe : frame (requestValue (List.replicate (10 ^ 13) 97) []) =
      line 42 (lenText 1) ++ (ascii "$10000000000000\r\n" ++ (List.replicate (10 ^ 13) 97 ++ respTerm)) := by
    have hheader : line 36 (lenText (List.replicate (10 ^ 13) (97 : UInt8)).length) =
        ascii "$10000000000000\r\n" := by
      rw [List.length_replicate]
      decide
    simp only [requestValue, List.map_cons, List.map_nil, bulkValue_some, frame, frames,
      List.length_singleton, List.append_nil, List.append_assoc, hheader]
  have hrest : (ascii "$10000000000000\r\n" ++ (List.replicate (10 ^ 13) 97 ++ respTerm)).drop 16 =
      10 :: (List.replicate (10 ^ 13) 97 ++ respTerm) := by
    rw [List.drop_append_of_le_length (by rw [hpre]; decide)]
    rfl
  have h := parseRequest_long_run ⟨16, [], le_refl 16⟩ (n := 1) (by norm_num) (by norm_num) (by decide)
    (ascii "$10000000000000\r\n" ++ (List.replicate (10 ^ 13) 97 ++ respTerm))
    (by
      rw [List.take_append_of_le_length (by rw [hpre]; decide)]
      decide)
    (by
      simp only [List.length_append, hpre]
      omega)
  rw [hrest, ← hframe] at h
  exact h
end WeedgePkg.Resp
