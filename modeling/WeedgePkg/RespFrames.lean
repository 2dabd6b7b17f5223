import WeedgePkg.RespReader
import WeedgePkg.RespWriter

/-!
# RESP frames, and the writer that emits them

The RESP values of the protocol and their frames on the wire: a type byte, a line ended by
`"\r\n"`, and for bulk strings and arrays a length or count followed by the payload or the
elements' frames. Lengths are written from Go's `int`, which `lenText` keeps.

Every value an `interface{}` may hold either has a frame (`GoValue.toResp?`) or makes
`WriteArray` fail; `writeElem_run` says the writer emits exactly the frame of the former.
-/

namespace WeedgePkg.Resp
open Bufio Decimal

/-- The RESP values: bulk and null bulk strings, integers, simple strings, errors, arrays
and null arrays. -/
inductive RespValue where
  | bulk (b : Bytes)
  | nullBulk
  | int (n : Int64)
  | simple (s : Bytes)
  | err (s : Bytes)
  | array (items : List RespValue)
  | nullArray

/-- The decimal text of a length, as Go's `int` holds it. -/
def lenText (n : ℕ) : Bytes := intText (Int64.ofNat n).toInt

/-- A frame's first line: its type byte, its text and `"\r\n"`. -/
def line (c : UInt8) (text : Bytes) : Bytes := c :: text ++ respTerm

mutual
/-- The frame of a value. -/
def frame : RespValue → Bytes
  | .bulk b => line 36 (lenText b.length) ++ b ++ respTerm
  | .nullBulk => line 36 nullBulk
  | .int n => line 58 (intText n.toInt)
  | .simple s => line 43 s
  | .err s => line 45 s
  | .array vs => line 42 (lenText vs.length) ++ frames vs
  | .nullArray => line 42 nullBulk

/-- The frames of the elements of an array, one after another. -/
def frames : List RespValue → Bytes
  | [] => []
  | v :: vs => frame v ++ frames vs
end

mutual
/-- What `Parse` returns for a value. -/
def RespValue.reply : RespValue → Reply
  | .bulk b => .bulk b
  | .nullBulk => .null
  | .int n => .int n
  | .simple s => .str s
  | .err s => .error s
  | .array vs => .array (RespValue.replies vs)
  | .nullArray => .null

/-- What `Parse` returns for the elements of an array. -/
def RespValue.replies : List RespValue → List Reply
  | [] => []
  | v :: vs => v.reply :: RespValue.replies vs
end

mutual
/-- What the writers are handed for a value. -/
def RespValue.toGo : RespValue → GoValue
  | .bulk b => .bytes b
  | .nullBulk => .nilBytes
  | .int n => .int64 n
  | .simple s => .string s
  | .err s => .error s
  | .array vs => .array (RespValue.toGoList vs)
  | .nullArray => .nilArray

/-- What the writers are handed for the elements of an array. -/
def RespValue.toGoList : List RespValue → List GoValue
  | [] => []
  | v :: vs => v.toGo :: RespValue.toGoList vs
end

mutual
/-- The RESP value an element of `WriteArray` is written as, if its type has a frame. -/
def GoValue.toResp? : GoValue → Option RespValue
  | .array xs => (GoValue.toRespList? xs).map .array
  | .nilArray => some .nullArray
  | .bytes b => some (.bulk b)
  | .nilBytes => some .nullBulk
  | .null => some .nullBulk
  | .int64 n => some (.int n)
  | .string s => some (.simple s)
  | .error text => some (.err text)
  | _ => none

/-- The RESP values of all the elements of a slice, if each has a frame. -/
def GoValue.toRespList? : List GoValue → Option (List RespValue)
  | [] => some []
  | x :: xs => do
    let v ← x.toResp?
    let vs ← GoValue.toRespList? xs
    pure (v :: vs)
end

/-- Writing a value: `WriteArray`, `WriteBulk`, `WriteInteger`, `WriteString` or
`WriteError`, by its kind. -/
def writeValue (v : RespValue) : WriteM Unit := writeElem v.toGo

mutual
theorem toResp?_toGo : ∀ v : RespValue, v.toGo.toResp? = some v
  | .array vs => by simp [RespValue.toGo, GoValue.toResp?, toRespList?_toGoList vs]
  | .bulk _ | .nullBulk | .int _ | .simple _ | .err _ | .nullArray => rfl

theorem toRespList?_toGoList : ∀ vs : List RespValue, GoValue.toRespList? (RespValue.toGoList vs) = some vs
  | [] => rfl
  | v :: vs => by
    simp [RespValue.toGoList, GoValue.toRespList?, toResp?_toGo v, toRespList?_toGoList vs]
end

theorem lenText_of_lt {n : ℕ} (h : n < 2 ^ 63) : lenText n = natText n := by
  rw [lenText, Int64.toInt_ofNat_of_lt h, intText_ofNat]

theorem intBuffer_getD {k : ℕ} (h : k < 10000) : intBuffer.getD k [] = intText k := by
  simp [intBuffer, List.getD_eq_getElem?_getD, List.getElem?_range h]

/-- The table and `strconv.AppendInt` write the same digits. -/
@[simp] theorem writeIntegerText_run (n : Int64) (out : Bytes) :
    (writeIntegerText n).run out = .ok () (out ++ intText n.toInt) := by
  unfold writeIntegerText
  split
  · rename_i h
    have hlen : intBuffer.length = 10000 := by simp [intBuffer]
    have hk : n.toNatClampNeg < 10000 := by
      rw [Int64.toNatClampNeg]
      rw [Int64.le_iff_toInt_le, Int64.toInt_zero] at h
      omega
    have hn : ((n.toNatClampNeg : ℕ) : ℤ) = n.toInt := by
      rw [Int64.toNatClampNeg]
      rw [Int64.le_iff_toInt_le, Int64.toInt_zero] at h
      omega
    rw [write_run, intBuffer_getD hk, hn]
  · rfl

@[simp] theorem writeIntegerText_ofNat_run (n : ℕ) (out : Bytes) :
    (writeIntegerText (Int64.ofNat n)).run out = .ok () (out ++ lenText n) :=
  writeIntegerText_run _ out

@[simp] theorem writeTerm_run (out : Bytes) : writeTerm.run out = .ok () (out ++ respTerm) := rfl

theorem writeInteger_run (n : Int64) (out : Bytes) :
    (writeInteger n).run out = .ok () (out ++ frame (.int n)) := by
  simp [writeInteger, frame, line]

theorem writeString_run (s out : Bytes) :
    (writeString s).run out = .ok () (out ++ frame (.simple s)) := by
  simp [writeString, frame, line]

theorem writeError_run (s out : Bytes) :
    (writeError (some s)).run out = .ok () (out ++ frame (.err s)) := by
  simp [writeError, frame, line]

theorem writeBulk_some_run (b out : Bytes) :
    (writeBulk (some b)).run out = .ok () (out ++ frame (.bulk b)) := by
  simp only [writeBulk, EStateM.run_bind, write_run, writeIntegerText_ofNat_run, writeTerm_run]
  simp [frame, line]

theorem writeBulk_none_run (out : Bytes) :
    (writeBulk none).run out = .ok () (out ++ frame .nullBulk) := by
  simp [writeBulk, frame, line]

theorem writeArray_none_run (out : Bytes) :
    (writeArray none).run out = .ok () (out ++ frame .nullArray) := by
  simp [writeArray, frame, line]

theorem toRespList?_length : ∀ {xs : List GoValue} {vs : List RespValue},
    GoValue.toRespList? xs = some vs → xs.length = vs.length
  | [], vs, h => by
    obtain rfl : [] = vs := by simpa [GoValue.toRespList?] using h
    rfl
  | x :: xs, vs, h => by
    simp only [GoValue.toRespList?, Option.bind_eq_bind, Option.bind_eq_some_iff,
      Option.pure_def, Option.some.injEq] at h
    obtain ⟨v, _, vs', hvs', rfl⟩ := h
    simp [toRespList?_length hvs']

mutual
/-- An element with a frame is written as exactly that frame. -/
theorem writeElem_run : ∀ {x : GoValue} {v : RespValue} (out : Bytes), x.toResp? = some v →
    (writeElem x).run out = .ok () (out ++ frame v)
  | .array xs, v, out, h => by
    obtain ⟨vs, hvs, rfl⟩ : ∃ vs, GoValue.toRespList? xs = some vs ∧ RespValue.array vs = v := by
      simpa [GoValue.toResp?] using h
    have hlen : xs.length = vs.length := toRespList?_length hvs
    simp only [writeElem, writeArray, EStateM.run_bind, write_run, writeIntegerText_ofNat_run,
      writeTerm_run, hlen]
    rw [writeElems_run _ hvs]
    simp [frame, line]
  | .nilArray, v, out, h => by
    obtain rfl : RespValue.nullArray = v := by simpa [GoValue.toResp?] using h
    simp only [writeElem]
    exact writeArray_none_run out
  | .bytes b, v, out, h => by
    obtain rfl : RespValue.bulk b = v := by simpa [GoValue.toResp?] using h
    simp only [writeElem]
    exact writeBulk_some_run b out
  | .nilBytes, v, out, h => by
    obtain rfl : RespValue.nullBulk = v := by simpa [GoValue.toResp?] using h
    simp only [writeElem]
    exact writeBulk_none_run out
  | .null, v, out, h => by
    obtain rfl : RespValue.nullBulk = v := by simpa [GoValue.toResp?] using h
    simp only [writeElem]
    exact writeBulk_none_run out
  | .int64 n, v, out, h => by
    obtain rfl : RespValue.int n = v := by simpa [GoValue.toResp?] using h
    simp only [writeElem]
    exact writeInteger_run n out
  | .string s, v, out, h => by
    obtain rfl : RespValue.simple s = v := by simpa [GoValue.toResp?] using h
    simp only [writeElem]
    exact writeString_run s out
  | .error s, v, out, h => by
    obtain rfl : RespValue.err s = v := by simpa [GoValue.toResp?] using h
    simp only [writeElem]
    exact writeError_run s out
  | .int _, _, _, h | .bool _, _, _, h | .float64 _, _, _, h | .other _ _, _, _, h => by
    simp [GoValue.toResp?] at h

/-- Elements with frames are written as their frames, one after another. -/
theorem writeElems_run : ∀ {xs : List GoValue} {vs : List RespValue} (out : Bytes),
    GoValue.toRespList? xs = some vs → (writeElems xs).run out = .ok () (out ++ frames vs)
  | [], vs, out, h => by
    obtain rfl : [] = vs := by simpa [GoValue.toRespList?] using h
    simp [writeElems, frames]
  | x :: xs, vs, out, h => by
    simp only [GoValue.toRespList?, Option.bind_eq_bind, Option.bind_eq_some_iff,
      Option.pure_def, Option.some.injEq] at h
    obtain ⟨v, hv, vs', hvs', rfl⟩ := h
    simp [writeElems, EStateM.run_bind, writeElem_run out hv, writeElems_run (out ++ frame v) hvs',
      frames]
end

end WeedgePkg.Resp
