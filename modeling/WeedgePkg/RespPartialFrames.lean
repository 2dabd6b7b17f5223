import WeedgePkg.RespCodec

/-!
# What `WriteArray` leaves behind when it fails

`WriteArray` writes the array header before it looks at the elements and stops at the
first element of a type it has no frame for. By then the buffer holds the header, the
frames of the elements before that one and, when that element is itself an array, what
the nested call wrote: a prefix of a frame that is never empty, and that `FlushArray`
sends all the same. When no element fails, the bytes are exactly the array's frame.
-/

namespace WeedgePkg.Resp
open Bufio Decimal

/-- `PartialFrame v p x`: writing `v` stops at the unsupported scalar `x` after writing `p`. -/
inductive PartialFrame : GoValue → Bytes → GoValue → Prop where
  | scalar {x : GoValue} (unsupported : x.toResp? = none) (notArray : ∀ ys, x ≠ .array ys) :
      PartialFrame x [] x
  | nested {pre post : List GoValue} {vs : List RespValue} {y x : GoValue} {q : Bytes}
      (supported : GoValue.toRespList? pre = some vs) (stop : PartialFrame y q x) :
      PartialFrame (.array (pre ++ y :: post))
        (line 42 (lenText (pre ++ y :: post).length) ++ frames vs ++ q) x

theorem toRespList?_cons_of_some {x : GoValue} {v : RespValue} (xs : List GoValue)
    (hx : x.toResp? = some v) :
    GoValue.toRespList? (x :: xs) = (GoValue.toRespList? xs).map (v :: ·) := by
  cases h : GoValue.toRespList? xs <;> simp [GoValue.toRespList?, hx, h]

/-- The scalar a failed write stops at has no frame and is not an array. -/
theorem PartialFrame.stop_unsupported {v x : GoValue} {p : Bytes} (h : PartialFrame v p x) :
    x.toResp? = none ∧ ∀ ys, x ≠ .array ys := by
  induction h with
  | scalar unsupported notArray => exact ⟨unsupported, notArray⟩
  | nested _ _ ih => exact ih

/-- The bytes a failed array write leaves start with the array's header. -/
theorem PartialFrame.array_ne_nil {ay : List GoValue} {p : Bytes} {x : GoValue}
    (h : PartialFrame (.array ay) p x) : p ≠ [] := by
  cases h with
  | scalar _ notArray => exact absurd rfl (notArray ay)
  | nested _ _ => simp [line]

mutual
/-- An element with no frame makes `WriteArray`'s type switch fail, after writing what
`PartialFrame` says. -/
theorem writeElem_partial : ∀ {v : GoValue} (out : Bytes), v.toResp? = none →
    ∃ p x, PartialFrame v p x ∧
      (writeElem v).run out = .error (.new ("invalid array type " ++ x.describe)) (out ++ p)
  | .array ys, out, h => by
    have hys : GoValue.toRespList? ys = none := by simpa [GoValue.toResp?] using h
    obtain ⟨pre, y, post, vs, q, x, rfl, hpre, hy, hrun⟩ :=
      writeElems_partial (out ++ line 42 (lenText ys.length)) hys
    refine ⟨_, x, .nested hpre hy, ?_⟩
    simp only [writeElem, writeArray, EStateM.run_bind, write_run, writeIntegerText_ofNat_run,
      writeTerm_run]
    simpa [line] using hrun
  | .int n, out, _ => ⟨[], .int n, .scalar rfl (by simp), by simp [writeElem]⟩
  | .bool b, out, _ => ⟨[], .bool b, .scalar rfl (by simp), by simp [writeElem]⟩
  | .float64 text, out, _ => ⟨[], .float64 text, .scalar rfl (by simp), by simp [writeElem]⟩
  | .other typeName text, out, _ =>
    ⟨[], .other typeName text, .scalar rfl (by simp), by simp [writeElem]⟩
  | .nilArray, _, h | .bytes _, _, h | .nilBytes, _, h | .null, _, h | .int64 _, _, h
  | .string _, _, h | .error _, _, h => by simp [GoValue.toResp?] at h

/-- The loop of `WriteArray` fails at the first element with no frame, after writing the
frames of the elements before it. -/
theorem writeElems_partial : ∀ {xs : List GoValue} (out : Bytes), GoValue.toRespList? xs = none →
    ∃ pre y post vs q x, xs = pre ++ y :: post ∧ GoValue.toRespList? pre = some vs ∧
      PartialFrame y q x ∧
      (writeElems xs).run out = .error (.new ("invalid array type " ++ x.describe)) (out ++ frames vs ++ q)
  | [], _, h => by simp [GoValue.toRespList?] at h
  | y :: ys, out, h => by
    cases hy : y.toResp? with
    | none =>
      -- the head fails: nothing before it
      obtain ⟨q, x, hq, hrun⟩ := writeElem_partial out hy
      refine ⟨[], y, ys, [], q, x, rfl, rfl, hq, ?_⟩
      simp [writeElems, EStateM.run_bind, hrun, frames]
    | some w =>
      -- the head is written whole and the failure is further on
      have hys : GoValue.toRespList? ys = none := by
        simpa [toRespList?_cons_of_some ys hy] using h
      obtain ⟨pre, z, post, vs, q, x, rfl, hpre, hz, hrun⟩ := writeElems_partial (out ++ frame w) hys
      refine ⟨y :: pre, z, post, w :: vs, q, x, rfl, by simp [toRespList?_cons_of_some pre hy, hpre], hz, ?_⟩
      simp [writeElems, EStateM.run_bind, writeElem_run out hy, hrun, frames]
end

theorem writeElem_array (xs : List GoValue) : writeElem (.array xs) = writeArray (some xs) := by
  rw [writeElem]

theorem writeArray_of_none {ay : List GoValue} (out : Bytes) (hay : GoValue.toRespList? ay = none) :
    ∃ p x, PartialFrame (.array ay) p x ∧
      (writeArray (some ay)).run out = .error (.new ("invalid array type " ++ x.describe)) (out ++ p) := by
  rw [← writeElem_array]
  exact writeElem_partial out (by simp [GoValue.toResp?, hay])

theorem writeArray_of_some {ay : List GoValue} {vs : List RespValue} (out : Bytes)
    (hay : GoValue.toRespList? ay = some vs) :
    (writeArray (some ay)).run out = .ok () (out ++ frame (.array vs)) := by
  rw [← writeElem_array]
  exact writeElem_run out (by simp [GoValue.toResp?, hay])

/-- `WriteArray` on a non-nil slice: when it fails, it has written a nonempty prefix of a
frame, the one `PartialFrame` describes, and names the scalar it stopped at; when it
succeeds, it has written the array's whole frame, which `Parse` consumes in full. -/
theorem writeArray_partial_frame (ay : List GoValue) (out : Bytes) :
    (∀ e out', (writeArray (some ay)).run out = .error e out' →
      ∃ p x, p ≠ [] ∧ PartialFrame (.array ay) p x ∧ out' = out ++ p ∧
        e = .new ("invalid array type " ++ x.describe)) ∧
    (∀ out', (writeArray (some ay)).run out = .ok () out' →
      ∃ vs, GoValue.toRespList? ay = some vs ∧ out' = out ++ frame (.array vs) ∧
        ∀ (r : Reader) (rest : Bytes), (RespValue.array vs).Fits r.size →
          parse.run (r.withInput (frame (.array vs) ++ rest)) =
            .ok (RespValue.array vs).reply (r.withInput rest)) := by
  -- whether the write fails is decided by whether every element has a frame
  cases hay : GoValue.toRespList? ay with
  | none =>
    obtain ⟨p, x, hp, hrun⟩ := writeArray_of_none out hay
    refine ⟨fun e out' h => ?_, fun out' h => ?_⟩
    · rw [hrun] at h
      cases h
      exact ⟨p, x, hp.array_ne_nil, hp, rfl, rfl⟩
    · rw [hrun] at h
      cases h
  | some vs =>
    have hrun := writeArray_of_some out hay
    refine ⟨fun e out' h => ?_, fun out' h => ?_⟩
    · rw [hrun] at h
      cases h
    · rw [hrun] at h
      cases h
      exact ⟨vs, rfl, rfl, fun r rest hv => parse_frame r rest hv⟩

theorem writeArray_partial_frame_nested :
    ∃ p x, p ≠ [] ∧ PartialFrame (.array [.string (ascii "a"), .array [.int 7]]) p x ∧
      ascii "*2\r\n+a\r\n*1\r\n" = [] ++ p ∧
      GoError.new "invalid array type int 7" = .new ("invalid array type " ++ x.describe) := by
  have hmsg : "invalid array type " ++ (GoValue.int 7).describe = "invalid array type int 7" := by
    decide
  have hbytes : [] ++ ascii "*" ++ lenText (0 + 1 + 1) ++ respTerm ++ frame (.simple (ascii "a")) ++
      ascii "*" ++ lenText (0 + 1) ++ respTerm = ascii "*2\r\n+a\r\n*1\r\n" := by
    decide
  have hrun : (writeArray (some [.string (ascii "a"), .array [.int 7]])).run [] =
      .error (.new "invalid array type int 7") (ascii "*2\r\n+a\r\n*1\r\n") := by
    simp only [writeArray, writeElems, writeElem, EStateM.run_bind, write_run,
      writeIntegerText_ofNat_run, writeTerm_run, writeString_run, List.length_cons, List.length_nil, hmsg]
    rw [hbytes]
    rfl
  exact (writeArray_partial_frame _ []).1 _ _ hrun

/-- `FlushArray([]interface{}{1})` sends `"*1\r\n"` and reports an error; the peer then
takes the next reply, here `"+OK\r\n"`, for the array's element. -/
theorem writeArray_int_partial :
    (writeArray (some [GoValue.int 1])).run [] = .error (.new "invalid array type int 1") (ascii "*1\r\n") ∧
      parse.run ((⟨4096, [], by decide⟩ : Reader).withInput (ascii "*1\r\n" ++ ascii "+OK\r\n")) =
        .ok (.array [.str (ascii "OK")]) ((⟨4096, [], by decide⟩ : Reader).withInput []) := by
  constructor
  · have hmsg : "invalid array type " ++ (GoValue.int 1).describe = "invalid array type int 1" := by
      decide
    have hheader : [] ++ ascii "*" ++ lenText 1 ++ respTerm = ascii "*1\r\n" := by decide
    simp only [writeArray, writeElems, writeElem, EStateM.run_bind, write_run, writeIntegerText_ofNat_run,
      writeTerm_run, List.length_singleton, hheader, hmsg]
    rfl
  · -- the next reply completes the frame the failed write began
    have hbytes : ascii "*1\r\n" ++ ascii "+OK\r\n" = frame (.array [.simple (ascii "OK")]) ++ [] := by
      decide
    rw [hbytes]
    exact parse_frame _ [] (by simp only [RespValue.Fits, RespValue.FitsAll]; decide)

end WeedgePkg.Resp
