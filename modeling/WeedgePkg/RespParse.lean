import WeedgePkg.RespFrames

/-!
# The RESP reader on frames

`parseAt_frame` is the reader half of the reply codec: on a frame followed by anything,
`Parse` returns the frame's value and leaves exactly what follows. It needs every line of
the frame to fit in the reader's buffer and its simple strings and errors to be free of
`'\n'`, which `RespValue.Fits` collects, and the lengths to be Go `int`s.
-/

namespace WeedgePkg.Resp
open Bufio Decimal

mutual
/-- Every line of the value's frame fits in a `size`-byte buffer, its simple strings and
errors hold no `'\n'`, and its lengths are Go `int`s. -/
def RespValue.Fits (size : ℕ) : RespValue → Prop
  | .bulk b => b.length < 2 ^ 63 ∧ (natText b.length).length + 3 ≤ size
  | .nullBulk => True
  | .int n => (intText n.toInt).length + 3 ≤ size
  | .simple s => 10 ∉ s ∧ s.length + 3 ≤ size
  | .err s => 10 ∉ s ∧ s.length + 3 ≤ size
  | .array vs => vs.length < 2 ^ 63 ∧ (natText vs.length).length + 3 ≤ size ∧ RespValue.FitsAll size vs
  | .nullArray => True

/-- `RespValue.Fits` for each element of an array. -/
def RespValue.FitsAll (size : ℕ) : List RespValue → Prop
  | [] => True
  | v :: vs => v.Fits size ∧ RespValue.FitsAll size vs
end

theorem respTerm_no_lf {l : Bytes} (hl : 10 ∉ l) : 10 ∉ l ++ [13] := by
  simp [hl]

/-- A line that fits in the buffer comes back without its `"\r\n"`. -/
theorem readLine_run (r : Reader) {l : Bytes} (rest : Bytes) (hl : 10 ∉ l)
    (hfit : l.length + 2 ≤ r.size) :
    readLine.run (r.withInput (l ++ (respTerm ++ rest))) = .ok l (r.withInput rest) := by
  have hsplit : l ++ (respTerm ++ rest) = (l ++ [13]) ++ 10 :: rest := by simp [respTerm]
  have hslice := readSlice_line r rest (respTerm_no_lf hl) (by simp; omega)
  simp only [EStateM.run] at hslice
  simp only [EStateM.run, readLine, hsplit, hslice]
  simp

/-- A line longer than the buffer fails with "long resp line" after `ReadSlice` has
consumed a buffer's worth of it. -/
theorem readLine_long_run (r : Reader) (hno : 10 ∉ r.input.take r.size) (hlen : r.size ≤ r.input.length) :
    readLine.run r = .error (.new "long resp line") (r.withInput (r.input.drop r.size)) := by
  have hslice := readSlice_long r hno hlen
  simp only [EStateM.run] at hslice
  simp only [EStateM.run, readLine, hslice]

theorem readLine_line_run (r : Reader) (c : UInt8) (text : Bytes) (rest : Bytes) (hc : c ≠ 10)
    (ht : 10 ∉ text) (hfit : text.length + 3 ≤ r.size) :
    readLine.run (r.withInput (line c text ++ rest)) = .ok (c :: text) (r.withInput rest) := by
  have h := readLine_run r rest (l := c :: text) (by simp [hc.symm, ht]) (by simp; omega)
  simpa [line] using h

theorem digitLoop_digits (n : Int64) {p : Bytes} (hp : ∀ b ∈ p, 48 ≤ b.toNat ∧ b.toNat ≤ 57) :
    digitLoop n p = some (p.foldl wrapStep n) := by
  induction p generalizing n with
  | nil => rfl
  | cons b p ih =>
    have hb := hp b (by simp)
    have hbad : ¬(b < 48 ∨ 57 < b) := by
      simp only [UInt8.lt_iff_toNat_lt, UInt8.toNat_ofNat]
      omega
    simp only [digitLoop, hbad, if_false, List.foldl_cons]
    exact ih _ fun b' hb' => hp b' (by simp [hb'])

theorem digitLoop_natText (n : ℕ) : digitLoop 0 (natText n) = some (Int64.ofNat n) := by
  rw [digitLoop_digits 0 fun b hb => mem_natText hb, foldl_wrapStep_zero, digitsValue_natText]

theorem ofNat_not_neg {n : ℕ} (h : n < 2 ^ 63) : ¬Int64.ofNat n < 0 := by
  rw [Int64.lt_iff_toInt_lt, Int64.toInt_ofNat_of_lt h, Int64.toInt_zero]
  omega

theorem parseLen_lenText {n : ℕ} (h : n < 2 ^ 63) : parseLen (lenText n) = .ok (Int64.ofNat n) := by
  have hne : natText n ≠ ascii "-1" := by
    intro heq
    have : (45 : UInt8) ∈ natText n := by rw [heq]; decide
    exact natText_no_byte (by decide) this
  simp [parseLen, lenText_of_lt h, natText_ne_nil, hne, digitLoop_natText]

/-- Any digit string is a length: its decimal value taken modulo `2 ^ 64`, as Go's `int`. -/
theorem parseLen_digits {p : Bytes} (hp : p ≠ []) (hd : ∀ b ∈ p, 48 ≤ b.toNat ∧ b.toNat ≤ 57) :
    parseLen p = .ok (Int64.ofNat (digitsValue p)) := by
  have hne : p ≠ ascii "-1" := by
    rintro rfl
    exact absurd (hd 45 (by decide)) (by decide)
  simp [parseLen, hp, hne, digitLoop_digits 0 hd, foldl_wrapStep_zero]

theorem forall_digits_of_all {p : Bytes} (h : p.all (fun b => 48 ≤ b.toNat && b.toNat ≤ 57) = true) :
    ∀ b ∈ p, 48 ≤ b.toNat ∧ b.toNat ≤ 57 := by
  intro b hb
  simpa using List.all_eq_true.mp h b hb

theorem parseLen_wraps_out_of_range :
    parseLen (ascii "18446744073709551617") = .ok 1 ∧
      parseLen (ascii "9223372036854775808") = .ok (-9223372036854775808) ∧
      parseInt (ascii "9223372036854775808") = .ok (-9223372036854775808) ∧
      parse.run ((⟨4096, [], by decide⟩ : Reader).withInput (ascii "$9223372036854775808\r\n")) =
        .ok .null ((⟨4096, [], by decide⟩ : Reader).withInput []) ∧
      parse.run ((⟨4096, [], by decide⟩ : Reader).withInput (ascii "$18446744073709551617\r\nx\r\n")) =
        .ok (.bulk (ascii "x")) ((⟨4096, [], by decide⟩ : Reader).withInput []) := by
  -- both lengths are their decimal values modulo `2 ^ 64`
  refine ⟨?_, ?_, by decide, rfl, rfl⟩
  all_goals
    rw [parseLen_digits (by decide) (forall_digits_of_all (by decide))]
    decide

theorem parseInt_intText (n : Int64) : parseInt (intText n.toInt) = .ok n := by
  by_cases hn : n.toInt < 0
  · obtain ⟨q, hq⟩ : ∃ q, natText n.toInt.natAbs = q ∧ q ≠ [] := ⟨_, rfl, natText_ne_nil _⟩
    rw [intText_neg hn]
    have hval : -Int64.ofNat n.toInt.natAbs = n := by
      rw [Int64.neg_ofNat, Int.natCast_natAbs, abs_of_neg hn, neg_neg, Int64.ofInt_toInt]
    simp [parseInt, natText_ne_nil, digitLoop_natText, hval]
  · rw [intText_nonneg (by omega)]
    obtain ⟨b, q, hbq⟩ : ∃ b q, natText n.toInt.toNat = b :: q := by
      cases h : natText n.toInt.toNat with
      | nil => exact absurd h (natText_ne_nil _)
      | cons b q => exact ⟨b, q, rfl⟩
    have hb : b ≠ 45 := by
      intro hb
      exact natText_no_byte (n := n.toInt.toNat) (c := 45) (by decide) (by rw [hbq, hb]; simp)
    have hval : Int64.ofNat n.toNatClampNeg = n := by
      rw [Int64.toNatClampNeg, ← Int64.ofInt_eq_ofNat, Int.toNat_of_nonneg (by omega),
        Int64.ofInt_toInt]
    have hloop := digitLoop_natText n.toInt.toNat
    rw [hbq] at hloop ⊢
    simp [parseInt, hb, hloop, hval]

theorem map_run_ok {α β : Type} (f : α → β) {x : ReadM α} {s s' : Reader} {a : α}
    (h : x.run s = .ok a s') : (f <$> x).run s = .ok (f a) s' := by
  simp only [EStateM.run] at h ⊢
  simp only [Functor.map, EStateM.map, h]

@[simp] theorem ofExcept_ok_run {α : Type} (a : α) (s : Reader) :
    (ofExcept (.ok a)).run s = .ok a s := rfl

theorem lenText_no_lf (n : ℕ) (h : n < 2 ^ 63) : 10 ∉ lenText n := by
  rw [lenText_of_lt h]
  exact natText_no_byte (by decide)

theorem bulkPayload_run (r : Reader) {b : Bytes} (rest : Bytes) (h : b.length < 2 ^ 63) :
    (bulkPayload (Int64.ofNat b.length)).run (r.withInput (b ++ (respTerm ++ rest))) =
      .ok (some b) (r.withInput rest) := by
  have hline := readLine_run r rest (l := []) (by simp) (by have := r.size_ge; simp; omega)
  simp only [List.nil_append] at hline
  simp [bulkPayload, ofNat_not_neg h, Int64.toNatClampNeg_ofNat_of_lt h, EStateM.run_bind,
    readFull_append, hline]

/-- The line of a null bulk string or a null array. -/
theorem readLine_null_run (r : Reader) (c : UInt8) (rest : Bytes) (hc : c ≠ 10) :
    readLine.run (r.withInput (line c nullBulk ++ rest)) = .ok (c :: nullBulk) (r.withInput rest) :=
  readLine_line_run r c nullBulk rest hc (by decide)
    (by have := r.size_ge; simp [nullBulk, ascii]; omega)

theorem readLine_header_run (r : Reader) (c : UInt8) {n : ℕ} (rest : Bytes) (hc : c ≠ 10)
    (h : n < 2 ^ 63) (hfit : (natText n).length + 3 ≤ r.size) :
    readLine.run (r.withInput (line c (lenText n) ++ rest)) = .ok (c :: lenText n) (r.withInput rest) :=
  readLine_line_run r c (lenText n) rest hc (lenText_no_lf n h) (by rw [lenText_of_lt h]; exact hfit)

mutual
/-- On a frame followed by anything, `Parse` returns the frame's value and leaves exactly
what follows, once its depth bound exceeds the frame's length. -/
theorem parseAt_frame : ∀ {v : RespValue} (r : Reader) (rest : Bytes) {d : ℕ},
    v.Fits r.size → (frame v).length < d →
      (parseAt d).run (r.withInput (frame v ++ rest)) = .ok v.reply (r.withInput rest)
  | _, _, _, 0, _, hd => absurd hd (Nat.not_lt_zero _)
  | .bulk b, r, rest, d + 1, ⟨hlen, hfit⟩, _ => by
    have hline := readLine_header_run r 36 (b ++ (respTerm ++ rest)) (by decide) hlen hfit
    simp only [parseAt, frame, List.append_assoc, EStateM.run_bind, hline]
    simp +decide [parseLen_lenText hlen, bulkPayload_run r rest hlen, RespValue.reply]
  | .nullBulk, r, rest, d + 1, _, _ => by
    have hline := readLine_null_run r 36 rest (by decide)
    simp only [parseAt, frame, EStateM.run_bind, hline]
    simp +decide [parseLen, bulkPayload, RespValue.reply]
  | .int n, r, rest, d + 1, hfit, _ => by
    have hline := readLine_line_run r 58 (intText n.toInt) rest (by decide)
      (by
        intro h
        unfold intText at h
        split at h
        · simp only [List.mem_cons] at h
          rcases h with h | h
          · exact absurd h (by decide)
          · exact natText_no_byte (by decide) h
        · exact natText_no_byte (by decide) h) hfit
    simp only [parseAt, frame, EStateM.run_bind, hline]
    simp +decide only [↓reduceIte, parseInt_intText, RespValue.reply]
    exact map_run_ok _ (ofExcept_ok_run n _)
  | .simple s, r, rest, d + 1, ⟨hs, hfit⟩, _ => by
    have hline := readLine_line_run r 43 s rest (by decide) hs hfit
    simp only [parseAt, frame, EStateM.run_bind, hline]
    simp +decide only [↓reduceIte, RespValue.reply]
    -- the fast paths return the same text as the general one
    split
    · rename_i h
      have h' : 43 :: s = 43 :: ascii "OK" := h
      rw [(List.cons.inj h').2]
      rfl
    · split
      · rename_i h
        have h' : 43 :: s = 43 :: ascii "PONG" := h
        rw [(List.cons.inj h').2]
        rfl
      · rfl
  | .err s, r, rest, d + 1, ⟨hs, hfit⟩, _ => by
    have hline := readLine_line_run r 45 s rest (by decide) hs hfit
    simp only [parseAt, frame, EStateM.run_bind, hline]
    simp +decide [RespValue.reply]
  | .array vs, r, rest, d + 1, ⟨hlen, hfit, hvs⟩, hd => by
    have hline := readLine_header_run r 42 (frames vs ++ rest) (by decide) hlen hfit
    have hitems := readTimes_frames r rest hvs (d := d) (by simp [frame, line] at hd; omega)
    simp only [parseAt, frame, List.append_assoc, EStateM.run_bind, hline]
    simp +decide only [↓reduceIte, EStateM.run_bind, parseLen_lenText hlen, ofExcept_ok_run,
      ofNat_not_neg hlen, Int64.toNatClampNeg_ofNat_of_lt hlen, hitems, EStateM.run_pure, RespValue.reply]
  | .nullArray, r, rest, d + 1, _, _ => by
    have hline := readLine_null_run r 42 rest (by decide)
    simp only [parseAt, frame, EStateM.run_bind, hline]
    simp +decide [parseLen, RespValue.reply]

/-- The elements of an array, each parsed from its frame in turn. -/
theorem readTimes_frames : ∀ {vs : List RespValue} (r : Reader) (rest : Bytes) {d : ℕ},
    RespValue.FitsAll r.size vs → (frames vs).length < d →
      (readTimes (parseAt d) vs.length).run (r.withInput (frames vs ++ rest)) =
        .ok (RespValue.replies vs) (r.withInput rest)
  | [], r, rest, d, _, _ => rfl
  | v :: vs, r, rest, d, ⟨hv, hvs⟩, hd => by
    have hlen : (frame v).length + (frames vs).length < d := by simpa [frames] using hd
    have hhead := parseAt_frame r (frames vs ++ rest) (d := d) hv (by omega)
    have htail := readTimes_frames r rest (d := d) hvs (by omega)
    simp only [readTimes, frames, List.length_cons, List.append_assoc, EStateM.run_bind, hhead, htail]
    rfl
end

end WeedgePkg.Resp
