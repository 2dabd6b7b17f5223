import WeedgePkg.Lz77
import WeedgePkg.RdbStringCodec

/-!
# LZF strings

An LZF block is a sequence of tokens. A literal run is its length less one, below 32, and
its bytes. A back-reference copies `length + 2` bytes from `dist + 1` places back: its
control byte holds `length` in the top three bits, or `7` and an extra byte for longer
copies, and the high five bits of `dist`, whose low byte follows. `lzfDecompress` on the
bytes of valid tokens writes exactly what the tokens mean, and so does `ReadString` on an
`RDBEncLZF` string.
-/

namespace WeedgePkg.Rdb
open Decimal Lz77

inductive LzfToken where
  | literal (run : Bytes) (hrun : 0 < run.length ∧ run.length ≤ 32)
  | backref (length dist : ℕ) (hlength : 0 < length ∧ length ≤ 262) (hdist : dist < 8192)

namespace LzfToken

/-- The bytes of a token. -/
def encode : LzfToken → Bytes
  | literal run _ => UInt8.ofNat (run.length - 1) :: run
  | backref length dist _ _ =>
    if length < 7 then [UInt8.ofNat (length * 32 + dist / 256), UInt8.ofNat (dist % 256)]
    else [UInt8.ofNat (7 * 32 + dist / 256), UInt8.ofNat (length - 7), UInt8.ofNat (dist % 256)]

/-- The output after a token. -/
def expand (out : Bytes) : LzfToken → Bytes
  | literal run _ => out ++ run
  | backref length dist _ _ => copyBack (dist + 1) 0 out (length + 2)

/-- How many bytes a token writes. -/
def size : LzfToken → ℕ
  | literal run _ => run.length
  | backref length _ _ _ => length + 2

/-- A back-reference reaches no further back than the output written so far. -/
def Fits (out : Bytes) : LzfToken → Prop
  | literal _ _ => True
  | backref _ dist _ _ => dist + 1 ≤ out.length

instance decFits (out : Bytes) : (tok : LzfToken) → Decidable (tok.Fits out)
  | literal _ _ => isTrue trivial
  | backref _ dist _ _ => inferInstanceAs (Decidable (dist + 1 ≤ out.length))

@[simp] theorem expand_length (out : Bytes) (tok : LzfToken) : (tok.expand out).length = out.length + tok.size := by
  cases tok <;> simp [expand, size]

end LzfToken

/-- A token sequence whose every back-reference fits the output before it. -/
def LzfValid : Bytes → List LzfToken → Prop
  | _, [] => True
  | out, tok :: T => tok.Fits out ∧ LzfValid (tok.expand out) T

instance decLzfValid : (out : Bytes) → (T : List LzfToken) → Decidable (LzfValid out T)
  | _, [] => isTrue trivial
  | out, tok :: T =>
    have := decLzfValid (tok.expand out) T
    inferInstanceAs (Decidable (_ ∧ _))

/-- What a token sequence means. -/
def lzfOut (T : List LzfToken) : Bytes := T.foldl (fun out tok => tok.expand out) []

/-! ## The decoder on a buffer written so far -/

/-- A control byte: `hi` in the top three bits, `lo` in the low five. -/
theorem ctrlByte {hi lo : ℕ} (hhi : hi < 8) (hlo : lo < 32) :
    (UInt8.ofNat (hi * 32 + lo)).toNat = hi * 32 + lo ∧ (UInt8.ofNat (hi * 32 + lo) >>> 5).toNat = hi ∧
      (UInt8.ofNat (hi * 32 + lo) &&& 0x1f).toNat = lo := by
  have hc : (UInt8.ofNat (hi * 32 + lo)).toNat = hi * 32 + lo := byte_toNat (by omega)
  refine ⟨hc, ?_, ?_⟩
  · rw [UInt8.toNat_shiftRight, hc, Nat.shiftRight_eq_div_pow]
    simp only [UInt8.reduceToNat, Nat.reduceMod, Nat.reducePow]
    omega
  · rw [UInt8.toNat_and, hc]
    simp only [UInt8.reduceToNat]
    rw [show (31 : ℕ) = 2 ^ 5 - 1 from rfl, Nat.and_two_pow_sub_one_eq_mod]
    omega

theorem lzfCopy_written (dist : ℕ) (hdist : 0 < dist) :
    ∀ (count : ℕ) (out : Bytes) (rest : ℕ), dist ≤ out.length →
      lzfCopy count ((out.length : ℤ) - dist) out.length (out ++ List.replicate (count + rest) 0) =
        .ok (copyBack dist 0 out count ++ List.replicate rest 0, out.length + count)
  | 0, out, rest, _ => by simp [lzfCopy]
  | count + 1, out, rest, hout => by
    -- each turn reads a written byte and writes the next one
    have hread : (out ++ List.replicate (count + 1 + rest) 0).getD (((out.length : ℤ) - dist).toNat) 0 =
        out.getD (out.length - dist) 0 := by
      rw [getD_written _ _ _ (by omega)]
      congr 1
      omega
    have hwrite := set_written out 0 (out.getD (out.length - dist) 0) (count + rest)
    rw [show count + 1 + rest = count + rest + 1 by omega] at hread ⊢
    have hnext := lzfCopy_written dist hdist count (out ++ [out.getD (out.length - dist) 0]) rest
      (by simp; omega)
    simp only [List.length_append, List.length_singleton, Nat.cast_add, Nat.cast_one] at hnext
    rw [lzfCopy, if_pos (by simp; omega), hread, hwrite, copyBack_succ]
    rw [show (out.length : ℤ) - dist + 1 = (out.length : ℤ) + 1 - dist by omega, hnext]
    congr 2
    omega

theorem lzfLoop_cons (mode : LzfMode) (out : Bytes) (o : ℕ) (c : UInt8) (rest : Bytes) :
    lzfLoop mode out o (c :: rest) =
      match lzfStep mode out o c with
      | .ok (mode', out', o') => lzfLoop mode' out' o' rest
      | .error e => .error e := by
  cases mode <;> rfl

/-- A byte of a literal run is written at the first unwritten place. -/
theorem lzfStep_literal (k : ℕ) (out : Bytes) (rest : ℕ) (b : UInt8) :
    lzfStep (.literal (k + 1)) (out ++ List.replicate (rest + 1) 0) out.length b =
      .ok (if k = 0 then .control else .literal k, (out ++ [b]) ++ List.replicate rest 0, out.length + 1) := by
  have hroom : out.length < (out ++ List.replicate (rest + 1) 0).length := by simp
  rw [lzfStep, if_pos hroom, set_written]
  simp only [Nat.add_eq_right, Nat.add_sub_cancel]

theorem lzfLoop_literal : ∀ (run out : Bytes) (rest : ℕ) (inp : Bytes), run ≠ [] →
    lzfLoop (.literal run.length) (out ++ List.replicate (run.length + rest) 0) out.length (run ++ inp) =
      lzfLoop .control ((out ++ run) ++ List.replicate rest 0) (out ++ run).length inp
  | [], _, _, _, h => absurd rfl h
  | [b], out, rest, inp, _ => by
    rw [List.length_singleton, Nat.add_comm 1 rest, List.singleton_append, lzfLoop_cons, lzfStep_literal]
    simp
  | b :: b' :: run, out, rest, inp, _ => by
    -- one byte written, the rest of the run still to come
    have hnext := lzfLoop_literal (b' :: run) (out ++ [b]) rest inp (List.cons_ne_nil _ _)
    have hlen : (b :: b' :: run).length + rest = ((b' :: run).length + rest) + 1 := by
      simp only [List.length_cons]
      omega
    rw [hlen, show (b :: b' :: run).length = (b' :: run).length + 1 from rfl, List.cons_append, lzfLoop_cons,
      lzfStep_literal]
    simp only [List.length_cons, Nat.add_one_ne_zero, if_false] at hnext ⊢
    rw [List.length_append, List.length_singleton] at hnext
    rw [hnext]
    simp

/-- One token: the decoder, at a control byte with the token's bytes ahead, writes what the
token means and is at a control byte again. -/
theorem lzfLoop_token (tok : LzfToken) (out : Bytes) (rest : ℕ) (inp : Bytes) (hfit : tok.Fits out) :
    lzfLoop .control (out ++ List.replicate (tok.size + rest) 0) out.length (tok.encode ++ inp) =
      lzfLoop .control (tok.expand out ++ List.replicate rest 0) (tok.expand out).length inp := by
  cases tok with
  | literal run hrun =>
    have hc : (UInt8.ofNat (run.length - 1)).toNat = run.length - 1 := byte_toNat (by omega)
    have hlt : UInt8.ofNat (run.length - 1) < 32 := by
      rw [UInt8.lt_iff_toNat_lt, hc]
      simp only [UInt8.reduceToNat]
      omega
    rw [LzfToken.encode, List.cons_append, lzfLoop_cons, lzfStep, if_pos hlt]
    dsimp only
    rw [hc, Nat.sub_add_cancel hrun.1, LzfToken.size, LzfToken.expand]
    exact lzfLoop_literal run out rest inp (List.ne_nil_of_length_pos hrun.1)
  | backref length dist hlength hdist =>
    simp only [LzfToken.Fits] at hfit
    have hcopy := lzfCopy_written (dist + 1) (by omega) (length + 2) out rest hfit
    have hlow : (UInt8.ofNat (dist % 256)).toNat = dist % 256 := byte_toNat (by omega)
    -- the offset byte: `ref` is `dist + 1` places back
    have hoffset : ∀ ctrl : UInt8, (ctrl &&& 0x1f).toNat = dist / 256 →
        lzfStep (.offset ctrl length) (out ++ List.replicate (length + 2 + rest) 0) out.length
          (UInt8.ofNat (dist % 256)) = .ok (.control, copyBack (dist + 1) 0 out (length + 2) ++ List.replicate rest 0,
            out.length + (length + 2)) := by
      intro ctrl hctrl
      have href : (out.length : ℤ) - ((ctrl &&& 0x1f).toNat <<< 8 : ℕ) - (UInt8.ofNat (dist % 256)).toNat - 1 =
          (out.length : ℤ) - (dist + 1 : ℕ) := by
        rw [hctrl, hlow, Nat.shiftLeft_eq]
        omega
      simp only [lzfStep, href, hcopy]
    have hdone : lzfLoop .control (copyBack (dist + 1) 0 out (length + 2) ++ List.replicate rest 0)
        (out.length + (length + 2)) inp =
        lzfLoop .control ((LzfToken.backref length dist hlength hdist).expand out ++ List.replicate rest 0)
          ((LzfToken.backref length dist hlength hdist).expand out).length inp := by
      simp [LzfToken.expand]
    by_cases hshort : length < 7
    · obtain ⟨hc, hhi, hlo⟩ := @ctrlByte length (dist / 256) (by omega) (by omega)
      have hctrl : lzfStep .control (out ++ List.replicate (length + 2 + rest) 0) out.length
          (UInt8.ofNat (length * 32 + dist / 256)) =
          .ok (.offset (UInt8.ofNat (length * 32 + dist / 256)) length,
            out ++ List.replicate (length + 2 + rest) 0, out.length) := by
        have hnlt : ¬UInt8.ofNat (length * 32 + dist / 256) < 32 := by
          rw [UInt8.lt_iff_toNat_lt, hc]
          simp only [UInt8.reduceToNat]
          omega
        have hne7 : ¬UInt8.ofNat (length * 32 + dist / 256) >>> 5 = 7 := by
          intro h
          have := congrArg UInt8.toNat h
          rw [hhi] at this
          simp only [UInt8.reduceToNat] at this
          omega
        simp only [lzfStep, hnlt, hne7, if_false, hhi]
      simp only [LzfToken.encode, hshort, if_true, List.cons_append, List.nil_append, LzfToken.size]
      rw [lzfLoop_cons, hctrl]
      dsimp only
      rw [lzfLoop_cons, hoffset _ hlo]
      exact hdone
    · obtain ⟨hc, hhi, hlo⟩ := @ctrlByte 7 (dist / 256) (by omega) (by omega)
      have hctrl : lzfStep .control (out ++ List.replicate (length + 2 + rest) 0) out.length
          (UInt8.ofNat (7 * 32 + dist / 256)) =
          .ok (.extLength (UInt8.ofNat (7 * 32 + dist / 256)), out ++ List.replicate (length + 2 + rest) 0,
            out.length) := by
        have hnlt : ¬UInt8.ofNat (7 * 32 + dist / 256) < 32 := by
          rw [UInt8.lt_iff_toNat_lt, hc]
          simp only [UInt8.reduceToNat]
          omega
        have heq7 : UInt8.ofNat (7 * 32 + dist / 256) >>> 5 = 7 := UInt8.toNat_inj.mp (by rw [hhi]; rfl)
        simp only [lzfStep, hnlt, heq7, if_false, if_true]
      -- the extra length byte
      have hext : lzfStep (.extLength (UInt8.ofNat (7 * 32 + dist / 256)))
          (out ++ List.replicate (length + 2 + rest) 0) out.length (UInt8.ofNat (length - 7)) =
          .ok (.offset (UInt8.ofNat (7 * 32 + dist / 256)) length, out ++ List.replicate (length + 2 + rest) 0,
            out.length) := by
        have hlen : 7 + (UInt8.ofNat (length - 7)).toNat = length := by
          rw [byte_toNat (by omega)]
          omega
        simp only [lzfStep, hlen]
      simp only [LzfToken.encode, hshort, if_false, List.cons_append, List.nil_append, LzfToken.size]
      rw [lzfLoop_cons, hctrl]
      dsimp only
      rw [lzfLoop_cons, hext]
      dsimp only
      rw [lzfLoop_cons, hoffset _ hlo]
      exact hdone

/-- The decoder over the bytes of a valid token sequence, from any output written so far. -/
theorem lzfLoop_tokens : ∀ (T : List LzfToken) (out : Bytes), LzfValid out T →
    lzfLoop .control (out ++ List.replicate (T.map LzfToken.size).sum 0) out.length (T.flatMap LzfToken.encode) =
      .ok (T.foldl (fun out tok => tok.expand out) out)
  | [], out, _ => by simp [lzfLoop]
  | tok :: T, out, ⟨hfit, hvalid⟩ => by
    rw [List.map_cons, List.sum_cons, List.flatMap_cons, lzfLoop_token tok out _ _ hfit, List.foldl_cons]
    exact lzfLoop_tokens T (tok.expand out) hvalid

theorem lzfOut_length (T : List LzfToken) : (lzfOut T).length = (T.map LzfToken.size).sum := by
  suffices h : ∀ out : Bytes, (T.foldl (fun out tok => tok.expand out) out).length =
      out.length + (T.map LzfToken.size).sum by
    simpa [lzfOut] using h []
  induction T with
  | nil => simp
  | cons tok T ih =>
    intro out
    rw [List.foldl_cons, ih, LzfToken.expand_length, List.map_cons, List.sum_cons]
    omega

theorem lzfDecompress_tokens (T : List LzfToken) (hT : LzfValid [] T) :
    lzfDecompress (T.flatMap LzfToken.encode) (lzfOut T).length = .ok (lzfOut T) := by
  have h := lzfLoop_tokens T [] hT
  rw [List.nil_append, List.length_nil] at h
  rw [lzfDecompress, if_neg (by omega), Int.toNat_natCast, lzfOut_length, h]
  rfl

/-! ## `ReadString` on an LZF string -/

/-- The marker of an LZF string, `RDBEncLZF` as a special length. -/
theorem readEncodedLength_lzf (rest : Bytes) : readEncodedLength.run (0xC3 :: rest) = .ok (3, true, none) rest :=
  readEncodedLength_special 3 (by decide) rest

theorem readString_lzf (T : List LzfToken) (hT : LzfValid [] T) (encIn encOut : Bytes) (inLen outLen : UInt64)
    (hin : ∀ r, readLength.run (encIn ++ r) = .ok inLen r) (hout : ∀ r, readLength.run (encOut ++ r) = .ok outLen r)
    (hinLen : goInt inLen = (T.flatMap LzfToken.encode).length) (houtLen : goInt outLen = (lzfOut T).length)
    (rest : Bytes) :
    readString.run (0xC3 :: encIn ++ encOut ++ T.flatMap LzfToken.encode ++ rest) = .ok (lzfOut T) rest := by
  have hbytes := readBytes_run (T.flatMap LzfToken.encode) rest hinLen
  simp only [List.cons_append, List.append_assoc]
  unfold readString
  rw [EStateM.run_bind, readEncodedLength_lzf]
  simp only [if_true, show ¬(3 : UInt64) = 0 from by decide, show ¬(3 : UInt64) = 1 from by decide,
    show ¬(3 : UInt64) = 2 from by decide, if_false, EStateM.run_bind, hin, hout, hbytes, houtLen,
    lzfDecompress_tokens T hT]
  rfl

theorem lzfDecompress_readString_tokens (T : List LzfToken) (hT : LzfValid [] T) (encIn encOut : Bytes)
    (inLen outLen : UInt64) (hin : ∀ r, readLength.run (encIn ++ r) = .ok inLen r)
    (hout : ∀ r, readLength.run (encOut ++ r) = .ok outLen r)
    (hinLen : goInt inLen = (T.flatMap LzfToken.encode).length) (houtLen : goInt outLen = (lzfOut T).length)
    (rest : Bytes) :
    lzfDecompress (T.flatMap LzfToken.encode) (lzfOut T).length = .ok (lzfOut T) ∧
      readString.run (0xC3 :: encIn ++ encOut ++ T.flatMap LzfToken.encode ++ rest) = .ok (lzfOut T) rest :=
  ⟨lzfDecompress_tokens T hT, readString_lzf T hT encIn encOut inLen outLen hin hout hinLen houtLen rest⟩

/-- `"ab"` as a literal run, then three bytes copied from two back: `"ababa"`, read from the
string `C3 05 05 01 61 62 20 01`. -/
theorem lzfDecompress_readString_ababa :
    lzfDecompress ([LzfToken.literal [97, 98] (by decide), .backref 1 1 (by decide) (by decide)].flatMap
        LzfToken.encode) 5 = .ok [97, 98, 97, 98, 97] ∧
      readString.run (0xC3 :: [5] ++ [5] ++ [LzfToken.literal [97, 98] (by decide),
        .backref 1 1 (by decide) (by decide)].flatMap LzfToken.encode ++ []) = .ok [97, 98, 97, 98, 97] [] :=
  lzfDecompress_readString_tokens [LzfToken.literal [97, 98] (by decide), .backref 1 1 (by decide) (by decide)]
    (by decide) [5] [5] 5 5 (fun r => readLength_encodeLength 5 r) (fun r => readLength_encodeLength 5 r)
    (by decide) (by decide) []

end WeedgePkg.Rdb
