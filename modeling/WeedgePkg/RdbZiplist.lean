import WeedgePkg.RdbListpack

/-!
# Ziplists as Redis writes them

A ziplist is its size in bytes, the offset of its last entry, its number of entries
(`65535` once there are that many) and the entries, then `0xFF`. An entry is the length of the
entry before it (one byte below `254`, else `0xFE` and four bytes), then a string or an
integer encoding. `ReadZipList` decodes every entry Redis writes. Below the count `65535` it
returns them all; at that count it reads entries until a first byte `0xFE`, which a list of
short entries never has, and then reads zeros for ever.
-/

namespace WeedgePkg.Rdb
open Decimal

/-- An entry in one of the encodings Redis's `zipStoreEntryEncoding` writes, with the range
of its payload. -/
inductive ZlElement where
  | str6 (s : Bytes) (hs : s.length < 2 ^ 6)
  | str14 (s : Bytes) (hs : s.length < 2 ^ 14)
  | str32 (s : Bytes) (hs : s.length < 2 ^ 32)
  | int8 (v : ℤ) (hv : -2 ^ 7 ≤ v ∧ v < 2 ^ 7)
  | int16 (v : ℤ) (hv : -2 ^ 15 ≤ v ∧ v < 2 ^ 15)
  | int24 (v : ℤ) (hv : -2 ^ 23 ≤ v ∧ v < 2 ^ 23)
  | int32 (v : ℤ) (hv : -2 ^ 31 ≤ v ∧ v < 2 ^ 31)
  | int64 (v : ℤ) (hv : -2 ^ 63 ≤ v ∧ v < 2 ^ 63)
  | imm (v : ℕ) (hv : v ≤ 12)

namespace ZlElement

/-- The encoding and the payload of an entry. -/
def encoding : ZlElement → Bytes
  | str6 s _ => UInt8.ofNat s.length :: s
  | str14 s _ => UInt8.ofNat (0x40 + s.length / 256) :: UInt8.ofNat (s.length % 256) :: s
  | str32 s _ => 0x80 :: (putUint32BE (UInt32.ofNat s.length) ++ s)
  | int8 v _ => [0xFE, UInt8.ofNat (fieldOf 8 v)]
  | int16 v _ => 0xC0 :: leBytes 2 (fieldOf 16 v)
  | int24 v _ => 0xF0 :: leBytes 3 (fieldOf 24 v)
  | int32 v _ => 0xD0 :: leBytes 4 (fieldOf 32 v)
  | int64 v _ => 0xE0 :: leBytes 8 (fieldOf 64 v)
  | imm v _ => [UInt8.ofNat (0xF1 + v)]

/-- The string `ReadZipList` should return for an entry. -/
def text : ZlElement → Bytes
  | str6 s _ | str14 s _ | str32 s _ => s
  | int8 v _ | int16 v _ | int24 v _ | int32 v _ | int64 v _ => intText v
  | imm v _ => intText v

end ZlElement

/-- `zipStorePrevEntryLength`: one byte below `254`, else `0xFE` and four little-endian bytes. -/
def prevlenBytes (p : ℕ) : Bytes :=
  if p < 254 then [UInt8.ofNat p] else 0xFE :: leBytes 4 p

/-- The entries of a ziplist, each headed by the length of the one before it. -/
def zipEntries (prev : ℕ) : List ZlElement → Bytes
  | [] => []
  | e :: es => prevlenBytes prev ++ e.encoding ++ zipEntries (prevlenBytes prev ++ e.encoding).length es

/-- A ziplist of entries; the decoder never reads its size and tail offset. -/
def zipListBytes (zlbytes zltail : ℕ) (es : List ZlElement) : Bytes :=
  leBytes 4 zlbytes ++ leBytes 4 zltail ++ leBytes 2 (min es.length 65535) ++ zipEntries 0 es ++ [0xFF]

/-! ## Signed payloads -/

/-- A `w`-bit two's complement field read back as a signed `w`-bit value. -/
theorem toInt_ofNat_fieldOf {w : ℕ} (hw : 0 < w) {v : ℤ} (hv : -2 ^ (w - 1) ≤ v ∧ v < 2 ^ (w - 1)) :
    (BitVec.ofNat w (fieldOf w v)).toInt = v := by
  have hM := two_pow_pred hw
  have hf : ((fieldOf w v : ℕ) : ℤ) = v % ((2 ^ w : ℕ) : ℤ) := by
    rw [fieldOf, Int.toNat_of_nonneg (Int.emod_nonneg _ (by positivity))]
    push_cast
    rfl
  have hv' : -((2 ^ (w - 1) : ℕ) : ℤ) ≤ v ∧ v < ((2 ^ (w - 1) : ℕ) : ℤ) := by push_cast; exact hv
  rw [BitVec.toInt_ofNat', hf]
  have hb := Int.emod_bmod v (2 ^ w)
  push_cast at hb ⊢
  rw [hb, Int.bmod_eq_of_le] <;> push_cast [hM] <;> omega

theorem readInt8_fieldOf {v : ℤ} (hv : -2 ^ 7 ≤ v ∧ v < 2 ^ 7) (rest : Bytes) :
    (do let v ← readInt8; pure (intText v.toInt) : RdbM Bytes).run (UInt8.ofNat (fieldOf 8 v) :: rest) =
      .ok (intText v) rest := by
  rw [EStateM.run_bind, readInt8, EStateM.run_bind, readByte_run]
  show EStateM.Result.ok (intText (BitVec.ofNat 8 (fieldOf 8 v)).toInt) rest = _
  rw [toInt_ofNat_fieldOf (w := 8) (by omega) hv]

theorem readInt16_fieldOf {v : ℤ} (hv : -2 ^ 15 ≤ v ∧ v < 2 ^ 15) (rest : Bytes) :
    (do let v ← readInt16; pure (intText v.toInt) : RdbM Bytes).run (leBytes 2 (fieldOf 16 v) ++ rest) =
      .ok (intText v) rest := by
  rw [EStateM.run_bind, readInt16, EStateM.run_bind, @readBytes_leBytes 2 2 _ rfl rest]
  show EStateM.Result.ok (intText (BitVec.ofNat 16 (leValue (leBytes 2 (fieldOf 16 v)))).toInt) rest = _
  rw [leValue_leBytes, Nat.mod_eq_of_lt (by simpa using fieldOf_lt (w := 16) (by omega) hv),
    toInt_ofNat_fieldOf (w := 16) (by omega) hv]

theorem readInt32_fieldOf {v : ℤ} (hv : -2 ^ 31 ≤ v ∧ v < 2 ^ 31) (rest : Bytes) :
    (do let v ← readInt32; pure (intText v.toInt) : RdbM Bytes).run (leBytes 4 (fieldOf 32 v) ++ rest) =
      .ok (intText v) rest := by
  rw [EStateM.run_bind, readInt32, EStateM.run_bind, @readBytes_leBytes 4 4 _ rfl rest]
  show EStateM.Result.ok (intText (BitVec.ofNat 32 (leValue (leBytes 4 (fieldOf 32 v)))).toInt) rest = _
  rw [leValue_leBytes, Nat.mod_eq_of_lt (by simpa using fieldOf_lt (w := 32) (by omega) hv),
    toInt_ofNat_fieldOf (w := 32) (by omega) hv]

theorem readInt64_fieldOf {v : ℤ} (hv : -2 ^ 63 ≤ v ∧ v < 2 ^ 63) (rest : Bytes) :
    (do let v ← readInt64; pure (intText v.toInt) : RdbM Bytes).run (leBytes 8 (fieldOf 64 v) ++ rest) =
      .ok (intText v) rest := by
  rw [EStateM.run_bind, readInt64, EStateM.run_bind, @readBytes_leBytes 8 8 _ rfl rest]
  show EStateM.Result.ok (intText (BitVec.ofNat 64 (leValue (leBytes 8 (fieldOf 64 v)))).toInt) rest = _
  rw [leValue_leBytes, Nat.mod_eq_of_lt (by simpa using fieldOf_lt (w := 64) (by omega) hv),
    toInt_ofNat_fieldOf (w := 64) (by omega) hv]

/-- `ReadInt24` puts the three bytes above a zero byte and shifts the `int32` back down, which
extends the sign of the 24-bit field. -/
theorem readInt24_fieldOf {v : ℤ} (hv : -2 ^ 23 ≤ v ∧ v < 2 ^ 23) (rest : Bytes) :
    (do let v ← readInt24; pure (intText v.toInt) : RdbM Bytes).run (leBytes 3 (fieldOf 24 v) ++ rest) =
      .ok (intText v) rest := by
  have hf := fieldOf_lt (w := 24) (by omega) hv
  have hspec := fieldOf_spec (w := 24) (by omega) (v := v) (by push_cast; omega)
  -- the 32-bit word holds `256 * v`, whichever the sign
  have hword : (BitVec.ofNat 32 (leValue (0 :: leBytes 3 (fieldOf 24 v)))).toInt = 256 * v := by
    rw [leValue_cons, leValue_leBytes, Nat.mod_eq_of_lt (by simpa using hf), BitVec.toInt_ofNat']
    have hcast : (((0 : UInt8).toNat + 256 * fieldOf 24 v : ℕ) : ℤ) = 256 * ((fieldOf 24 v : ℕ) : ℤ) := by
      push_cast
      omega
    rw [hcast, hspec]
    split_ifs with hneg
    · rw [show 256 * (v + ((2 ^ 24 : ℕ) : ℤ)) = 256 * v + ((2 ^ 32 : ℕ) : ℤ) by push_cast; ring,
        Int.add_bmod_right, Int.bmod_eq_of_le] <;> push_cast <;> omega
    · rw [Int.bmod_eq_of_le] <;> push_cast <;> omega
  rw [EStateM.run_bind, readInt24, EStateM.run_bind, @readBytes_leBytes 3 3 _ rfl rest]
  show EStateM.Result.ok (intText (BitVec.sshiftRight' (BitVec.ofNat 32 (leValue (0 :: leBytes 3 (fieldOf 24 v))))
    ((8 : Int32).toBitVec.smod 32)).toInt) rest = _
  rw [BitVec.toInt_sshiftRight', hword, show ((8 : Int32).toBitVec.smod 32).toNat = 8 by decide,
    Int.shiftRight_eq_div_pow, show 256 * v / ((2 ^ 8 : ℕ) : ℤ) = v by omega]

/-! ## One entry -/

theorem readZipListEntry_of_ne {fb : UInt8} (h : fb ≠ 0xFE) : readZipListEntry fb = readZipListEntry 0 := by
  unfold readZipListEntry
  rw [if_neg h, if_neg (by decide)]

theorem readZipListEntry_wide : readZipListEntry 0xFE = (do let _ ← readUint32; readZipListEntry 0) := by
  unfold readZipListEntry
  rw [if_pos rfl, if_neg (by decide)]

theorem ofNat_ne_FE {p : ℕ} (hp : p < 254) : UInt8.ofNat p ≠ 0xFE := by
  intro h
  have hp' := congrArg UInt8.toNat h
  rw [byte_toNat (by omega)] at hp'
  simp only [UInt8.reduceToNat] at hp'
  omega

/-- Past the end of the input the encoding byte reads as zero: an empty 6-bit string. -/
theorem readZipListEntry_zero_nil : (readZipListEntry 0).run [] = .ok [] [] := by
  decide

theorem str6_zl_tag : ∀ n : Fin 64,
    (UInt8.ofNat n.val &&& 192) >>> 6 = 0 ∧ (UInt8.ofNat n.val &&& 63).toNat = n.val := by
  decide

theorem str14_zl_tag : ∀ h : Fin 64, ¬(UInt8.ofNat (0x40 + h.val) &&& 192) >>> 6 = 0 ∧
    (UInt8.ofNat (0x40 + h.val) &&& 192) >>> 6 = 1 ∧ (UInt8.ofNat (0x40 + h.val) &&& 63).toNat = h.val := by
  decide

theorem imm_zl_tag : ∀ v : Fin 13,
    ¬(UInt8.ofNat (0xF1 + v.val) &&& 192) >>> 6 = 0 ∧ ¬(UInt8.ofNat (0xF1 + v.val) &&& 192) >>> 6 = 1 ∧
    ¬(UInt8.ofNat (0xF1 + v.val) &&& 192) >>> 6 = 2 ∧ ¬UInt8.ofNat (0xF1 + v.val) = 254 ∧
    ¬UInt8.ofNat (0xF1 + v.val) = 192 ∧ ¬UInt8.ofNat (0xF1 + v.val) = 240 ∧
    ¬UInt8.ofNat (0xF1 + v.val) = 208 ∧ ¬UInt8.ofNat (0xF1 + v.val) = 224 ∧
    UInt8.ofNat (0xF1 + v.val) >>> 4 = 15 ∧ (UInt8.ofNat (0xF1 + v.val) &&& 15).toNat = v.val + 1 := by
  decide

/-- `readZipListEntry` after the previous length decodes every encoding to its string. -/
theorem readZipListEntry_encoding (e : ZlElement) (rest : Bytes) :
    (readZipListEntry 0).run (e.encoding ++ rest) = .ok e.text rest := by
  unfold readZipListEntry
  rw [if_neg (by decide)]
  cases e with
  | str6 s hs =>
    obtain ⟨h0, hlen⟩ := str6_zl_tag ⟨s.length, hs⟩
    dsimp only at h0 hlen
    rw [ZlElement.encoding, List.cons_append, EStateM.run_bind, readByte_run]
    dsimp only
    rw [if_pos h0, hlen, readBytes_run s rest rfl]
    rfl
  | str14 s hs =>
    obtain ⟨h0, h1, hhi⟩ := str14_zl_tag ⟨s.length / 256, by omega⟩
    dsimp only at h0 h1 hhi
    have hlen : (UInt8.ofNat (0x40 + s.length / 256) &&& 63).toNat <<< 8 ||| (UInt8.ofNat (s.length % 256)).toNat =
        s.length := by
      rw [hhi, byte_toNat (by omega), Nat.shiftLeft_eq, or_mul_256 _ _ (by omega)]
      omega
    rw [ZlElement.encoding, List.cons_append, List.cons_append, EStateM.run_bind, readByte_run]
    dsimp only
    rw [if_neg h0, if_pos h1, EStateM.run_bind, readByte_run]
    dsimp only
    rw [hlen, readBytes_run s rest rfl]
    rfl
  | str32 s hs =>
    rw [ZlElement.encoding, List.cons_append, EStateM.run_bind, readByte_run]
    dsimp only
    rw [if_neg (by decide), if_neg (by decide), if_pos (by decide), EStateM.run_bind, List.append_assoc,
      @readBytes_run _ _ 4 rfl]
    dsimp only
    rw [beValue_putUint32BE, UInt32.toNat_ofNat_of_lt' hs, readBytes_run s rest rfl]
    rfl
  | int8 v hv =>
    rw [ZlElement.encoding, List.cons_append, EStateM.run_bind, readByte_run]
    dsimp only
    rw [if_neg (by decide), if_neg (by decide), if_neg (by decide), if_pos rfl, List.singleton_append,
      readInt8_fieldOf hv]
    rfl
  | int16 v hv =>
    rw [ZlElement.encoding, List.cons_append, EStateM.run_bind, readByte_run]
    dsimp only
    rw [if_neg (by decide), if_neg (by decide), if_neg (by decide), if_neg (by decide), if_pos rfl,
      readInt16_fieldOf hv]
    rfl
  | int24 v hv =>
    rw [ZlElement.encoding, List.cons_append, EStateM.run_bind, readByte_run]
    dsimp only
    rw [if_neg (by decide), if_neg (by decide), if_neg (by decide), if_neg (by decide), if_neg (by decide),
      if_pos rfl, readInt24_fieldOf hv]
    rfl
  | int32 v hv =>
    rw [ZlElement.encoding, List.cons_append, EStateM.run_bind, readByte_run]
    dsimp only
    rw [if_neg (by decide), if_neg (by decide), if_neg (by decide), if_neg (by decide), if_neg (by decide),
      if_neg (by decide), if_pos rfl, readInt32_fieldOf hv]
    rfl
  | int64 v hv =>
    rw [ZlElement.encoding, List.cons_append, EStateM.run_bind, readByte_run]
    dsimp only
    rw [if_neg (by decide), if_neg (by decide), if_neg (by decide), if_neg (by decide), if_neg (by decide),
      if_neg (by decide), if_neg (by decide), if_pos rfl, readInt64_fieldOf hv]
    rfl
  | imm v hv =>
    obtain ⟨h0, h1, h2, h3, h4, h5, h6, h7, h15, hval⟩ := imm_zl_tag ⟨v, by omega⟩
    dsimp only at h0 h1 h2 h3 h4 h5 h6 h7 h15 hval
    rw [ZlElement.encoding, List.singleton_append, EStateM.run_bind, readByte_run]
    dsimp only
    rw [if_neg h0, if_neg h1, if_neg h2, if_neg h3, if_neg h4, if_neg h5, if_neg h6, if_neg h7, if_pos h15,
      hval]
    show EStateM.Result.ok (intText (((v + 1 : ℕ) : ℤ) - 1)) rest = _
    rw [Nat.cast_add, Nat.cast_one, Int.add_sub_cancel]
    rfl

/-- An entry with either width of previous length. -/
theorem readEntry_prevlen (p : ℕ) (e : ZlElement) (rest : Bytes) :
    (do let firstByte ← readByte; readZipListEntry firstByte).run (prevlenBytes p ++ e.encoding ++ rest) =
      .ok e.text rest := by
  rw [EStateM.run_bind, prevlenBytes]
  split_ifs with hp
  · rw [List.singleton_append, List.cons_append, readByte_run]
    dsimp only
    rw [readZipListEntry_of_ne (ofNat_ne_FE hp), readZipListEntry_encoding]
  · rw [List.cons_append, List.cons_append, readByte_run]
    dsimp only
    rw [readZipListEntry_wide, EStateM.run_bind, List.append_assoc, readUint32_leBytes]
    exact readZipListEntry_encoding e rest

/-! ## Whole ziplists -/

theorem readCount_zipEntries (es : List ZlElement) (prev : ℕ) (rest : Bytes) :
    (readCount (do let firstByte ← readByte; readZipListEntry firstByte) es.length).run (zipEntries prev es ++ rest) =
      .ok (es.map ZlElement.text) rest := by
  induction es generalizing prev with
  | nil => rfl
  | cons e es ih =>
    rw [List.length_cons, readCount, zipEntries, EStateM.run_bind, List.append_assoc, readEntry_prevlen]
    dsimp only
    rw [EStateM.run_bind, ih]
    rfl

theorem zipListUntilEnd_nil (fuel : ℕ) : zipListUntilEnd fuel [] = .error .diverges [] := by
  cases fuel <;> rfl

theorem zipListUntilEnd_cons (fuel : ℕ) (b : UInt8) (inp : Bytes) :
    zipListUntilEnd (fuel + 1) (b :: inp) =
      (if b = 0xFE then pure [] else do
        let ele ← readZipListEntry b
        let eles ← zipListUntilEnd fuel
        pure (ele :: eles)).run inp := by
  rw [zipListUntilEnd]
  dsimp only
  rw [if_neg (List.cons_ne_nil b inp)]
  show (readByte >>= _).run (b :: inp) = _
  rw [EStateM.run_bind, readByte_run]

/-- The loop for the count `65535` never meets a `0xFE` among short entries: past their end
it reads zeros for ever, and runs out of every fuel. -/
theorem zipListUntilEnd_short (es : List ZlElement) (hes : ∀ e ∈ es, e.encoding.length ≤ 252) :
    ∀ (prev fuel : ℕ), prev < 254 → ∃ s, zipListUntilEnd fuel (zipEntries prev es ++ [0xFF]) = .error .diverges s := by
  induction es with
  | nil =>
    intro prev fuel _
    cases fuel with
    | zero => exact ⟨_, rfl⟩
    | succ fuel =>
      -- the terminator is read as a previous length, and the encoding byte past the end as zero
      refine ⟨[], ?_⟩
      rw [zipEntries, List.nil_append, zipListUntilEnd_cons, if_neg (by decide), EStateM.run_bind,
        readZipListEntry_of_ne (by decide), readZipListEntry_zero_nil]
      dsimp only
      rw [EStateM.run_bind, EStateM.run, zipListUntilEnd_nil]
  | cons e es ih =>
    intro prev fuel hprev
    have hlen : (prevlenBytes prev ++ e.encoding).length < 254 := by
      rw [List.length_append, prevlenBytes, if_pos hprev, List.length_singleton]
      have := hes e List.mem_cons_self
      omega
    cases fuel with
    | zero => exact ⟨_, rfl⟩
    | succ fuel =>
      obtain ⟨s, hs⟩ := ih (fun e' he' => hes e' (List.mem_cons_of_mem e he')) _ fuel hlen
      refine ⟨s, ?_⟩
      rw [zipEntries]
      generalize (prevlenBytes prev ++ e.encoding).length = n at hs
      rw [prevlenBytes, if_pos hprev, List.append_assoc, List.append_assoc, List.singleton_append,
        zipListUntilEnd_cons, if_neg (ofNat_ne_FE hprev), EStateM.run_bind, readZipListEntry_of_ne (ofNat_ne_FE hprev),
        readZipListEntry_encoding]
      dsimp only
      rw [EStateM.run_bind, EStateM.run, hs]

theorem readUint16_zipCount (n : ℕ) (rest : Bytes) :
    readUint16.run (leBytes 2 (min n 65535) ++ rest) = .ok (UInt16.ofNat (min n 65535)) rest := by
  rw [readUint16_leBytes, Nat.mod_eq_of_lt (by omega)]

/-- Below the count `65535`, `ReadZipList` returns the string of every entry. -/
theorem readZipList_zipListBytes (zlbytes zltail : ℕ) (es : List ZlElement) (hn : es.length < 65535) (enc : Bytes)
    (hs : ∀ rest, readString.run (enc ++ rest) = .ok (zipListBytes zlbytes zltail es) rest) (rest : Bytes) :
    readZipList.run (enc ++ rest) = .ok (es.map ZlElement.text) rest := by
  have hsize : (UInt16.ofNat (min es.length 65535)).toNat = es.length := by
    rw [UInt16.toNat_ofNat', Nat.mod_eq_of_lt (by omega)]
    omega
  have hbody : zipListBody.run (zipListBytes zlbytes zltail es) = .ok (es.map ZlElement.text) [] := by
    rw [zipListBody, zipListBytes, List.append_assoc, List.append_assoc, List.append_assoc, EStateM.run_bind,
      readUint32_leBytes]
    dsimp only
    rw [EStateM.run_bind, readUint32_leBytes]
    dsimp only
    rw [EStateM.run_bind, readUint16_zipCount]
    dsimp only
    have hne : ¬es.length = 65535 := by omega
    simp only [hsize, hne, ↓reduceIte]
    rw [EStateM.run_bind, readCount_zipEntries]
    dsimp only
    rw [EStateM.run_bind, readByte_run]
    rfl
  rw [readZipList, EStateM.run_bind, hs]
  dsimp only
  rw [readWithin, hbody]
  rfl


/-- At the count `65535`, a ziplist of short entries is read past its end, for ever. -/
theorem readZipList_short_diverges (zlbytes zltail : ℕ) (es : List ZlElement) (hn : 65535 ≤ es.length)
    (hes : ∀ e ∈ es, e.encoding.length ≤ 252) (enc : Bytes)
    (hs : ∀ rest, readString.run (enc ++ rest) = .ok (zipListBytes zlbytes zltail es) rest) (rest : Bytes) :
    readZipList.run (enc ++ rest) = .error .diverges rest := by
  have hsize : (UInt16.ofNat (min es.length 65535)).toNat = 65535 := by
    rw [Nat.min_eq_right hn]
    rfl
  obtain ⟨s, hloop⟩ := zipListUntilEnd_short es hes 0 ((zipEntries 0 es ++ [0xFF]).length + 1) (by norm_num)
  have hbody : zipListBody.run (zipListBytes zlbytes zltail es) = .error .diverges s := by
    rw [zipListBody, zipListBytes, List.append_assoc, List.append_assoc, List.append_assoc, EStateM.run_bind,
      readUint32_leBytes]
    dsimp only
    rw [EStateM.run_bind, readUint32_leBytes]
    dsimp only
    rw [EStateM.run_bind, readUint16_zipCount]
    dsimp only
    simp only [hsize, ↓reduceIte]
    exact hloop
  rw [readZipList, EStateM.run_bind, hs]
  dsimp only
  rw [readWithin, hbody]
  rfl

/-- The ziplist Redis writes for `65535` entries holding the integer `0`: `ReadZipList` reads
its terminator as a previous length and then zeros for ever. -/
theorem readZipList_65535_entries_diverges :
    readZipList.run (newEncoder.encodeString (zipListBytes 131081 131078 (List.replicate 65535 (.imm 0 (Nat.zero_le 12))))).written =
      .error .diverges [] := by
  have hentries : ∀ n p, p < 254 → (zipEntries p (List.replicate n (.imm 0 (Nat.zero_le 12)))).length = 2 * n := by
    intro n
    induction n with
    | zero => intro p _; rfl
    | succ n ih =>
      intro p hp
      have henc : (ZlElement.imm 0 (Nat.zero_le 12)).encoding.length = 1 := rfl
      have hpl : (prevlenBytes p).length = 1 := by rw [prevlenBytes, if_pos hp]; rfl
      rw [List.replicate_succ, zipEntries, List.length_append,
        ih _ (by rw [List.length_append, hpl, henc]; omega), List.length_append, hpl, henc]
      omega
  -- by rewriting only: simp would spell out the 65535 entries
  have hlen : (zipListBytes 131081 131078 (List.replicate 65535 (.imm 0 (Nat.zero_le 12)))).length < 2 ^ 32 := by
    rw [zipListBytes, List.length_append, List.length_append, List.length_append, List.length_append,
      hentries 65535 0 (by norm_num), leBytes_length, leBytes_length, leBytes_length, List.length_singleton]
    norm_num
  have hshort : ∀ e ∈ List.replicate 65535 (ZlElement.imm 0 (Nat.zero_le 12)), e.encoding.length ≤ 252 := by
    intro e he
    rw [List.eq_of_mem_replicate he]
    decide
  rw [← List.append_nil (newEncoder.encodeString _).written]
  exact readZipList_short_diverges _ _ _ (by rw [List.length_replicate]) hshort _
    (fun rest => readString_encodeString _ rest hlen) []

end WeedgePkg.Rdb
