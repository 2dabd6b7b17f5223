import WeedgePkg.RdbEncoder
import WeedgePkg.RdbStructures

/-!
# `ReadString` reads back what `EncodeString` writes

`EncodeLength` has three forms, six bits, fourteen bits, and the marker `0x80` with four
big-endian bytes, and `readEncodedLength` tells them apart by the top two bits of the first
byte. `encodeIntString` writes the canonical decimal of an `int32` as a marker byte with the
top bits `11` and one, two or four little-endian bytes, and `ReadString` turns those back
into the same decimal. Every encoder operation appends to what was written before, so the
lemmas are stated for a fresh encoder.
-/

namespace WeedgePkg.Rdb
open Decimal

/-! ## Readers on known input -/

theorem readBytes_run (bs rest : Bytes) {n : ℤ} (hn : n = bs.length) :
    (readBytes n).run (bs ++ rest) = .ok bs rest := by
  subst hn
  simp [readBytes, EStateM.run]

theorem readByte_run (b : UInt8) (rest : Bytes) : readByte.run (b :: rest) = .ok b rest := by
  have h := readBytes_run [b] rest (n := 1) rfl
  rw [List.singleton_append] at h
  simp only [readByte, EStateM.run_bind, h, EStateM.run_pure, List.headD_cons]

theorem readFull_run (bs rest : Bytes) : (readFull bs.length).run (bs ++ rest) = .ok (some bs) rest := by
  simp [readFull, EStateM.run]

/-- `readCount` reads one value for each encoded item, when `read` decodes every item's
encoding to its value. -/
theorem readCount_map {α β : Type} (read : RdbM β) (enc : α → Bytes) (f : α → β) :
    ∀ (xs : List α), (∀ a ∈ xs, ∀ rest, read.run (enc a ++ rest) = .ok (f a) rest) →
      ∀ rest, (readCount read xs.length).run (xs.flatMap enc ++ rest) = .ok (xs.map f) rest
  | [], _, rest => rfl
  | a :: xs, hread, rest => by
    have ha := hread a List.mem_cons_self (xs.flatMap enc ++ rest)
    have hxs := readCount_map read enc f xs (fun b hb => hread b (List.mem_cons_of_mem a hb)) rest
    simp only [List.length_cons, readCount, List.flatMap_cons, List.append_assoc, EStateM.run_bind, ha, hxs,
      EStateM.run_pure, List.map_cons]

theorem readCount_run {α : Type} (read : RdbM α) (enc : α → Bytes) (xs : List α)
    (hread : ∀ a ∈ xs, ∀ rest, read.run (enc a ++ rest) = .ok a rest) (rest : Bytes) :
    (readCount read xs.length).run (xs.flatMap enc ++ rest) = .ok xs rest := by
  simpa using readCount_map read enc id xs hread rest

theorem goInt_of_lt (u : UInt64) (h : u.toNat < 2 ^ 63) : goInt u = u.toNat := by
  have hu : u.toInt64 = Int64.ofNat u.toNat := by
    rw [← UInt64.toInt64_ofNat', UInt64.ofNat_toNat]
  rw [goInt, hu, Int64.toInt_ofNat_of_lt h]

/-- A count below `2 ^ 32`, as `uint32`, then `uint64`, then `int`, is itself. -/
theorem goInt_length (n : ℕ) (h : n < 2 ^ 32) : goInt (UInt32.ofNat n).toUInt64 = n := by
  rw [goInt_of_lt _ (by simp only [UInt32.toNat_toUInt64, UInt32.toNat_ofNat', Nat.reducePow]; omega)]
  simp only [UInt32.toNat_toUInt64, UInt32.toNat_ofNat', Nat.reducePow, Int.natCast_emod, Nat.cast_ofNat]
  omega

/-! ## Byte orders -/

theorem leValue_putUint16LE (v : UInt16) : leValue (putUint16LE v) = v.toNat := by
  have hv := v.toNat_lt
  simp only [leValue, putUint16LE, List.foldr_cons, List.foldr_nil, UInt16.toNat_toUInt8,
    UInt16.toNat_shiftRight, Nat.shiftRight_eq_div_pow]
  simp only [Nat.reducePow, UInt16.reduceToNat, Nat.reduceMod, mul_zero, add_zero]
  omega

theorem leValue_putUint32LE (v : UInt32) : leValue (putUint32LE v) = v.toNat := by
  have hv := v.toNat_lt
  simp only [leValue, putUint32LE, List.foldr_cons, List.foldr_nil, UInt32.toNat_toUInt8,
    UInt32.toNat_shiftRight, Nat.shiftRight_eq_div_pow]
  simp only [Nat.reducePow, UInt32.reduceToNat, Nat.reduceMod, mul_zero, add_zero]
  omega

theorem beValue_putUint32BE (v : UInt32) : beValue (putUint32BE v) = v.toNat := by
  have hv := v.toNat_lt
  simp only [beValue, putUint32BE, List.foldl_cons, List.foldl_nil, UInt32.toNat_toUInt8,
    UInt32.toNat_shiftRight, Nat.shiftRight_eq_div_pow]
  simp only [mul_zero, UInt32.reduceToNat, Nat.reduceMod, Nat.reducePow, zero_add]
  omega

theorem byte_toNat {n : ℕ} (h : n < 256) : (UInt8.ofNat n).toNat = n := UInt8.toNat_ofNat_of_lt' h

theorem or_mul_256 (a b : ℕ) (hb : b < 256) : a * 256 ||| b = a * 256 + b := by
  have h := Nat.shiftLeft_add_eq_or_of_lt (i := 8) hb a
  simp only [Nat.shiftLeft_eq, Nat.reducePow] at h
  exact h.symm

/-! ## Lengths -/

/-- A first byte below `64` is a six-bit length. -/
theorem lengthByte_low {b : UInt8} (hb : b.toNat < 64) : (b &&& 0xc0) >>> 6 = 0 ∧ b &&& 0x3f = b := by
  have key : ∀ n, n < 64 → (n &&& 192) >>> 6 = 0 ∧ n &&& 63 = n := by decide
  obtain ⟨h1, h2⟩ := key b.toNat hb
  constructor
  · apply UInt8.toNat_inj.mp
    simpa [UInt8.toNat_and, UInt8.toNat_shiftRight] using h1
  · apply UInt8.toNat_inj.mp
    simpa [UInt8.toNat_and] using h2

/-- The top two bits of a first byte name its form, the low six are its payload. -/
theorem lengthByte_or {b t : UInt8} (hb : b.toNat < 64) (ht : t.toNat < 4) :
    ((b ||| t <<< 6) &&& 0xc0) >>> 6 = t ∧ (b ||| t <<< 6) &&& 0x3f = b := by
  have key : ∀ n, n < 64 → ∀ k, k < 4 → ((n ||| k <<< 6) &&& 192) >>> 6 = k ∧ (n ||| k <<< 6) &&& 63 = n := by
    decide
  obtain ⟨h1, h2⟩ := key b.toNat hb t.toNat ht
  have hsh : (t <<< 6).toNat = t.toNat <<< 6 := by
    simp only [UInt8.toNat_shiftLeft, UInt8.reduceToNat, Nat.reduceMod, Nat.reducePow]
    omega
  constructor
  · apply UInt8.toNat_inj.mp
    simpa [UInt8.toNat_and, UInt8.toNat_shiftRight, UInt8.toNat_or, hsh] using h1
  · apply UInt8.toNat_inj.mp
    simpa [UInt8.toNat_and, UInt8.toNat_or, hsh] using h2

theorem readEncodedLength_low (b : UInt8) (hb : b.toNat < 64) (rest : Bytes) :
    readEncodedLength.run (b :: rest) = .ok (b.toUInt64, false, none) rest := by
  obtain ⟨h1, h2⟩ := lengthByte_low hb
  simp only [readEncodedLength, EStateM.run_bind, readByte_run, h1, h2, if_true, EStateM.run_pure]

theorem readEncodedLength_mid (hi lo : UInt8) (hhi : hi.toNat < 64) (rest : Bytes) :
    readEncodedLength.run ((hi ||| (1 : UInt8) <<< 6) :: lo :: rest) =
      .ok ((hi.toUInt64 <<< 8) ||| lo.toUInt64, false, none) rest := by
  obtain ⟨h1, h2⟩ := lengthByte_or hhi (t := 1) (by decide)
  simp only [readEncodedLength, EStateM.run_bind, readByte_run, h1, h2]
  rfl

theorem readEncodedLength_long (bs rest : Bytes) (h : bs.length = 4) :
    readEncodedLength.run (0x80 :: (bs ++ rest)) = .ok (UInt64.ofNat (beValue bs), false, none) rest := by
  have hf := readFull_run bs rest
  rw [h] at hf
  simp only [readEncodedLength, EStateM.run_bind, readByte_run]
  simp +decide only [↓reduceIte, EStateM.run_bind, hf, EStateM.run_pure]

theorem readEncodedLength_special (b : UInt8) (hb : b.toNat < 64) (rest : Bytes) :
    readEncodedLength.run (((3 : UInt8) <<< 6 ||| b) :: rest) = .ok (b.toUInt64, true, none) rest := by
  obtain ⟨h1, h2⟩ := lengthByte_or hb (t := 3) (by decide)
  rw [UInt8.or_comm]
  simp only [readEncodedLength, EStateM.run_bind, readByte_run, h1, h2]
  rfl

theorem encodeLength_written (e : Encoder) (l : UInt32) :
    (e.encodeLength l).written = e.written ++ (newEncoder.encodeLength l).written := by
  unfold Encoder.encodeLength
  split_ifs <;> simp [newEncoder]

/-- Each of the three forms of `EncodeLength` reads back as the length. -/
theorem readEncodedLength_encodeLength (l : UInt32) (rest : Bytes) :
    readEncodedLength.run ((newEncoder.encodeLength l).written ++ rest) = .ok (l.toUInt64, false, none) rest := by
  have hl := l.toNat_lt
  unfold Encoder.encodeLength
  split_ifs with h6 h14
  · -- one byte of six bits
    have h6' : l.toNat < 64 := by simpa [UInt32.lt_iff_toNat_lt] using h6
    have hb : l.toUInt8.toNat < 64 := by
      simp only [UInt32.toNat_toUInt8, Nat.reducePow]
      omega
    simp only [Encoder.write_written, newEncoder, List.nil_append, List.singleton_append]
    rw [readEncodedLength_low _ hb]
    congr 2
    apply UInt64.toNat_inj.mp
    simp only [UInt32.toUInt64_toUInt8, UInt64.toNat_mod, UInt32.toNat_toUInt64, UInt64.reduceToNat]
    omega
  · -- two bytes of fourteen bits
    have h14' : l.toNat < 16384 := by simpa [UInt32.lt_iff_toNat_lt] using h14
    have hb : (l >>> 8).toUInt8.toNat < 64 := by
      simp only [UInt32.toNat_toUInt8, UInt32.toNat_shiftRight, UInt32.reduceToNat, Nat.reduceMod,
        Nat.reducePow, Nat.shiftRight_eq_div_pow]
      omega
    simp only [Encoder.write_written, newEncoder, List.nil_append, List.cons_append, List.nil_append]
    rw [readEncodedLength_mid _ _ hb]
    congr 2
    apply UInt64.toNat_inj.mp
    simp only [UInt64.toNat_or, UInt64.toNat_shiftLeft, UInt8.toNat_toUInt64, UInt32.toNat_toUInt8,
      UInt32.toNat_shiftRight, UInt32.toNat_toUInt64]
    simp only [show UInt32.toNat 8 % 32 = 8 from rfl, show UInt64.toNat 8 % 64 = 8 from rfl,
      Nat.shiftRight_eq_div_pow, Nat.shiftLeft_eq, Nat.reducePow]
    have hhi : l.toNat / 256 % 256 * 256 % 18446744073709551616 = l.toNat / 256 * 256 := by omega
    rw [hhi, or_mul_256 _ _ (by omega)]
    omega
  · -- the marker `0x80` and four big-endian bytes
    simp only [Encoder.write_written, newEncoder, List.nil_append, List.cons_append]
    rw [show ((2 : UInt8) <<< 6) = 0x80 from rfl, readEncodedLength_long _ _ (by simp [putUint32BE]),
      beValue_putUint32BE]
    congr 2
    simp only [UInt64.ofNat_uInt32ToNat]

theorem readLength_encodeLength (l : UInt32) (rest : Bytes) :
    readLength.run ((newEncoder.encodeLength l).written ++ rest) = .ok l.toUInt64 rest := by
  simp only [readLength, EStateM.run_bind, readEncodedLength_encodeLength, EStateM.run_pure]

/-! ## Strings -/

theorem readString_plain (s rest : Bytes) (hs : s.length < 2 ^ 32) :
    readString.run ((newEncoder.encodeLength (UInt32.ofNat s.length)).written ++ s ++ rest) = .ok s rest := by
  simp only [readString, EStateM.run_bind, List.append_assoc, readEncodedLength_encodeLength]
  simp only [Bool.false_eq_true, ↓reduceIte, readBytes_run s rest (goInt_length _ hs)]

theorem readString_int8 (i : ℤ) (hlo : -128 ≤ i) (hhi : i ≤ 127) (rest : Bytes) :
    readString.run ([(3 : UInt8) <<< 6, (Int8.ofInt i).toUInt8] ++ rest) = .ok (intText i) rest := by
  have hs := readEncodedLength_special 0 (by decide) ((Int8.ofInt i).toUInt8 :: rest)
  rw [List.cons_append, List.singleton_append, show (3 : UInt8) <<< 6 = (3 : UInt8) <<< 6 ||| 0 from rfl]
  unfold readString
  rw [EStateM.run_bind, hs]
  simp only [show (0 : UInt8).toUInt64 = 0 from rfl, ↓reduceIte, readInt8, EStateM.run_bind,
    readByte_run, EStateM.run_pure, Int8.toInt8_toUInt8,
    Int8.toInt_ofInt_of_le (n := i) (by omega) (by omega)]

theorem readString_int16 (i : ℤ) (hlo : -32768 ≤ i) (hhi : i ≤ 32767) (rest : Bytes) :
    readString.run ((((3 : UInt8) <<< 6 ||| 1) :: putUint16LE (Int16.ofInt i).toUInt16) ++ rest) =
      .ok (intText i) rest := by
  have hb := readBytes_run (putUint16LE (Int16.ofInt i).toUInt16) rest (n := 2) rfl
  have hs := readEncodedLength_special 1 (by decide) (putUint16LE (Int16.ofInt i).toUInt16 ++ rest)
  have h10 : ((1 : UInt64) = 0) = False := by decide
  rw [List.cons_append]
  unfold readString
  rw [EStateM.run_bind, hs]
  simp only [show (1 : UInt8).toUInt64 = 1 from rfl, h10, ↓reduceIte, readInt16, EStateM.run_bind, hb,
    EStateM.run_pure, leValue_putUint16LE, UInt16.ofNat_toNat, Int16.toInt16_toUInt16,
    Int16.toInt_ofInt_of_le (n := i) (by omega) (by omega)]

theorem readString_int32 (i : ℤ) (hlo : -2147483648 ≤ i) (hhi : i ≤ 2147483647) (rest : Bytes) :
    readString.run ((((3 : UInt8) <<< 6 ||| 2) :: putUint32LE (Int32.ofInt i).toUInt32) ++ rest) =
      .ok (intText i) rest := by
  have hb := readBytes_run (putUint32LE (Int32.ofInt i).toUInt32) rest (n := 4) rfl
  have hs := readEncodedLength_special 2 (by decide) (putUint32LE (Int32.ofInt i).toUInt32 ++ rest)
  have h20 : ((2 : UInt64) = 0) = False := by decide
  have h21 : ((2 : UInt64) = 1) = False := by decide
  rw [List.cons_append]
  unfold readString
  rw [EStateM.run_bind, hs]
  simp only [show (2 : UInt8).toUInt64 = 2 from rfl, h20, h21, ↓reduceIte, readInt32, EStateM.run_bind, hb,
    EStateM.run_pure, leValue_putUint32LE, UInt32.ofNat_toNat, Int32.toInt32_toUInt32,
    Int32.toInt_ofInt_of_le (n := i) (by omega) (by omega)]

theorem encodeString_written (e : Encoder) (s : Bytes) :
    (e.encodeString s).written = e.written ++ (newEncoder.encodeString s).written := by
  unfold Encoder.encodeString Encoder.encodeIntString
  rcases parseInt s 32 with _ | i
  · simp [encodeLength_written e, newEncoder]
  · by_cases hs : s = intText i
    · subst hs
      simp only [ne_eq, not_true_eq_false, ↓reduceIte]
      split_ifs <;> simp [encodeLength_written e, newEncoder]
    · simp [hs, encodeLength_written e, newEncoder]

/-- `ReadString` reads back what `EncodeString` wrote, in whichever form it was written. -/
theorem readString_encodeString (s rest : Bytes) (hs : s.length < 2 ^ 32) :
    readString.run ((newEncoder.encodeString s).written ++ rest) = .ok s rest := by
  have plain : readString.run (((newEncoder.encodeLength (UInt32.ofNat s.length)).write s).written ++ rest) =
      .ok s rest := by
    rw [Encoder.write_written]
    exact readString_plain s rest hs
  unfold Encoder.encodeString Encoder.encodeIntString
  rcases parseInt s 32 with _ | i
  · exact plain
  · by_cases hcanon : s = intText i
    · -- the canonical decimal of an `int32`: written in the smallest integer form that holds it
      dsimp only
      rw [if_neg (not_not.mpr hcanon)]
      split_ifs with h8 h16 h32
      · simp only [Encoder.write_written, newEncoder, List.nil_append]
        rw [readString_int8 i h8.1 h8.2 rest, hcanon]
      · simp only [Encoder.write_written, newEncoder, List.nil_append]
        rw [readString_int16 i h16.1 h16.2 rest, hcanon]
      · simp only [Encoder.write_written, newEncoder, List.nil_append]
        rw [readString_int32 i h32.1 h32.2 rest, hcanon]
      · exact plain
    · simp only [ne_eq, hcanon, not_false_eq_true, ↓reduceIte]
      exact plain

theorem foldl_encodeString_written (e : Encoder) (v : List Bytes) :
    (v.foldl Encoder.encodeString e).written =
      e.written ++ v.flatMap fun s => (newEncoder.encodeString s).written := by
  induction v generalizing e with
  | nil => simp
  | cons s v ih => simp [ih, encodeString_written e s]

theorem foldl_encodePair_written (e : Encoder) (v : List (Bytes × Bytes)) :
    (v.foldl (fun e p => (e.encodeString p.1).encodeString p.2) e).written =
      e.written ++ v.flatMap fun p => (newEncoder.encodeString p.1).written ++ (newEncoder.encodeString p.2).written := by
  induction v generalizing e with
  | nil => simp
  | cons p v ih =>
    rw [List.foldl_cons, ih, encodeString_written _ p.2, encodeString_written e p.1, List.flatMap_cons]
    simp only [List.append_assoc]

end WeedgePkg.Rdb
