import WeedgePkg.RdbStringCodec

/-!
# Listpacks as Redis writes them

A listpack is its size in bytes, its number of elements (`65535`, "unknown", once there are
that many), the elements and `0xFF`. An element is an encoding byte with its payload, then
the back-length of that entry. `ReadListpack` decodes every element Redis writes, and reads
as many as the count says: all of a listpack of fewer than `65535` elements, and the first
`65535` of a longer one.
-/

namespace WeedgePkg.Rdb
open Decimal

/-- `k` little-endian bytes of `u`. -/
def leBytes : ℕ → ℕ → Bytes
  | 0, _ => []
  | k + 1, u => UInt8.ofNat (u % 256) :: leBytes k (u / 256)

@[simp] theorem leBytes_length : ∀ (k u : ℕ), (leBytes k u).length = k
  | 0, _ => rfl
  | k + 1, u => by simp [leBytes, leBytes_length k]

theorem leValue_cons (b : UInt8) (bs : Bytes) : leValue (b :: bs) = b.toNat + 256 * leValue bs := rfl

theorem leValue_leBytes : ∀ (k u : ℕ), leValue (leBytes k u) = u % 256 ^ k
  | 0, u => by simp [leBytes, leValue, Nat.mod_one]
  | k + 1, u => by
    rw [leBytes, leValue_cons, byte_toNat (Nat.mod_lt u (by omega)), leValue_leBytes k, pow_succ', Nat.mod_mul]

theorem leValue_append_zero (bs : Bytes) : leValue (bs ++ [0]) = leValue bs := by
  induction bs with
  | nil => rfl
  | cons b bs ih => rw [List.cons_append, leValue_cons, leValue_cons, ih]

/-- Redis's `lpEncodeBacklen(buf, l)`: `l` in groups of seven bits, the most significant
first, every group after the first with its top bit set. -/
def lpBacklen (l : ℕ) : Bytes :=
  if l ≤ 127 then [UInt8.ofNat l]
  else if l < 16383 then [UInt8.ofNat (l >>> 7), UInt8.ofNat (l % 128 ||| 128)]
  else if l < 2097151 then
    [UInt8.ofNat (l >>> 14), UInt8.ofNat ((l >>> 7) % 128 ||| 128), UInt8.ofNat (l % 128 ||| 128)]
  else if l < 268435455 then
    [UInt8.ofNat (l >>> 21), UInt8.ofNat ((l >>> 14) % 128 ||| 128), UInt8.ofNat ((l >>> 7) % 128 ||| 128),
      UInt8.ofNat (l % 128 ||| 128)]
  else
    [UInt8.ofNat (l >>> 28), UInt8.ofNat ((l >>> 21) % 128 ||| 128), UInt8.ofNat ((l >>> 14) % 128 ||| 128),
      UInt8.ofNat ((l >>> 7) % 128 ||| 128), UInt8.ofNat (l % 128 ||| 128)]

theorem lpBacklen_length (l : ℕ) : (lpBacklen l).length = lpEncodeBacklen l := by
  unfold lpBacklen lpEncodeBacklen
  split_ifs <;> rfl

/-- An element in one of the encodings Redis's `lpInsert` chooses from, with the range of
its payload. -/
inductive LpElement where
  | uint7 (v : ℕ) (hv : v < 2 ^ 7)
  | str6 (s : Bytes) (hs : s.length < 2 ^ 6)
  | int13 (v : ℤ) (hv : -2 ^ 12 ≤ v ∧ v < 2 ^ 12)
  | int16 (v : ℤ) (hv : -2 ^ 15 ≤ v ∧ v < 2 ^ 15)
  | int24 (v : ℤ) (hv : -2 ^ 23 ≤ v ∧ v < 2 ^ 23)
  | int32 (v : ℤ) (hv : -2 ^ 31 ≤ v ∧ v < 2 ^ 31)
  | int64 (v : ℤ) (hv : -2 ^ 63 ≤ v ∧ v < 2 ^ 63)
  | str12 (s : Bytes) (hs : s.length < 2 ^ 12)
  | str32 (s : Bytes) (hs : s.length < 2 ^ 32)

/-- The `w`-bit two's complement field of `v`. -/
def fieldOf (w : ℕ) (v : ℤ) : ℕ := (v % 2 ^ w).toNat

namespace LpElement

/-- The encoding and the payload of an element. -/
def entry : LpElement → Bytes
  | uint7 v _ => [UInt8.ofNat v]
  | str6 s _ => UInt8.ofNat (0x80 + s.length) :: s
  | int13 v _ => [UInt8.ofNat (0xC0 + fieldOf 13 v / 256), UInt8.ofNat (fieldOf 13 v % 256)]
  | int16 v _ => 0xF1 :: leBytes 2 (fieldOf 16 v)
  | int24 v _ => 0xF2 :: leBytes 3 (fieldOf 24 v)
  | int32 v _ => 0xF3 :: leBytes 4 (fieldOf 32 v)
  | int64 v _ => 0xF4 :: leBytes 8 (fieldOf 64 v)
  | str12 s _ => UInt8.ofNat (0xE0 + s.length / 256) :: UInt8.ofNat (s.length % 256) :: s
  | str32 s _ => 0xF0 :: (leBytes 4 s.length ++ s)

/-- An element's entry and the entry's back-length. -/
def bytes (e : LpElement) : Bytes := e.entry ++ lpBacklen e.entry.length

/-- The string `ReadListpack` should return for an element. -/
def text : LpElement → Bytes
  | uint7 v _ => intText v
  | str6 s _ | str12 s _ | str32 s _ => s
  | int13 v _ | int16 v _ | int24 v _ | int32 v _ | int64 v _ => intText v

end LpElement

/-- The listpack of a list of elements. -/
def listpackBytes (es : List LpElement) : Bytes :=
  leBytes 4 (6 + (es.flatMap LpElement.bytes).length + 1) ++ leBytes 2 (min es.length 65535) ++
    es.flatMap LpElement.bytes ++ [0xFF]

/-! ## Integers -/

theorem two_pow_pred {w : ℕ} (hw : 0 < w) : (2 : ℕ) ^ w = 2 * 2 ^ (w - 1) := by
  rw [← pow_succ']
  congr 1
  omega

theorem fieldOf_spec {w : ℕ} (hw : 0 < w) {v : ℤ} (hv : -((2 ^ (w - 1) : ℕ) : ℤ) ≤ v ∧ v < ((2 ^ (w - 1) : ℕ) : ℤ)) :
    ((fieldOf w v : ℕ) : ℤ) = if v < 0 then v + ((2 ^ w : ℕ) : ℤ) else v := by
  have hM : ((2 ^ w : ℕ) : ℤ) = 2 * ((2 ^ (w - 1) : ℕ) : ℤ) := by
    rw [two_pow_pred hw]
    push_cast
    ring
  have hpow : ((2 : ℤ) ^ w) = ((2 ^ w : ℕ) : ℤ) := by push_cast; ring
  unfold fieldOf
  rw [hpow]
  split_ifs with hneg
  · have hmod : v % ((2 ^ w : ℕ) : ℤ) = v + ((2 ^ w : ℕ) : ℤ) := by
      rw [← Int.add_emod_right, Int.emod_eq_of_lt (by omega) (by omega)]
    rw [hmod, Int.toNat_of_nonneg (by omega)]
  · rw [Int.emod_eq_of_lt (by omega) (by omega), Int.toNat_of_nonneg (by omega)]

theorem fieldOf_lt {w : ℕ} (hw : 0 < w) {v : ℤ} (hv : -2 ^ (w - 1) ≤ v ∧ v < 2 ^ (w - 1)) :
    fieldOf w v < 2 ^ w := by
  have hf := fieldOf_spec hw (v := v) (by push_cast; exact hv)
  have hM := two_pow_pred hw
  have hv' : -((2 ^ (w - 1) : ℕ) : ℤ) ≤ v ∧ v < ((2 ^ (w - 1) : ℕ) : ℤ) := by push_cast; exact hv
  split_ifs at hf <;> omega

/-- The three-step conversion of `readListpackEntry`, `uval - negmax - 1` above `negstart`,
reads a `w`-bit field back as the signed value it holds. -/
theorem listpackInt_field {w : ℕ} (hw : 0 < w ∧ w ≤ 64) {v : ℤ} (hv : -2 ^ (w - 1) ≤ v ∧ v < 2 ^ (w - 1)) :
    listpackInt (UInt64.ofNat (fieldOf w v)) (UInt64.ofNat (2 ^ (w - 1))) (UInt64.ofNat (2 ^ w - 1)) =
      intText v := by
  have hv' : -((2 ^ (w - 1) : ℕ) : ℤ) ≤ v ∧ v < ((2 ^ (w - 1) : ℕ) : ℤ) := by push_cast; exact hv
  have hM := two_pow_pred hw.1
  have hw64 : (2 : ℕ) ^ (w - 1) ≤ 2 ^ 63 := Nat.pow_le_pow_right (by norm_num) (by omega)
  have hN : 0 < (2 : ℕ) ^ (w - 1) := by positivity
  have hf := fieldOf_spec hw.1 hv'
  have hsize : UInt64.size = 2 ^ 64 := rfl
  have hfield := fieldOf_lt hw.1 hv
  have hu : (UInt64.ofNat (fieldOf w v)).toNat = fieldOf w v := UInt64.toNat_ofNat_of_lt' (by omega)
  have hs : (UInt64.ofNat (2 ^ (w - 1))).toNat = 2 ^ (w - 1) := UInt64.toNat_ofNat_of_lt' (by omega)
  have hm : (UInt64.ofNat (2 ^ w - 1)).toNat = 2 ^ w - 1 := UInt64.toNat_ofNat_of_lt' (by omega)
  unfold listpackInt
  by_cases hneg : v < 0
  · -- the field is `v + 2 ^ w`, at least `2 ^ (w - 1)`
    rw [if_pos hneg] at hf
    have hge : UInt64.ofNat (fieldOf w v) ≥ UInt64.ofNat (2 ^ (w - 1)) := by
      rw [ge_iff_le, UInt64.le_iff_toNat_le, hu, hs]
      omega
    have hle : UInt64.ofNat (fieldOf w v) ≤ UInt64.ofNat (2 ^ w - 1) := by
      rw [UInt64.le_iff_toNat_le, hu, hm]
      omega
    have ht : (UInt64.ofNat (2 ^ w - 1) - UInt64.ofNat (fieldOf w v)).toNat = 2 ^ w - 1 - fieldOf w v := by
      rw [UInt64.toNat_sub_of_le _ _ hle, hu, hm]
    have hx := goInt_of_lt (UInt64.ofNat (2 ^ w - 1) - UInt64.ofNat (fieldOf w v)) (by rw [ht]; omega)
    rw [ht] at hx
    have hval : -(UInt64.ofNat (2 ^ w - 1) - UInt64.ofNat (fieldOf w v)).toInt64 - 1 = Int64.ofInt v := by
      rw [← Int64.ofInt_toInt (UInt64.ofNat (2 ^ w - 1) - UInt64.ofNat (fieldOf w v)).toInt64]
      rw [show (UInt64.ofNat (2 ^ w - 1) - UInt64.ofNat (fieldOf w v)).toInt64.toInt =
        ((2 ^ w - 1 - fieldOf w v : ℕ) : ℤ) from hx]
      rw [show (1 : Int64) = Int64.ofInt 1 from rfl, ← Int64.ofInt_neg, ← Int64.ofInt_sub]
      congr 1
      omega
    have hvt : (Int64.ofInt v).toInt = v := Int64.toInt_ofInt_of_le (by omega) (by omega)
    simp only [hge, if_true, hval, hvt]
  · rw [if_neg hneg] at hf
    have hlt : ¬UInt64.ofNat (fieldOf w v) ≥ UInt64.ofNat (2 ^ (w - 1)) := by
      rw [ge_iff_le, UInt64.le_iff_toNat_le, hu, hs]
      omega
    have hx := goInt_of_lt (UInt64.ofNat (fieldOf w v)) (by rw [hu]; omega)
    rw [hu] at hx
    simp only [hlt, if_false]
    rw [show (UInt64.ofNat (fieldOf w v)).toInt64.toInt = v from hx.trans hf]

/-! ## One element -/

theorem readBytes_leBytes {n : ℤ} (k u : ℕ) (hk : n = k) (rest : Bytes) :
    (readBytes n).run (leBytes k u ++ rest) = .ok (leBytes k u) rest :=
  readBytes_run _ rest (by simp [hk])

theorem readUint16_leBytes (u : ℕ) (rest : Bytes) :
    readUint16.run (leBytes 2 u ++ rest) = .ok (UInt16.ofNat (u % 2 ^ 16)) rest := by
  simp only [readUint16, EStateM.run_bind, @readBytes_leBytes 2 2 u rfl rest, leValue_leBytes]
  rfl

theorem readUint24_leBytes (u : ℕ) (rest : Bytes) :
    readUint24.run (leBytes 3 u ++ rest) = .ok (UInt32.ofNat (u % 2 ^ 24)) rest := by
  simp only [readUint24, EStateM.run_bind, @readBytes_leBytes 3 3 u rfl rest, leValue_append_zero, leValue_leBytes]
  rfl

theorem readUint32_leBytes (u : ℕ) (rest : Bytes) :
    readUint32.run (leBytes 4 u ++ rest) = .ok (UInt32.ofNat (u % 2 ^ 32)) rest := by
  simp only [readUint32, EStateM.run_bind, @readBytes_leBytes 4 4 u rfl rest, leValue_leBytes]
  rfl

theorem readUint64_leBytes (u : ℕ) (rest : Bytes) :
    readUint64.run (leBytes 8 u ++ rest) = .ok (UInt64.ofNat (u % 2 ^ 64)) rest := by
  simp only [readUint64, EStateM.run_bind, @readBytes_leBytes 8 8 u rfl rest, leValue_leBytes]
  rfl

theorem readBacklen_run (l k : ℕ) (hk : lpEncodeBacklen k = lpEncodeBacklen l) (rest : Bytes) :
    (readBytes (lpEncodeBacklen k)).run (lpBacklen l ++ rest) = .ok (lpBacklen l) rest :=
  readBytes_run _ rest (by rw [lpBacklen_length, hk])

/-- The first bytes of the encodings whose first byte holds part of the payload select
their branches. -/
theorem uint7_tag : ∀ v : Fin 128, UInt8.ofNat v.val &&& 0x80 = 0 ∧
    (UInt8.ofNat v.val &&& 0x7f).toUInt64 = UInt64.ofNat v.val := by
  decide

theorem str6_tag : ∀ n : Fin 64, ¬UInt8.ofNat (0x80 + n.val) &&& 0x80 = 0 ∧
    UInt8.ofNat (0x80 + n.val) &&& 0xC0 = 0x80 ∧ (UInt8.ofNat (0x80 + n.val) &&& 0x3f).toNat = n.val := by
  decide

theorem int13_tag : ∀ h : Fin 32, ¬UInt8.ofNat (0xC0 + h.val) &&& 0x80 = 0 ∧
    ¬UInt8.ofNat (0xC0 + h.val) &&& 0xC0 = 0x80 ∧ UInt8.ofNat (0xC0 + h.val) &&& 0xE0 = 0xC0 ∧
    (UInt8.ofNat (0xC0 + h.val) &&& 0x1f).toNat = h.val := by
  decide

theorem str12_tag : ∀ h : Fin 16, ¬UInt8.ofNat (0xE0 + h.val) &&& 0x80 = 0 ∧
    ¬UInt8.ofNat (0xE0 + h.val) &&& 0xC0 = 0x80 ∧ ¬UInt8.ofNat (0xE0 + h.val) &&& 0xE0 = 0xC0 ∧
    ¬UInt8.ofNat (0xE0 + h.val) = 0xF1 ∧ ¬UInt8.ofNat (0xE0 + h.val) = 0xF2 ∧
    ¬UInt8.ofNat (0xE0 + h.val) = 0xF3 ∧ ¬UInt8.ofNat (0xE0 + h.val) = 0xF4 ∧
    UInt8.ofNat (0xE0 + h.val) &&& 0xF0 = 0xE0 ∧ (UInt8.ofNat (0xE0 + h.val) &&& 0x0f).toNat = h.val := by
  decide

theorem listpackInt_uint7 {v : ℕ} (hv : v < 2 ^ 7) :
    listpackInt (UInt64.ofNat v) 0xFFFFFFFFFFFFFFFF 0 = intText v := by
  have hsize : UInt64.size = 2 ^ 64 := rfl
  have hu : (UInt64.ofNat v).toNat = v := UInt64.toNat_ofNat_of_lt' (by omega)
  have hlt : ¬UInt64.ofNat v ≥ 0xFFFFFFFFFFFFFFFF := by
    rw [ge_iff_le, UInt64.le_iff_toNat_le, hu]
    simp only [UInt64.reduceToNat]
    omega
  have hx := goInt_of_lt (UInt64.ofNat v) (by rw [hu]; omega)
  rw [hu] at hx
  simp only [listpackInt, hlt, if_false]
  rw [show (UInt64.ofNat v).toInt64.toInt = v from hx]

theorem toUInt64_ofNat16 {u : ℕ} (h : u < 2 ^ 16) : (UInt16.ofNat (u % 2 ^ 16)).toUInt64 = UInt64.ofNat u := by
  apply UInt64.toNat_inj.mp
  simp only [UInt16.toNat_toUInt64, UInt16.toNat_ofNat', UInt64.toNat_ofNat']
  omega

theorem toUInt64_ofNat32 {u k : ℕ} (hk : k ≤ 32) (h : u < 2 ^ k) :
    (UInt32.ofNat (u % 2 ^ k)).toUInt64 = UInt64.ofNat u := by
  have hk' : (2 : ℕ) ^ k ≤ 2 ^ 32 := Nat.pow_le_pow_right (by norm_num) hk
  apply UInt64.toNat_inj.mp
  simp only [UInt32.toNat_toUInt64, UInt32.toNat_ofNat', UInt64.toNat_ofNat']
  rw [Nat.mod_eq_of_lt h]
  omega

/-- `readListpackEntry` returns every element's string and consumes exactly its bytes. -/
theorem readListpackEntry_bytes (e : LpElement) (rest : Bytes) :
    readListpackEntry.run (e.bytes ++ rest) = .ok e.text rest := by
  cases e with
  | uint7 v hv =>
    obtain ⟨h80, hval⟩ := uint7_tag ⟨v, hv⟩
    simp only [LpElement.bytes, LpElement.entry, LpElement.text, List.length_singleton, List.cons_append,
      List.nil_append]
    unfold readListpackEntry
    rw [EStateM.run_bind, readByte_run]
    dsimp only
    rw [if_pos h80, EStateM.run_bind, readBacklen_run 1 1 rfl]
    dsimp only at hval ⊢
    rw [hval, listpackInt_uint7 hv]
    rfl
  | str6 s hs =>
    obtain ⟨h80, hC0, hlen⟩ := str6_tag ⟨s.length, hs⟩
    dsimp only at h80 hC0 hlen
    simp only [LpElement.bytes, LpElement.entry, LpElement.text, List.length_cons, List.cons_append,
      List.append_assoc]
    unfold readListpackEntry
    rw [EStateM.run_bind, readByte_run]
    dsimp only
    rw [if_neg h80, if_pos hC0, hlen, EStateM.run_bind, readBytes_run s _ rfl]
    dsimp only
    rw [EStateM.run_bind, readBacklen_run (s.length + 1) (1 + s.length) (by rw [Nat.add_comm])]
    rfl
  | int13 v hv =>
    have hf := fieldOf_lt (w := 13) (by omega) hv
    obtain ⟨h80, hC0, hE0, hhi⟩ := int13_tag ⟨fieldOf 13 v / 256, by omega⟩
    dsimp only at h80 hC0 hE0 hhi
    have hlo : (UInt8.ofNat (fieldOf 13 v % 256)).toNat = fieldOf 13 v % 256 := byte_toNat (by omega)
    have huval : ((UInt8.ofNat (0xC0 + fieldOf 13 v / 256) &&& 0x1f).toUInt64 <<< 8) +
        (UInt8.ofNat (fieldOf 13 v % 256)).toUInt64 = UInt64.ofNat (fieldOf 13 v) := by
      apply UInt64.toNat_inj.mp
      simp only [UInt64.toNat_add, UInt64.toNat_shiftLeft, UInt8.toNat_toUInt64, hhi, hlo, UInt64.toNat_ofNat',
        UInt64.reduceToNat, Nat.reduceMod, Nat.shiftLeft_eq]
      omega
    simp only [LpElement.bytes, LpElement.entry, LpElement.text, List.length_cons, List.length_nil,
      List.cons_append, List.nil_append]
    unfold readListpackEntry
    rw [EStateM.run_bind, readByte_run]
    dsimp only
    rw [if_neg h80, if_neg hC0, if_pos hE0, EStateM.run_bind, readByte_run]
    dsimp only
    rw [EStateM.run_bind, readBacklen_run 2 2 rfl]
    dsimp only
    rw [huval, show ((1 : UInt64) <<< 12) = UInt64.ofNat (2 ^ (13 - 1)) by decide,
      show (8191 : UInt64) = UInt64.ofNat (2 ^ 13 - 1) by decide, listpackInt_field (w := 13) (by omega) hv]
    rfl
  | int16 v hv =>
    have hf := fieldOf_lt (w := 16) (by omega) hv
    simp only [LpElement.bytes, LpElement.entry, LpElement.text, List.length_cons, leBytes_length,
      List.cons_append, List.append_assoc]
    unfold readListpackEntry
    rw [EStateM.run_bind, readByte_run]
    dsimp only
    rw [if_neg (by decide), if_neg (by decide), if_neg (by decide), if_pos rfl, EStateM.run_bind,
      readUint16_leBytes]
    dsimp only
    rw [EStateM.run_bind, readBacklen_run 3 2 rfl]
    dsimp only
    rw [toUInt64_ofNat16 hf, show ((1 : UInt64) <<< 15) = UInt64.ofNat (2 ^ (16 - 1)) by decide,
      show (65535 : UInt64) = UInt64.ofNat (2 ^ 16 - 1) by decide, listpackInt_field (w := 16) (by omega) hv]
    rfl
  | int24 v hv =>
    have hf := fieldOf_lt (w := 24) (by omega) hv
    simp only [LpElement.bytes, LpElement.entry, LpElement.text, List.length_cons, leBytes_length,
      List.cons_append, List.append_assoc]
    unfold readListpackEntry
    rw [EStateM.run_bind, readByte_run]
    dsimp only
    rw [if_neg (by decide), if_neg (by decide), if_neg (by decide), if_neg (by decide), if_pos rfl,
      EStateM.run_bind, readUint24_leBytes]
    dsimp only
    rw [EStateM.run_bind, readBacklen_run 4 (1 + 3) rfl]
    dsimp only
    rw [toUInt64_ofNat32 (by omega) hf, show ((1 : UInt64) <<< 23) = UInt64.ofNat (2 ^ (24 - 1)) by decide,
      show ((0xFFFFFFFF : UInt64) >>> 8) = UInt64.ofNat (2 ^ 24 - 1) by decide, listpackInt_field (w := 24) (by omega) hv]
    rfl
  | int32 v hv =>
    have hf := fieldOf_lt (w := 32) (by omega) hv
    simp only [LpElement.bytes, LpElement.entry, LpElement.text, List.length_cons, leBytes_length,
      List.cons_append, List.append_assoc]
    unfold readListpackEntry
    rw [EStateM.run_bind, readByte_run]
    dsimp only
    rw [if_neg (by decide), if_neg (by decide), if_neg (by decide), if_neg (by decide), if_neg (by decide),
      if_pos rfl, EStateM.run_bind, readUint32_leBytes]
    dsimp only
    rw [EStateM.run_bind, readBacklen_run 5 (1 + 4) rfl]
    dsimp only
    rw [toUInt64_ofNat32 (le_refl 32) hf, show ((1 : UInt64) <<< 31) = UInt64.ofNat (2 ^ (32 - 1)) by decide,
      show (0xFFFFFFFF : UInt64) = UInt64.ofNat (2 ^ 32 - 1) by decide, listpackInt_field (w := 32) (by omega) hv]
    rfl
  | int64 v hv =>
    have hf := fieldOf_lt (w := 64) (by omega) hv
    simp only [LpElement.bytes, LpElement.entry, LpElement.text, List.length_cons, leBytes_length,
      List.cons_append, List.append_assoc]
    unfold readListpackEntry
    rw [EStateM.run_bind, readByte_run]
    dsimp only
    rw [if_neg (by decide), if_neg (by decide), if_neg (by decide), if_neg (by decide), if_neg (by decide),
      if_neg (by decide), if_pos rfl, EStateM.run_bind, readUint64_leBytes]
    dsimp only
    rw [EStateM.run_bind, readBacklen_run 9 (1 + 8) rfl]
    dsimp only
    rw [Nat.mod_eq_of_lt hf, show ((1 : UInt64) <<< 63) = UInt64.ofNat (2 ^ (64 - 1)) by decide,
      show (0xFFFFFFFFFFFFFFFF : UInt64) = UInt64.ofNat (2 ^ 64 - 1) by decide, listpackInt_field (w := 64) (by omega) hv]
    rfl
  | str12 s hs =>
    obtain ⟨h80, hC0, hE0, h1, h2, h3, h4, hF0, hhi⟩ := str12_tag ⟨s.length / 256, by omega⟩
    dsimp only at h80 hC0 hE0 h1 h2 h3 h4 hF0 hhi
    have hlo : (UInt8.ofNat (s.length % 256)).toNat = s.length % 256 := byte_toNat (by omega)
    have hlen : (UInt8.ofNat (0xE0 + s.length / 256) &&& 0x0f).toNat <<< 8 +
        (UInt8.ofNat (s.length % 256)).toNat = s.length := by
      rw [hhi, hlo, Nat.shiftLeft_eq]
      omega
    simp only [LpElement.bytes, LpElement.entry, LpElement.text, List.length_cons, List.cons_append,
      List.append_assoc]
    unfold readListpackEntry
    rw [EStateM.run_bind, readByte_run]
    dsimp only
    rw [if_neg h80, if_neg hC0, if_neg hE0, if_neg h1, if_neg h2, if_neg h3, if_neg h4, if_pos hF0,
      EStateM.run_bind, readByte_run]
    dsimp only
    rw [hlen, EStateM.run_bind, readBytes_run s _ rfl]
    dsimp only
    rw [EStateM.run_bind, readBacklen_run (s.length + 1 + 1) (2 + s.length) (by congr 1; omega)]
    rfl
  | str32 s hs =>
    have hlen : (UInt32.ofNat (s.length % 2 ^ 32)).toNat = s.length := by
      rw [UInt32.toNat_ofNat', Nat.mod_mod, Nat.mod_eq_of_lt hs]
    simp only [LpElement.bytes, LpElement.entry, LpElement.text, List.length_cons, List.length_append,
      leBytes_length, List.cons_append, List.append_assoc]
    unfold readListpackEntry
    rw [EStateM.run_bind, readByte_run]
    dsimp only
    rw [if_neg (by decide), if_neg (by decide), if_neg (by decide), if_neg (by decide), if_neg (by decide),
      if_neg (by decide), if_neg (by decide), if_neg (by decide), if_pos rfl, EStateM.run_bind,
      readUint32_leBytes]
    dsimp only
    rw [hlen, EStateM.run_bind, readBytes_run s _ rfl]
    dsimp only
    rw [EStateM.run_bind, readBacklen_run (4 + s.length + 1) (5 + s.length) (by congr 1; omega)]
    rfl

/-! ## Whole listpacks -/

/-- The body reads the count, then that many elements, then one byte for the end marker:
the first `65535` elements of a longer listpack, and the next byte as its end. -/
theorem listpackBody_listpackBytes (es : List LpElement) :
    ∃ rest, listpackBody.run (listpackBytes es) = .ok ((es.take 65535).map LpElement.text) rest := by
  have hcount : (es.take 65535).length = min es.length 65535 := by
    rw [List.length_take, Nat.min_comm]
  obtain ⟨b, tail, hb⟩ := List.exists_cons_of_ne_nil
    (List.append_ne_nil_of_right_ne_nil ((es.drop 65535).flatMap LpElement.bytes) (List.cons_ne_nil 0xFF []))
  have hentries := readCount_map readListpackEntry LpElement.bytes LpElement.text (es.take 65535)
    (fun e _ rest => readListpackEntry_bytes e rest) (b :: tail)
  rw [hcount] at hentries
  refine ⟨tail, ?_⟩
  have hsplit : es.flatMap LpElement.bytes ++ [0xFF] =
      (es.take 65535).flatMap LpElement.bytes ++ (b :: tail) := by
    rw [← hb, ← List.append_assoc, ← List.flatMap_append, List.take_append_drop]
  simp only [listpackBody, listpackBytes, List.append_assoc, EStateM.run_bind, readUint32_leBytes]
  rw [hsplit, readUint16_leBytes]
  simp only [UInt16.toNat_ofNat', Nat.mod_eq_of_lt (show min es.length 65535 < 2 ^ 16 by omega),
    hentries, readByte_run, EStateM.run_pure]

/-- `ReadListpack` on an RDB string holding a listpack returns the strings of its first
`65535` elements. -/
theorem readListpack_listpackBytes (es : List LpElement) (enc : Bytes)
    (hs : ∀ rest, readString.run (enc ++ rest) = .ok (listpackBytes es) rest) (rest : Bytes) :
    readListpack.run (enc ++ rest) = .ok ((es.take 65535).map LpElement.text) rest := by
  obtain ⟨tail, hbody⟩ := listpackBody_listpackBytes es
  simp only [readListpack, EStateM.run_bind, hs, readWithin, hbody, liftExcept, EStateM.run_pure]

/-- A listpack of `65536` zeros, written with the count `65535` as Redis writes it, is read
as `65535` strings: the last element is taken for the end marker. -/
theorem readListpack_drops_past_65535 :
    readListpack.run (newEncoder.encodeString (listpackBytes (List.replicate 65536 (.uint7 0 (Nat.two_pow_pos 7))))).written =
      .ok (List.replicate 65535 (intText 0)) [] := by
  have hbody : ∀ n, ((List.replicate n (LpElement.uint7 0 (Nat.two_pow_pos 7))).flatMap LpElement.bytes).length = 2 * n := by
    intro n
    induction n with
    | zero => rfl
    | succ n ih =>
      rw [List.replicate_succ, List.flatMap_cons, List.length_append, ih,
        show (LpElement.uint7 0 (Nat.two_pow_pos 7)).bytes.length = 2 from rfl]
      omega
  -- by rewriting only: simp would spell out the 65536 elements
  have hlen : (listpackBytes (List.replicate 65536 (.uint7 0 (Nat.two_pow_pos 7)))).length < 2 ^ 32 := by
    rw [listpackBytes, List.length_append, List.length_append, List.length_append, leBytes_length, leBytes_length,
      hbody, List.length_singleton]
    norm_num
  rw [← List.append_nil (newEncoder.encodeString _).written,
    readListpack_listpackBytes _ _ (fun rest => readString_encodeString _ rest hlen),
    List.take_replicate, List.map_replicate, min_eq_left (by norm_num), LpElement.text, Nat.cast_zero]

end WeedgePkg.Rdb
