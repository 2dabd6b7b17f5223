import WeedgePkg.RdbTypes
import WeedgePkg.RdbStringCodec

/-!
# Dumps and what `DecodeDump` and `ParseObject` make of them

A dump is the object's payload, then the version and the CRC-64/Jones of both. `DecodeDump`
reads the type byte and the object and never looks at the footer, so a string, list, set or
hash comes back as it was dumped, a hash in the order its map is visited. A sorted set does
not: the first score that parses ends the loop with `nil`. `ParseObject` keeps the key of
every object but a sorted set, whose `Rewrite` therefore targets the empty key.
-/

namespace WeedgePkg.Rdb
open Decimal GoFloat

theorem encodeDumpFooter_append (e : Encoder) : ∃ footer, e.encodeDumpFooter.written = e.written ++ footer :=
  ⟨_, (encodeDumpFooter_written e).trans (List.append_assoc _ _ _)⟩

theorem decodeDump_of_run (order : AssocMap.IterOrder Bytes Bytes) {t : UInt8} {rest rest' : Bytes}
    {o : Option RedisObject} (h : (parseObject t []).run rest = .ok o rest') :
    decodeDump order (t :: rest) = .ok (dumpResult order o) := by
  simp only [decodeDump, EStateM.run_bind, readByte_run, h]

theorem stringsPayload_written (typ : UInt8) (v : List Bytes) :
    (stringsPayload typ v).written =
      typ :: (newEncoder.encodeLength (UInt32.ofNat v.length)).written ++
        v.flatMap fun s => (newEncoder.encodeString s).written := by
  rw [stringsPayload, foldl_encodeString_written, encodeLength_written, Encoder.encodeType,
    Encoder.write_written]
  rfl

theorem readStrings_run (v : List Bytes) (hv : ∀ s ∈ v, s.length < 2 ^ 32) (rest : Bytes) :
    (readCount readString v.length).run ((v.flatMap fun s => (newEncoder.encodeString s).written) ++ rest) =
      .ok v rest :=
  readCount_run readString _ v (fun s hs rest => readString_encodeString s rest (hv s hs)) rest

/-! ## Round trips -/

theorem decodeDump_dumpStringValue (order : AssocMap.IterOrder Bytes Bytes) (s : Bytes)
    (hs : s.length < 2 ^ 32) :
    decodeDump order (dumpStringValue s) = .ok (some (.string s), none) := by
  obtain ⟨footer, hf⟩ := encodeDumpFooter_append (stringPayload s)
  have h : (parseObject rdbTypeString []).run ((newEncoder.encodeString s).written ++ footer) =
      .ok (some (.string [] s)) footer := by
    show (do let value ← readString; pure (some (RedisObject.string [] value))).run _ = _
    rw [EStateM.run_bind, readString_encodeString s footer hs]
    rfl
  rw [dumpStringValue, hf, stringPayload, encodeString_written, Encoder.encodeType, Encoder.write_written]
  rw [show newEncoder.written ++ [rdbTypeString] = [rdbTypeString] from rfl, List.singleton_append,
    List.cons_append, decodeDump_of_run order h]
  rfl

theorem decodeDump_dumpListValue (order : AssocMap.IterOrder Bytes Bytes) (v : List Bytes)
    (hn : v.length < 2 ^ 32) (hv : ∀ s ∈ v, s.length < 2 ^ 32) :
    decodeDump order (dumpListValue v) = .ok (some (.list v), none) := by
  obtain ⟨footer, hf⟩ := encodeDumpFooter_append (stringsPayload rdbTypeList v)
  have h : (parseObject rdbTypeList []).run ((newEncoder.encodeLength (UInt32.ofNat v.length)).written ++
      (v.flatMap fun s => (newEncoder.encodeString s).written) ++ footer) = .ok (some (.list [] v)) footer := by
    show (do let elements ← readList; pure (some (RedisObject.list [] elements))).run _ = _
    simp only [readList, List.append_assoc, EStateM.run_bind, readLength_encodeLength, goInt_length _ hn,
      Int.toNat_natCast, readStrings_run v hv, EStateM.run_pure]
  rw [dumpListValue, hf, stringsPayload_written, List.cons_append, List.cons_append, decodeDump_of_run order h]
  rfl

theorem decodeDump_dumpSetValue (order : AssocMap.IterOrder Bytes Bytes) (v : List Bytes)
    (hn : v.length < 2 ^ 32) (hv : ∀ s ∈ v, s.length < 2 ^ 32) :
    decodeDump order (dumpSetValue v) = .ok (some (.set v), none) := by
  obtain ⟨footer, hf⟩ := encodeDumpFooter_append (stringsPayload rdbTypeSet v)
  have h : (parseObject rdbTypeSet []).run ((newEncoder.encodeLength (UInt32.ofNat v.length)).written ++
      (v.flatMap fun s => (newEncoder.encodeString s).written) ++ footer) = .ok (some (.set [] v)) footer := by
    -- the size is not negative, so `make([]string, size)` does not panic
    have hpos : ¬ (v.length : ℤ) < 0 := by omega
    show (do let elements ← readSet; pure (some (RedisObject.set [] elements))).run _ = _
    simp only [readSet, List.append_assoc, EStateM.run_bind, readLength_encodeLength, goInt_length _ hn, hpos,
      ↓reduceIte, Int.toNat_natCast, readStrings_run v hv, EStateM.run_pure]
  rw [dumpSetValue, hf, stringsPayload_written, List.cons_append, List.cons_append, decodeDump_of_run order h]
  rfl

theorem decodeDump_dumpHashValue (order : AssocMap.IterOrder Bytes Bytes) (v : List (Bytes × Bytes))
    (hn : v.length < 2 ^ 32) (hv : ∀ p ∈ v, p.1.length < 2 ^ 32 ∧ p.2.length < 2 ^ 32)
    (hkeys : AssocMap.NodupKeys v) :
    decodeDump order (dumpHashValue v) = .ok (some (.hash (order.arrange v)), none) := by
  obtain ⟨footer, hf⟩ := encodeDumpFooter_append (hashPayload v)
  have hpair : ∀ p ∈ v, ∀ rest, (do let key ← readString; let value ← readString; pure (key, value)).run
      ((newEncoder.encodeString p.1).written ++ (newEncoder.encodeString p.2).written ++ rest) = .ok p rest := by
    intro p hp rest
    simp only [List.append_assoc, EStateM.run_bind, readString_encodeString _ _ (hv p hp).1,
      readString_encodeString _ _ (hv p hp).2, EStateM.run_pure]
  have h : (parseObject rdbTypeHash []).run ((newEncoder.encodeLength (UInt32.ofNat v.length)).written ++
      (v.flatMap fun p => (newEncoder.encodeString p.1).written ++ (newEncoder.encodeString p.2).written) ++
        footer) = .ok (some (.hash [] v)) footer := by
    -- distinct fields: assigning them in turn builds the list itself
    show (do let value ← readHash; pure (some (RedisObject.hash [] value))).run _ = _
    simp only [readHash, List.append_assoc, EStateM.run_bind, readLength_encodeLength, goInt_length _ hn,
      Int.toNat_natCast, readCount_run _ _ v hpair footer, EStateM.run_pure,
      AssocMap.ofEntries_of_nodupKeys hkeys]
  rw [dumpHashValue, hf, hashPayload, foldl_encodePair_written, encodeLength_written, Encoder.encodeType,
    Encoder.write_written, show newEncoder.written ++ [rdbTypeHash] = [rdbTypeHash] from rfl]
  simp only [List.cons_append, List.nil_append]
  rw [decodeDump_of_run order h]
  rfl

/-- `DecodeDump` inverts `DumpStringValue`, `DumpListValue` and `DumpSetValue`, and
`DumpHashValue` up to the order in which the decoded map is visited, for every visiting
order. -/
theorem dump_decode_roundtrip (order : AssocMap.IterOrder Bytes Bytes) :
    (∀ s : Bytes, s.length < 2 ^ 32 → decodeDump order (dumpStringValue s) = .ok (some (.string s), none)) ∧
    (∀ v : List Bytes, v.length < 2 ^ 32 → (∀ s ∈ v, s.length < 2 ^ 32) →
      decodeDump order (dumpListValue v) = .ok (some (.list v), none) ∧
      decodeDump order (dumpSetValue v) = .ok (some (.set v), none)) ∧
    (∀ h : List (Bytes × Bytes), h.length < 2 ^ 32 → (∀ p ∈ h, p.1.length < 2 ^ 32 ∧ p.2.length < 2 ^ 32) →
      AssocMap.NodupKeys h →
      ∃ h', decodeDump order (dumpHashValue h) = .ok (some (.hash h'), none) ∧ h'.Perm h) := by
  refine ⟨fun s hs => decodeDump_dumpStringValue order s hs, fun v hn hv => ?_, fun h hn hv hkeys => ?_⟩
  · exact ⟨decodeDump_dumpListValue order v hn hv, decodeDump_dumpSetValue order v hn hv⟩
  · exact ⟨order.arrange h, decodeDump_dumpHashValue order h hn hv hkeys, order.perm h⟩

theorem dump_decode_roundtrip_ints :
    decodeDump .insertion (dumpListValue [ascii "-128", ascii "128", ascii "-32769", ascii "2147483648",
      ascii "007", ascii "-0", ascii "+1"]) =
      .ok (some (.list [ascii "-128", ascii "128", ascii "-32769", ascii "2147483648",
        ascii "007", ascii "-0", ascii "+1"]), none) :=
  ((dump_decode_roundtrip .insertion).2.1 _ (by decide) (by decide)).1

/-! ## Footers -/

/-- Every dump ends with the version and the CRC-64/Jones of the payload and the version;
the table-driven digest is the bitwise CRC, and the encoder's digest has seen exactly the
bytes it wrote. -/
theorem dump_footer_crc_jones :
    (∀ b, crc64 0 b = crcJones b) ∧ crcJones (ascii "123456789") = 0xe9c6d914c4b8d9ca ∧
    (∀ e : Encoder, e.crc = crcJones e.written) ∧
    (∀ v, dumpStringValue v =
      (stringPayload v).written ++ [6, 0] ++ le64 (crcJones ((stringPayload v).written ++ [6, 0]))) ∧
    (∀ v, dumpListValue v = (stringsPayload rdbTypeList v).written ++ [6, 0] ++
      le64 (crcJones ((stringsPayload rdbTypeList v).written ++ [6, 0]))) ∧
    (∀ v, dumpSetValue v = (stringsPayload rdbTypeSet v).written ++ [6, 0] ++
      le64 (crcJones ((stringsPayload rdbTypeSet v).written ++ [6, 0]))) ∧
    (∀ v, dumpHashValue v =
      (hashPayload v).written ++ [6, 0] ++ le64 (crcJones ((hashPayload v).written ++ [6, 0]))) ∧
    (∀ v, dumpZSetValue v =
      (zsetPayload v).written ++ [6, 0] ++ le64 (crcJones ((zsetPayload v).written ++ [6, 0]))) :=
  ⟨digestOf_eq_crcJones, crcJones_check, fun e => e.crc_eq.trans (digestOf_eq_crcJones _),
    fun _ => encodeDumpFooter_written _, fun _ => encodeDumpFooter_written _,
    fun _ => encodeDumpFooter_written _, fun _ => encodeDumpFooter_written _,
    fun _ => encodeDumpFooter_written _⟩

/-! ## Sorted sets -/

/-- `DecodeDump(DumpZSetValue(ZSet{{"a", 1}}))` is `nil, nil`: the score `"1.000000"` parses,
and the branch returns on a parse without error. -/
theorem decodeDump_zset_nil (order : AssocMap.IterOrder Bytes Bytes) :
    decodeDump order (dumpZSetValue [(ascii "a", ofInt 1)]) = .ok (none, none) := by
  have hrun : (do let t ← readByte; parseObject t []).run (dumpZSetValue [(ascii "a", ofInt 1)]) =
      .ok (some (.zset [] [⟨ascii "a", ascii "1.000000"⟩])) ((dumpZSetValue [(ascii "a", ofInt 1)]).drop 6) := by
    decide +kernel
  have hscores : decodeZSetScores [⟨ascii "a", ascii "1.000000"⟩] = .error none := by
    decide +kernel
  simp only [decodeDump, hrun, dumpResult, hscores]

theorem parseObject_zset {typeByte : UInt8} (htype : typeByte = rdbTypeZSet ∨ typeByte = rdbTypeZSet2 ∨
    typeByte = rdbTypeZSetZiplist ∨ typeByte = rdbTypeZSetListpack) (key : Bytes) :
    parseObject typeByte key =
      (do let elements ← zsetLoadFromBuffer typeByte; pure (some (.zset [] elements))) := by
  rcases htype with rfl | rfl | rfl | rfl <;> rfl

/-- Whatever key it is given, `ParseObject` builds a sorted set under the empty key, and every
`zadd` of its `Rewrite` targets that key. -/
theorem zset_rewrite_empty_key (order : AssocMap.IterOrder Bytes Bytes) {typeByte : UInt8}
    (htype : typeByte = rdbTypeZSet ∨ typeByte = rdbTypeZSet2 ∨ typeByte = rdbTypeZSetZiplist ∨
      typeByte = rdbTypeZSetListpack)
    (key inp : Bytes) {o : RedisObject} {rest : Bytes}
    (h : (parseObject typeByte key).run inp = .ok (some o) rest) :
    ∃ es, o = .zset [] es ∧ o.rewrite order = es.map fun e => [ascii "zadd", [], e.score, e.member] := by
  rw [parseObject_zset htype, EStateM.run_bind] at h
  cases hload : (zsetLoadFromBuffer typeByte).run inp with
  | ok es rest' =>
    rw [hload] at h
    cases h
    exact ⟨es, rfl, rfl⟩
  | error e rest' =>
    rw [hload] at h
    cases h

theorem zset_rewrite_empty_key_k :
    ∃ es, RedisObject.zset [] [⟨ascii "a", ascii "1.000000"⟩] = .zset [] es ∧
      (RedisObject.zset [] [⟨ascii "a", ascii "1.000000"⟩]).rewrite .insertion =
        es.map fun e => [ascii "zadd", [], e.score, e.member] :=
  zset_rewrite_empty_key .insertion (Or.inl rfl) (ascii "k") [1, 1, 97, 1, 49]
    (show (parseObject rdbTypeZSet (ascii "k")).run [1, 1, 97, 1, 49] =
      .ok (some (.zset [] [⟨ascii "a", ascii "1.000000"⟩])) [] by decide +kernel)

end WeedgePkg.Rdb
