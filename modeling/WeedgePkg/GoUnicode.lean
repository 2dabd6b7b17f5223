import WeedgePkg.GoFloat

/-!
# UTF-8, `unicode.ToLower` and `unicode.IsSpace`

Runes are `rune` values as integers. `unicode.CaseRanges` is generated from the Unicode data
and enters as a `CaseTable`: any table, sorted, whose lower-case mapping sends valid runes to
valid runes and is idempotent, as Unicode's simple lower-case mapping is. `White_Space` is
small and stable and is written out.
-/

namespace WeedgePkg.Unicode

open Decimal GoFloat

def runeError : ℤ := 0xFFFD

def maxRune : ℤ := 0x10FFFF

def ValidRune (r : ℤ) : Prop := 0 ≤ r ∧ r ≤ maxRune ∧ ¬(0xD800 ≤ r ∧ r ≤ 0xDFFF)

instance : DecidablePred ValidRune := fun r =>
  inferInstanceAs (Decidable (0 ≤ r ∧ r ≤ maxRune ∧ ¬(0xD800 ≤ r ∧ r ≤ 0xDFFF)))

/-! ## Encoding and decoding

The masks and shifts of `unicode/utf8` are written as `/` and `%` by powers of two. -/

def encode2 (n : ℕ) : Bytes := [UInt8.ofNat (0xC0 + n / 64), UInt8.ofNat (0x80 + n % 64)]

def encode3 (n : ℕ) : Bytes :=
  [UInt8.ofNat (0xE0 + n / 4096), UInt8.ofNat (0x80 + n / 64 % 64), UInt8.ofNat (0x80 + n % 64)]

def encode4 (n : ℕ) : Bytes :=
  [UInt8.ofNat (0xF0 + n / 262144), UInt8.ofNat (0x80 + n / 4096 % 64), UInt8.ofNat (0x80 + n / 64 % 64),
    UInt8.ofNat (0x80 + n % 64)]

/-- `utf8.AppendRune(nil, r)`, the bytes `EncodeRune` writes. -/
def encodeRune (r : ℤ) : Bytes :=
  if 0 ≤ r ∧ r ≤ 0x7F then [UInt8.ofNat r.toNat]
  else if 0 ≤ r ∧ r ≤ 0x7FF then encode2 r.toNat
  else if r < 0 ∨ maxRune < r ∨ (0xD800 ≤ r ∧ r ≤ 0xDFFF) then encode3 runeError.toNat
  else if r ≤ 0xFFFF then encode3 r.toNat
  else encode4 r.toNat

/-- The entry of `utf8.first` for a byte that starts a sequence of two to four bytes: the
sequence's length and the `acceptRanges` bounds of its second byte. -/
def acceptRange (p0 : ℕ) : Option (ℕ × ℕ × ℕ) :=
  if p0 < 0xC2 then none
  else if p0 ≤ 0xDF then some (2, 0x80, 0xBF)
  else if p0 = 0xE0 then some (3, 0xA0, 0xBF)
  else if p0 = 0xED then some (3, 0x80, 0x9F)
  else if p0 ≤ 0xEF then some (3, 0x80, 0xBF)
  else if p0 = 0xF0 then some (4, 0x90, 0xBF)
  else if p0 ≤ 0xF3 then some (4, 0x80, 0xBF)
  else if p0 = 0xF4 then some (4, 0x80, 0x8F)
  else none

/-- `utf8.DecodeRune(p)`: the first rune of `p` and its width. -/
def decodeRune (p : Bytes) : ℤ × ℕ :=
  match p with
  | [] => (runeError, 0)
  | p0 :: _ =>
    match acceptRange p0.toNat with
    | none => if p0.toNat < 0x80 then ((p0.toNat : ℤ), 1) else (runeError, 1)
    | some (sz, lo, hi) =>
      if p.length < sz then (runeError, 1)
      else
        let b1 := (p.getD 1 0).toNat
        if b1 < lo ∨ hi < b1 then (runeError, 1)
        else if sz ≤ 2 then (((p0.toNat % 32 * 64 + b1 % 64 : ℕ) : ℤ), 2)
        else
          let b2 := (p.getD 2 0).toNat
          if b2 < 0x80 ∨ 0xBF < b2 then (runeError, 1)
          else if sz ≤ 3 then (((p0.toNat % 16 * 4096 + b1 % 64 * 64 + b2 % 64 : ℕ) : ℤ), 3)
          else
            let b3 := (p.getD 3 0).toNat
            if b3 < 0x80 ∨ 0xBF < b3 then (runeError, 1)
            else (((p0.toNat % 8 * 262144 + b1 % 64 * 4096 + b2 % 64 * 64 + b3 % 64 : ℕ) : ℤ), 4)

/-- The runes `for _, r := range s` visits, in at most `fuel` steps. -/
def runesFuel : ℕ → Bytes → List ℤ
  | 0, _ => []
  | _ + 1, [] => []
  | n + 1, p@(_ :: _) => (decodeRune p).1 :: runesFuel n (p.drop (decodeRune p).2)

/-- The runes of `s`; each step takes at least one byte, so `s.length` steps are enough. -/
def runes (s : Bytes) : List ℤ := runesFuel s.length s

def runeStart (b : UInt8) : Bool := b.toNat / 64 ≠ 2

/-- The loop `for start--; start >= lim; start--` of `DecodeLastRune`, entered with
`start = i - 1`: where it stops, `-1` clamped to `0`. -/
def lastStart (p : Bytes) (lim : ℕ) : ℕ → ℕ
  | 0 => 0
  | j + 1 => if j < lim ∨ runeStart (p.getD j 0) then j else lastStart p lim j

/-- `utf8.DecodeLastRune(p)`: the last rune of `p` and its width. -/
def decodeLastRune (p : Bytes) : ℤ × ℕ :=
  match p.getLast? with
  | none => (runeError, 0)
  | some b =>
    if b.toNat < 0x80 then ((b.toNat : ℤ), 1)
    else
      let start := lastStart p (p.length - 4) (p.length - 1)
      let d := decodeRune (p.drop start)
      if start + d.2 ≠ p.length then (runeError, 1) else d

/-! ## `unicode.ToLower` -/

/-- `UpperCase`, `LowerCase` and `TitleCase`, the indices of a `CaseRange`'s deltas. -/
inductive Case where
  | upper
  | lower
  | title
  deriving DecidableEq, Repr

/-- `unicode.CaseRange`: runes `lo` to `hi` and their deltas to upper, lower and title case. -/
structure CaseRange where
  lo : ℕ
  hi : ℕ
  delta : ℤ × ℤ × ℤ
  deriving DecidableEq, Repr

def CaseRange.deltaAt (cr : CaseRange) : Case → ℤ
  | .upper => cr.delta.1
  | .lower => cr.delta.2.1
  | .title => cr.delta.2.2

/-- `_case & 1` -/
def Case.lowBit : Case → ℤ
  | .lower => 1
  | _ => 0

/-- `UpperLower`, the delta of a run that alternates upper and lower case. -/
def upperLower : ℤ := maxRune + 1

/-- `unicode.to(_case, r, caseRange)`. The binary search finds the range that holds `r`; a scan
finds the same one, the table being sorted. -/
def toCase (c : Case) (r : ℤ) (caseRange : List CaseRange) : ℤ × Bool :=
  match caseRange.find? (fun cr => decide ((cr.lo : ℤ) ≤ r ∧ r ≤ cr.hi)) with
  | none => (r, false)
  | some cr =>
    if maxRune < cr.deltaAt c then
      -- upper case at the even offsets of the run, lower case at the odd ones
      ((cr.lo : ℤ) + ((r - cr.lo) / 2 * 2 + c.lowBit), true)
    else (r + cr.deltaAt c, true)

def toLower (caseRanges : List CaseRange) (r : ℤ) : ℤ :=
  if r ≤ 0x7F then (if 65 ≤ r ∧ r ≤ 90 then r + 32 else r)
  else (toCase .lower r caseRanges).1

def toUpper (caseRanges : List CaseRange) (r : ℤ) : ℤ :=
  if r ≤ 0x7F then (if 97 ≤ r ∧ r ≤ 122 then r - 32 else r)
  else (toCase .upper r caseRanges).1

/-- `unicode.CaseRanges`: sorted, with a lower-case mapping that keeps runes valid and is
idempotent. -/
structure CaseTable where
  ranges : List CaseRange
  sorted : ranges.Pairwise fun a b => a.hi < b.lo
  toLower_valid : ∀ r, ValidRune r → ValidRune (toLower ranges r)
  toLower_toLower : ∀ r, ValidRune r → toLower ranges (toLower ranges r) = toLower ranges r

theorem toCase_nil (c : Case) (r : ℤ) : toCase c r [] = (r, false) := rfl

theorem toCase_cons (c : Case) (r : ℤ) (cr : CaseRange) (rest : List CaseRange) :
    toCase c r (cr :: rest) =
      if (cr.lo : ℤ) ≤ r ∧ r ≤ cr.hi then
        (if maxRune < cr.deltaAt c then ((cr.lo : ℤ) + ((r - cr.lo) / 2 * 2 + c.lowBit), true)
        else (r + cr.deltaAt c, true))
      else toCase c r rest := by
  unfold toCase
  by_cases h : (cr.lo : ℤ) ≤ r ∧ r ≤ cr.hi <;> simp [h]

/-! ## `unicode.IsSpace` -/

/-- `unicode.White_Space.R16`: low, high and stride. -/
def whiteSpace : List (ℕ × ℕ × ℕ) :=
  [(0x0009, 0x000D, 1), (0x0020, 0x0085, 101), (0x00A0, 0x1680, 5600), (0x2000, 0x200A, 1),
    (0x2028, 0x2029, 1), (0x202F, 0x205F, 48), (0x3000, 0x3000, 1)]

def latinOffset : ℕ := 2

/-- `unicode.is16(ranges, r)` for a table short enough to be scanned. -/
def is16 : List (ℕ × ℕ × ℕ) → ℕ → Bool
  | [], _ => false
  | (lo, hi, stride) :: rest, r =>
    if r < lo then false
    else if r ≤ hi then stride = 1 || (r - lo) % stride = 0
    else is16 rest r

/-- `unicode.IsSpace(r)`: Latin-1 by a switch, the rest through `White_Space`. -/
def isSpace (r : ℤ) : Bool :=
  if 0 ≤ r ∧ r ≤ 0xFF then
    r = 9 || r = 10 || r = 11 || r = 12 || r = 13 || r = 32 || r = 0x85 || r = 0xA0
  else if 0 ≤ r ∧ r ≤ 0x3000 then is16 (whiteSpace.drop latinOffset) r.toNat
  else false

/-! ## Decoding after encoding -/

theorem acceptRange_eq_some {p0 sz lo hi : ℕ} (h : acceptRange p0 = some (sz, lo, hi)) :
    0xC2 ≤ p0 ∧ p0 ≤ 0xF4 ∧
      (sz = 2 ∧ p0 ≤ 0xDF ∨ sz = 3 ∧ 0xE0 ≤ p0 ∧ p0 ≤ 0xEF ∨ sz = 4 ∧ 0xF0 ≤ p0) ∧
      (lo = 0xA0 ∧ p0 = 0xE0 ∨ lo = 0x90 ∧ p0 = 0xF0 ∨ lo = 0x80 ∧ p0 ≠ 0xE0 ∧ p0 ≠ 0xF0) ∧
      (hi = 0x9F ∧ p0 = 0xED ∨ hi = 0x8F ∧ p0 = 0xF4 ∨ hi = 0xBF ∧ p0 ≠ 0xED ∧ p0 ≠ 0xF4) := by
  unfold acceptRange at h
  split_ifs at h <;> cases h <;> omega

theorem acceptRange_isSome (p0 : ℕ) (h : 0xC2 ≤ p0 ∧ p0 ≤ 0xF4) : ∃ sz lo hi, acceptRange p0 = some (sz, lo, hi) := by
  unfold acceptRange
  split_ifs <;> first | omega | exact ⟨_, _, _, rfl⟩

theorem validRune_of_lt {r : ℤ} (h0 : 0 ≤ r) (h : r < 0x80) : ValidRune r := by
  refine ⟨h0, ?_, by omega⟩
  simp only [maxRune]
  omega

theorem decodeRune_width_pos {p : Bytes} (hp : p ≠ []) : 1 ≤ (decodeRune p).2 := by
  obtain ⟨p0, rest, rfl⟩ := List.exists_cons_of_ne_nil hp
  simp only [decodeRune]
  split <;> split_ifs <;> simp

/-- Every rune the decoder returns is valid: `RuneError` or a rune in its shortest form. -/
theorem decodeRune_valid (p : Bytes) : ValidRune (decodeRune p).1 := by
  have herr : ValidRune runeError := by decide
  cases p with
  | nil => exact herr
  | cons p0 rest =>
    simp only [decodeRune]
    split
    · split
      · exact validRune_of_lt (by omega) (by omega)
      · exact herr
    · rename_i sz lo hi hacc
      have hr := acceptRange_eq_some hacc
      have h0 := p0.toNat_lt
      have h1 := (rest[0]?.getD 0).toNat_lt
      have h2 := (rest[1]?.getD 0).toNat_lt
      have h3 := (rest[2]?.getD 0).toNat_lt
      simp only [ValidRune, maxRune]
      split_ifs <;> simp only [runeError] <;> omega

theorem toNat_ofNat_of_lt {n : ℕ} (h : n < 256) : (UInt8.ofNat n).toNat = n := by
  simp [Nat.mod_eq_of_lt h]

theorem encodeRune_of_lt {r : ℤ} (h0 : 0 ≤ r) (h : r ≤ 0x7F) : encodeRune r = [UInt8.ofNat r.toNat] := by
  simp [encodeRune, h0, h]

theorem decodeRune_ascii (b : UInt8) (rest : Bytes) (hb : b.toNat < 0x80) :
    decodeRune (b :: rest) = ((b.toNat : ℤ), 1) := by
  have hacc : acceptRange b.toNat = none := by
    unfold acceptRange
    rw [if_pos (by omega)]
  simp [decodeRune, hacc, hb]

theorem decodeRune_encode2 {n : ℕ} (h : 0x80 ≤ n ∧ n ≤ 0x7FF) (rest : Bytes) :
    decodeRune (encode2 n ++ rest) = ((n : ℤ), 2) := by
  obtain ⟨sz, lo, hi, hacc⟩ := acceptRange_isSome (0xC0 + n / 64) (by omega)
  have hr := acceptRange_eq_some hacc
  simp only [decodeRune, encode2, List.cons_append, toNat_ofNat_of_lt (show 0xC0 + n / 64 < 256 by omega),
    toNat_ofNat_of_lt (show 0x80 + n % 64 < 256 by omega), hacc, List.getD_cons_succ, List.getD_cons_zero,
    List.length_cons]
  split_ifs <;> first | omega | (simp only [Prod.mk.injEq, and_true, Nat.cast_inj]; omega)

theorem decodeRune_encode3 {n : ℕ} (h : 0x800 ≤ n ∧ n ≤ 0xFFFF) (hs : ¬(0xD800 ≤ n ∧ n ≤ 0xDFFF))
    (rest : Bytes) : decodeRune (encode3 n ++ rest) = ((n : ℤ), 3) := by
  obtain ⟨sz, lo, hi, hacc⟩ := acceptRange_isSome (0xE0 + n / 4096) (by omega)
  have hr := acceptRange_eq_some hacc
  simp only [decodeRune, encode3, List.cons_append, toNat_ofNat_of_lt (show 0xE0 + n / 4096 < 256 by omega),
    toNat_ofNat_of_lt (show 0x80 + n / 64 % 64 < 256 by omega), toNat_ofNat_of_lt (show 0x80 + n % 64 < 256 by omega),
    hacc, List.getD_cons_succ, List.getD_cons_zero, List.length_cons]
  -- the second byte lies in the accepted range, whichever the lead byte is
  split_ifs <;> first | omega | (simp only [Prod.mk.injEq, and_true, Nat.cast_inj]; omega)

theorem decodeRune_encode4 {n : ℕ} (h : 0x10000 ≤ n ∧ n ≤ 0x10FFFF) (rest : Bytes) :
    decodeRune (encode4 n ++ rest) = ((n : ℤ), 4) := by
  obtain ⟨sz, lo, hi, hacc⟩ := acceptRange_isSome (0xF0 + n / 262144) (by omega)
  have hr := acceptRange_eq_some hacc
  simp only [decodeRune, encode4, List.cons_append, toNat_ofNat_of_lt (show 0xF0 + n / 262144 < 256 by omega),
    toNat_ofNat_of_lt (show 0x80 + n / 4096 % 64 < 256 by omega),
    toNat_ofNat_of_lt (show 0x80 + n / 64 % 64 < 256 by omega), toNat_ofNat_of_lt (show 0x80 + n % 64 < 256 by omega),
    hacc, List.getD_cons_succ, List.getD_cons_zero, List.length_cons]
  split_ifs <;> first | omega | (simp only [Prod.mk.injEq, and_true, Nat.cast_inj]; omega)

/-- The decoder reads back the rune the encoder wrote, and exactly its bytes. -/
theorem decodeRune_encodeRune {r : ℤ} (hr : ValidRune r) (rest : Bytes) :
    decodeRune (encodeRune r ++ rest) = (r, (encodeRune r).length) := by
  obtain ⟨h0, hmax, hs⟩ := hr
  simp only [maxRune] at hmax
  obtain ⟨n, rfl⟩ := Int.eq_ofNat_of_zero_le h0
  unfold encodeRune
  split_ifs with h1 h2 h3 h4
  · have hn : n < 256 := by omega
    rw [List.singleton_append, Int.toNat_natCast,
      decodeRune_ascii _ rest (by rw [toNat_ofNat_of_lt hn]; omega), toNat_ofNat_of_lt hn]
    rfl
  · simpa [encode2] using decodeRune_encode2 (n := n) (by omega) rest
  · simp only [maxRune] at h3
    omega
  · simpa [encode3] using decodeRune_encode3 (n := n) (by omega) (by omega) rest
  · simpa [encode4] using decodeRune_encode4 (n := n) (by omega) rest

theorem runesFuel_eq {n m : ℕ} {p : Bytes} (hn : p.length ≤ n) (hm : p.length ≤ m) :
    runesFuel n p = runesFuel m p := by
  induction n generalizing m p with
  | zero =>
    rw [List.eq_nil_of_length_eq_zero (Nat.le_zero.mp hn)]
    cases m <;> rfl
  | succ n ih =>
    match p, m, hm with
    | [], 0, _ | [], _ + 1, _ => rfl
    | b :: rest, m + 1, hm =>
      -- both take the first rune, then go on from the same bytes with enough fuel
      have hw := decodeRune_width_pos (p := b :: rest) (List.cons_ne_nil b rest)
      simp only [runesFuel, List.cons.injEq, true_and]
      apply ih <;> simp only [List.length_drop, List.length_cons] at hn hm ⊢ <;> omega

theorem runes_encodeRune_append {r : ℤ} (hr : ValidRune r) (rest : Bytes) :
    runes (encodeRune r ++ rest) = r :: runes rest := by
  have hd := decodeRune_encodeRune hr rest
  have hdrop : (encodeRune r ++ rest).drop (encodeRune r).length = rest := List.drop_left
  obtain ⟨b, e, he⟩ : ∃ b e, encodeRune r = b :: e := by
    unfold encodeRune encode2 encode3 encode4
    split_ifs <;> exact ⟨_, _, rfl⟩
  rw [he, List.cons_append] at hd hdrop ⊢
  rw [List.length_cons] at hdrop
  simp only [runes, List.length_cons, runesFuel, hd, List.cons.injEq, true_and, hdrop]
  exact runesFuel_eq (by simp) le_rfl

/-- Decoding after encoding: the runes of valid runes' bytes are those runes. -/
theorem runes_flatMap_encodeRune : ∀ {rs : List ℤ}, (∀ r ∈ rs, ValidRune r) →
    runes (rs.flatMap encodeRune) = rs
  | [], _ => rfl
  | r :: rs, h => by
    rw [List.flatMap_cons, runes_encodeRune_append (h r List.mem_cons_self),
      runes_flatMap_encodeRune fun r' hr' => h r' (List.mem_cons_of_mem r hr')]

theorem runes_valid (s : Bytes) : ∀ r ∈ runes s, ValidRune r := by
  suffices h : ∀ n (p : Bytes), ∀ r ∈ runesFuel n p, ValidRune r from h _ s
  intro n
  induction n with
  | zero => simp [runesFuel]
  | succ n ih =>
    intro p r hr
    match p with
    | [] => simp [runesFuel] at hr
    | b :: rest =>
      simp only [runesFuel, List.mem_cons] at hr
      rcases hr with rfl | hr
      · exact decodeRune_valid _
      · exact ih _ r hr

theorem runes_cons_of_lt (b : UInt8) (s : Bytes) (hb : b.toNat < 0x80) :
    runes (b :: s) = (b.toNat : ℤ) :: runes s := by
  have hvalid : ValidRune (b.toNat : ℤ) := validRune_of_lt (by omega) (by omega)
  have he : encodeRune (b.toNat : ℤ) = [b] := by
    rw [encodeRune_of_lt (by omega) (by omega)]
    simp
  simpa [he] using runes_encodeRune_append hvalid s

/-! ## A table to run the model on -/

/-- The rows of `unicode.CaseRanges` for the upper-case letters of Latin-1, `À` to `Þ`. -/
def latin1Upper : List CaseRange := [⟨0xC0, 0xD6, (0, 32, 0)⟩, ⟨0xD8, 0xDE, (0, 32, 0)⟩]

theorem toLower_latin1Upper (r : ℤ) :
    toLower latin1Upper r =
      if 65 ≤ r ∧ r ≤ 90 ∨ 0xC0 ≤ r ∧ r ≤ 0xD6 ∨ 0xD8 ≤ r ∧ r ≤ 0xDE then r + 32 else r := by
  unfold toLower
  simp only [latin1Upper, toCase_cons, toCase_nil, CaseRange.deltaAt, maxRune, Int.reduceLT, if_false]
  split_ifs <;> omega

/-- A table of the upper-case letters of Latin-1 only, to evaluate the model on. -/
def latin1Table : CaseTable where
  ranges := latin1Upper
  sorted := by decide
  toLower_valid r hr := by
    rw [toLower_latin1Upper]
    obtain ⟨h0, hmax, hs⟩ := hr
    unfold maxRune at hmax
    split_ifs <;> exact ⟨by omega, by unfold maxRune; omega, by omega⟩
  toLower_toLower r _ := by
    rw [toLower_latin1Upper, toLower_latin1Upper]
    split_ifs <;> omega

end WeedgePkg.Unicode
