import WeedgePkg.GoUnicode

/-!
# `strings.Map`, `ToLower`, `ToUpper` and `TrimSpace`

Each takes Go's fast path on ASCII text and otherwise works rune by rune over the UTF-8 of
the string, a byte that does not start a valid encoding being read as `RuneError`. The case
mappings are those of a `CaseTable`.
-/

namespace WeedgePkg.Strings

open Decimal GoFloat Unicode

/-- `strings.Map(mapping, s)`. The bytes `Map` copies unchanged are those the runes it keeps
encode to. -/
def map (mapping : ℤ → ℤ) (s : Bytes) : Bytes :=
  (runes s).flatMap fun c => if 0 ≤ mapping c then encodeRune (mapping c) else []

def toLower (tables : CaseTable) (s : Bytes) : Bytes :=
  if s.all (· < 0x80) then s.map toLowerAscii else map (Unicode.toLower tables.ranges) s

def toUpperAscii (c : UInt8) : UInt8 := if 97 ≤ c ∧ c ≤ 122 then c - 32 else c

def toUpper (tables : CaseTable) (s : Bytes) : Bytes :=
  if s.all (· < 0x80) then s.map toUpperAscii else map (Unicode.toUpper tables.ranges) s

/-- `asciiSpace`: `'\t'`, `'\n'`, `'\v'`, `'\f'`, `'\r'` and `' '`. -/
def isAsciiSpace (c : UInt8) : Bool :=
  c = 9 || c = 10 || c = 11 || c = 12 || c = 13 || c = 32

/-- `strings.TrimLeftFunc(s, f)` in at most `fuel` runes. -/
def trimLeftFuel (f : ℤ → Bool) : ℕ → Bytes → Bytes
  | 0, s => s
  | _ + 1, [] => []
  | n + 1, s@(_ :: _) => if f (decodeRune s).1 then trimLeftFuel f n (s.drop (decodeRune s).2) else s

def trimLeftFunc (s : Bytes) (f : ℤ → Bool) : Bytes := trimLeftFuel f s.length s

/-- `lastIndexFunc(s, f, false)` in at most `fuel` runes: where the last rune `f` rejects starts. -/
def lastIndexFuel (f : ℤ → Bool) : ℕ → Bytes → Option ℕ
  | 0, _ => none
  | _ + 1, [] => none
  | n + 1, p@(_ :: _) =>
    if f (decodeLastRune p).1 then lastIndexFuel f n (p.take (p.length - (decodeLastRune p).2))
    else some (p.length - (decodeLastRune p).2)

def trimRightFunc (s : Bytes) (f : ℤ → Bool) : Bytes :=
  match lastIndexFuel f s.length s with
  | none => []
  | some i => if 0x80 ≤ s.getD i 0 then s.take (i + (decodeRune (s.drop i)).2) else s.take (i + 1)

def trimFunc (s : Bytes) (f : ℤ → Bool) : Bytes := trimRightFunc (trimLeftFunc s f) f

/-- `strings.TrimSpace(s)`: ASCII spaces byte by byte, from the first byte above `0x7F` on
rune by rune with `unicode.IsSpace`. -/
def trimSpace (s : Bytes) : Bytes :=
  match s.dropWhile isAsciiSpace with
  | [] => []
  | rest@(c :: _) =>
    if 0x80 ≤ c then trimFunc rest isSpace
    else
      let body := (rest.reverse.dropWhile isAsciiSpace).reverse
      if 0x80 ≤ body.getLast?.getD 0 then trimRightFunc body isSpace else body

example : trimSpace [0xC2, 0xA0, 71, 69, 84, 0xE3, 0x80, 0x80, 32] = [71, 69, 84] := by decide

/-! ## Mapping runes -/

section Map

variable {f : ℤ → ℤ}

theorem map_eq_flatMap (hf : ∀ r, ValidRune r → ValidRune (f r)) (s : Bytes) :
    map f s = ((runes s).map f).flatMap encodeRune := by
  rw [map, List.flatMap_map]
  apply List.flatMap_congr
  intro c hc
  rw [if_pos (hf c (runes_valid s c hc)).1]

theorem runes_map (hf : ∀ r, ValidRune r → ValidRune (f r)) (s : Bytes) :
    runes (map f s) = (runes s).map f := by
  rw [map_eq_flatMap hf]
  apply runes_flatMap_encodeRune
  intro r hr
  obtain ⟨c, hc, rfl⟩ := List.mem_map.mp hr
  exact hf c (runes_valid s c hc)

/-- Mapping twice by an idempotent mapping of valid runes maps once. -/
theorem map_map (hf : ∀ r, ValidRune r → ValidRune (f r))
    (hff : ∀ r, ValidRune r → f (f r) = f r) (s : Bytes) : map f (map f s) = map f s := by
  rw [map_eq_flatMap hf (map f s), runes_map hf, map_eq_flatMap hf s, List.map_map]
  congr 1
  apply List.map_congr_left
  intro c hc
  exact hff c (runes_valid s c hc)

end Map

/-! ## Lower case -/

section Lower

variable (tables : CaseTable)

theorem encodeRune_toLower_of_lt (b : UInt8) (hb : b.toNat < 0x80) :
    encodeRune (Unicode.toLower tables.ranges b.toNat) = [toLowerAscii b] := by
  have hup : (65 ≤ b ∧ b ≤ 90) ↔ (65 ≤ (b.toNat : ℤ) ∧ (b.toNat : ℤ) ≤ 90) := by
    simp only [UInt8.le_iff_toNat_le, UInt8.reduceToNat]
    omega
  unfold Unicode.toLower toLowerAscii
  rw [if_pos (by omega)]
  by_cases h : 65 ≤ b ∧ b ≤ 90
  · have h' := hup.mp h
    rw [if_pos h, if_pos h', encodeRune_of_lt (by omega) (by omega)]
    -- `UInt8` addition is that of the numbers modulo 256
    rfl
  · rw [if_neg h, if_neg (fun h' => h (hup.mpr h')), encodeRune_of_lt (by omega) (by omega)]
    simp

theorem map_toLower_cons_of_lt (b : UInt8) (s : Bytes) (hb : b.toNat < 0x80) :
    map (Unicode.toLower tables.ranges) (b :: s) = toLowerAscii b :: map (Unicode.toLower tables.ranges) s := by
  have hvalid : ValidRune (b.toNat : ℤ) := validRune_of_lt (by omega) (by omega)
  rw [map, runes_cons_of_lt b s hb, List.flatMap_cons, if_pos (tables.toLower_valid _ hvalid).1,
    encodeRune_toLower_of_lt tables b hb]
  rfl

/-- The ASCII fast path of `ToLower` agrees with `Map(unicode.ToLower, s)`. -/
theorem toLower_eq_map (s : Bytes) : toLower tables s = map (Unicode.toLower tables.ranges) s := by
  unfold toLower
  split_ifs with hascii
  · induction s with
    | nil => rfl
    | cons b s ih =>
      simp only [List.all_cons, Bool.and_eq_true, decide_eq_true_eq] at hascii
      rw [List.map_cons, ih hascii.2, map_toLower_cons_of_lt tables b s (UInt8.lt_iff_toNat_lt.mp hascii.1)]
  · rfl

theorem toLower_toLower (s : Bytes) : toLower tables (toLower tables s) = toLower tables s := by
  rw [toLower_eq_map, toLower_eq_map]
  exact map_map tables.toLower_valid tables.toLower_toLower s

example : toLower latin1Table [67, 76, 0xC3, 0x89] = [99, 108, 0xC3, 0xA9] := by decide

example : toLower latin1Table [75, 0xFF] = [107, 0xEF, 0xBF, 0xBD] := by decide

/-- A lowered text is lower case: nothing that `ToLower` returns has a letter it would change. -/
theorem toLower_eq_self_of_toLower {s t : Bytes} (h : toLower tables t = s) : toLower tables s = s := by
  rw [← h, toLower_toLower]

theorem toLower_cons_of_lt (b : UInt8) (s : Bytes) (hb : b.toNat < 0x80) :
    toLower tables (b :: s) = toLowerAscii b :: toLower tables s := by
  rw [toLower_eq_map, toLower_eq_map, map_toLower_cons_of_lt tables b s hb]

theorem toUpper_singleton_of_lt (b : UInt8) (hb : b.toNat < 0x80) : toUpper tables [b] = [toUpperAscii b] := by
  unfold toUpper
  rw [if_pos (by simpa [UInt8.lt_iff_toNat_lt] using hb)]
  rfl

theorem toNat_toUpperAscii_lt {b : UInt8} (hb : b.toNat < 0x80) : (toUpperAscii b).toNat < 0x80 := by
  unfold toUpperAscii
  split_ifs with h
  · have h97 : 97 ≤ b.toNat := by simpa [UInt8.le_iff_toNat_le] using h.1
    rw [UInt8.toNat_sub_of_le _ _ (UInt8.le_iff_toNat_le.mpr (by simp only [UInt8.reduceToNat]; omega))]
    simp only [UInt8.reduceToNat]
    omega
  · exact hb

theorem toLowerAscii_toUpperAscii (b : UInt8) : toLowerAscii (toUpperAscii b) = toLowerAscii b := by
  unfold toLowerAscii toUpperAscii
  grind

end Lower

end WeedgePkg.Strings
