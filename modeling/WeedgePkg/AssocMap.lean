import Mathlib.Data.List.Perm.Basic
import Mathlib.Data.List.Nodup

/-!
# Maps with an unspecified iteration order

A map is its list of live entries, one per key; assigning to a key that is present
replaces its value in place, otherwise the entry is appended. A `range` loop visits the
entries in an order the language leaves open, so an iteration order is any rearrangement
of the entries, and results about a loop over a map hold for every one of them.
-/

namespace WeedgePkg.AssocMap

variable {K V : Type}

abbrev Map (K V : Type) := List (K × V)

def NodupKeys (m : Map K V) : Prop := (m.map Prod.fst).Nodup

/-- The value under `key`, if any. -/
def get [BEq K] (m : Map K V) (key : K) : Option V :=
  (m.find? (fun entry => entry.1 == key)).map Prod.snd

/-- `m[key] = value` -/
def insert [BEq K] (m : Map K V) (key : K) (value : V) : Map K V :=
  match m.find? (fun entry => entry.1 == key) with
  | none => m ++ [(key, value)]
  | some _ => m.map (fun entry => if entry.1 == key then (key, value) else entry)

/-- `delete(m, key)` -/
def erase [BEq K] (m : Map K V) (key : K) : Map K V :=
  m.filter fun entry => !(entry.1 == key)

/-- The map built by assigning each entry in turn. -/
def ofEntries [BEq K] (entries : List (K × V)) : Map K V :=
  entries.foldl (fun m entry => insert m entry.1 entry.2) []

/-- An order in which a loop over a map may visit its entries. -/
structure IterOrder (K V : Type) where
  arrange : Map K V → Map K V
  perm : ∀ m, (arrange m).Perm m

/-- The order in which the entries were first assigned. -/
def IterOrder.insertion : IterOrder K V := ⟨id, List.Perm.refl⟩

section Lawful

variable [BEq K] [LawfulBEq K]

theorem find?_key_eq_none {m : Map K V} {key : K} (h : key ∉ m.map Prod.fst) :
    m.find? (fun entry => entry.1 == key) = none := by
  rw [List.find?_eq_none]
  intro entry hmem hbeq
  exact h (List.mem_map.mpr ⟨entry, hmem, by simpa using hbeq⟩)

theorem insert_fresh {m : Map K V} {key : K} (value : V) (h : key ∉ m.map Prod.fst) :
    insert m key value = m ++ [(key, value)] := by
  simp [insert, find?_key_eq_none h]

/-- Assigning entries whose keys are distinct and new appends them in order. -/
theorem foldl_insert_fresh :
    ∀ (entries acc : Map K V), NodupKeys entries →
      (∀ entry ∈ entries, entry.1 ∉ acc.map Prod.fst) →
      entries.foldl (fun m entry => insert m entry.1 entry.2) acc = acc ++ entries
  | [], acc, _, _ => by simp
  | entry :: rest, acc, hnodup, hfresh => by
    have hcons : entry.1 ∉ rest.map Prod.fst ∧ (rest.map Prod.fst).Nodup := by
      simpa [NodupKeys, List.nodup_cons] using hnodup
    have hrest : ∀ x ∈ rest, x.1 ∉ (acc ++ [entry]).map Prod.fst := by
      intro x hx hmem
      simp only [List.map_append, List.map_cons, List.map_nil, List.mem_append,
        List.mem_singleton] at hmem
      rcases hmem with hmem | hmem
      · exact hfresh x (List.mem_cons_of_mem _ hx) hmem
      · exact hcons.1 (hmem ▸ List.mem_map.mpr ⟨x, hx, rfl⟩)
    rw [List.foldl_cons, insert_fresh _ (hfresh entry List.mem_cons_self)]
    rw [foldl_insert_fresh rest _ hcons.2 hrest, List.append_assoc, List.singleton_append]

theorem ofEntries_of_nodupKeys {entries : Map K V} (h : NodupKeys entries) :
    ofEntries entries = entries := by
  rw [ofEntries, foldl_insert_fresh entries [] h (by simp), List.nil_append]

theorem key_of_find? {m : Map K V} {key : K} {e : K × V}
    (he : m.find? (fun entry => entry.1 == key) = some e) : e.1 = key ∧ e ∈ m :=
  ⟨by simpa using List.find?_some he, List.mem_of_find?_eq_some he⟩

theorem find?_key_eq_none_iff {m : Map K V} {key : K} :
    m.find? (fun entry => entry.1 == key) = none ↔ key ∉ m.map Prod.fst := by
  constructor
  · intro hnone hmem
    obtain ⟨e, he, rfl⟩ := List.mem_map.mp hmem
    rw [List.find?_eq_none] at hnone
    exact hnone e he (by simp)
  · exact find?_key_eq_none

theorem get_insert (m : Map K V) (key key' : K) (value : V) :
    get (insert m key value) key' = if key == key' then some value else get m key' := by
  unfold insert
  split
  · next hnone =>
    by_cases hk : key = key'
    · subst hk
      simp [get, List.find?_append, hnone]
    · simp [get, List.find?_append, hk]
  · next e he =>
    have hkey := (key_of_find? he).1
    have hmap : ∀ k, (fun entry : K × V => (if entry.1 == key then (key, value) else entry).1 == k) =
        (fun entry => entry.1 == k) := by
      intro k
      funext entry
      by_cases h : entry.1 = key <;> simp [h]
    rw [get, List.find?_map, Function.comp_def, hmap]
    by_cases hk : key = key'
    · subst hk
      simp [he, hkey]
    · rw [beq_false_of_ne hk, get]
      cases hf : m.find? (fun entry => entry.1 == key') with
      | none => rfl
      | some e' =>
        have hne : e'.1 ≠ key := (key_of_find? hf).1 ▸ Ne.symm hk
        simp [hne]

theorem keys_insert (m : Map K V) (key : K) (value : V) :
    (insert m key value).map Prod.fst =
      if key ∈ m.map Prod.fst then m.map Prod.fst else m.map Prod.fst ++ [key] := by
  unfold insert
  split
  · next hnone => simp [find?_key_eq_none_iff.mp hnone]
  · next e he =>
    have hmem : key ∈ m.map Prod.fst := by
      by_contra h
      rw [find?_key_eq_none h] at he
      cases he
    rw [if_pos hmem, List.map_map]
    congr 1
    funext entry
    by_cases h : entry.1 = key <;> simp [h]

theorem NodupKeys.insert {m : Map K V} (h : NodupKeys m) (key : K) (value : V) :
    NodupKeys (insert m key value) := by
  unfold NodupKeys
  rw [keys_insert]
  split
  · exact h
  · next hk =>
    refine List.nodup_append.mpr ⟨h, List.nodup_singleton key, ?_⟩
    intro a ha b hb hab
    rw [List.mem_singleton.mp hb] at hab
    exact hk (hab ▸ ha)

theorem get_eq_some_iff {m : Map K V} (h : NodupKeys m) {key : K} {value : V} :
    get m key = some value ↔ (key, value) ∈ m := by
  constructor
  · intro hget
    obtain ⟨e, he, rfl⟩ := Option.map_eq_some_iff.mp hget
    obtain ⟨hkey, hmem⟩ := key_of_find? he
    rwa [← hkey]
  · intro hmem
    cases hf : m.find? (fun entry => entry.1 == key) with
    | none =>
      exact absurd (List.mem_map.mpr ⟨_, hmem, rfl⟩) (find?_key_eq_none_iff.mp hf)
    | some e =>
      obtain ⟨hkey, he⟩ := key_of_find? hf
      have := List.inj_on_of_nodup_map h he hmem hkey
      simp [get, hf, this]

theorem get_of_perm {m₁ m₂ : Map K V} (hp : m₁.Perm m₂) (h : NodupKeys m₁) (key : K) :
    get m₁ key = get m₂ key := by
  have h₂ : NodupKeys m₂ := (hp.map Prod.fst).nodup_iff.mp h
  apply Option.ext
  intro value
  rw [get_eq_some_iff h, get_eq_some_iff h₂]
  exact hp.mem_iff

omit [LawfulBEq K] in
theorem get_append (m₁ m₂ : Map K V) (key : K) :
    get (m₁ ++ m₂) key = (get m₁ key).or (get m₂ key) := by
  simp only [get, List.find?_append, Option.map_or]

/-- Assigning entries in turn: the last one with a key wins over the map assigned to. -/
theorem get_foldl_insert (entries acc : Map K V) (key : K) :
    get (entries.foldl (fun m entry => insert m entry.1 entry.2) acc) key =
      (get entries.reverse key).or (get acc key) := by
  induction entries generalizing acc with
  | nil => simp [get]
  | cons e es ih =>
    rw [List.foldl_cons, ih, get_insert, List.reverse_cons, get_append]
    by_cases hk : e.1 = key <;> simp [get, hk]

theorem foldl_erase (l m : Map K V) :
    l.foldl (fun m entry => erase m entry.1) m =
      m.filter fun entry => !(l.map Prod.fst).contains entry.1 := by
  induction l generalizing m with
  | nil => simp
  | cons e es ih =>
    rw [List.foldl_cons, ih, erase, List.filter_filter]
    congr 1
    funext entry
    by_cases h : entry.1 = e.1 <;> simp [h, Bool.and_comm]

/-- Adding the entries of `l` in turn where the key is missing: the map's values win, then
the first entry with the key. -/
theorem get_foldl_insertMissing (l m : Map K V) (key : K) :
    get (l.foldl (fun m entry => if (get m entry.1).isSome then m else insert m entry.1 entry.2) m)
      key = (get m key).or (get l key) := by
  induction l generalizing m with
  | nil => simp [get]
  | cons e es ih =>
    rw [List.foldl_cons, ih]
    by_cases hk : e.1 = key
    · subst hk
      cases hm : get m e.1 with
      | some v => simp [hm]
      | none =>
        have hfirst : get (e :: es) e.1 = some e.2 := by simp [get]
        simp [get_insert, hfirst]
    · have hget : get (e :: es) key = get es key := by simp [get, hk]
      split <;> simp [get_insert, hk, hget]

end Lawful

end WeedgePkg.AssocMap
