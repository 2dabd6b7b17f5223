import WeedgePkg.AssocMap
import WeedgePkg.GoStrconv
import WeedgePkg.GoStrings

/-!
# Request metadata

`MD` maps string keys to values of any type, one value per key. `Get` and `Set` lower the
key first; `Pairs` and the context accessors `Value`, `String`, `Int64` and `Bool` use it as
given. `Join`, `New` and `Copy` assign every entry of their arguments to a fresh map, each
loop visiting a map's entries in an order the language leaves open, so what is proved of
them holds for every iteration order.
-/

namespace WeedgePkg.Metadata

open Decimal AssocMap Strconv Strings

/-- A value of the element type `interface{}`: its dynamic type and value. -/
inductive Any where
  | nil
  | string (s : Bytes)
  | int (i : Int64)
  | int64 (i : Int64)
  | bool (b : Bool)
  | other (id : ℕ)
  deriving DecidableEq, Repr

/-- `MD`: a Go map, so with one entry per key. -/
structure MD where
  entries : Map Bytes Any
  nodup : NodupKeys entries

namespace MD

def empty : MD := ⟨[], List.nodup_nil⟩

/-- `md[key] = value` -/
def assign (md : MD) (key : Bytes) (value : Any) : MD :=
  ⟨insert md.entries key value, md.nodup.insert key value⟩

/-- `md[key]`: the zero value `nil` for a missing key. -/
def index (md : MD) (key : Bytes) : Any := (get md.entries key).getD .nil

def len (md : MD) : ℕ := md.entries.length

def get (tables : Unicode.CaseTable) (m : MD) (key : Bytes) : Any := m.index (toLower tables key)

def set (tables : Unicode.CaseTable) (m : MD) (key : Bytes) (value : Any) : MD :=
  if key = [] ∨ value = .string [] then m
  else m.assign (toLower tables key) value

/-- `for k, v := range md { out[k] = v }` -/
def assignAll (order : IterOrder Bytes Any) (out md : MD) : MD :=
  (order.arrange md.entries).foldl (fun out entry => out.assign entry.1 entry.2) out

/-- The loop of `m.Range(f)`, with the state the callback threads: it stops after the first
entry for which `f` returns false. -/
def rangeLoop {σ : Type} (f : σ → Bytes → Any → σ × Bool) : σ → Map Bytes Any → σ
  | s, [] => s
  | s, (k, v) :: rest =>
    let (s', ret) := f s k v
    if !ret then s' else rangeLoop f s' rest

def range {σ : Type} (order : IterOrder Bytes Any) (m : MD) (f : σ → Bytes → Any → σ × Bool)
    (s : σ) : σ :=
  rangeLoop f s (order.arrange m.entries)

end MD

def join (order : IterOrder Bytes Any) (mds : List MD) : MD :=
  mds.foldl (MD.assignAll order) MD.empty

/-- `New(mds...)`: the loop of `Join`, over plain maps. -/
def new (order : IterOrder Bytes Any) (mds : List MD) : MD := join order mds

def MD.copy (order : IterOrder Bytes Any) (md : MD) : MD := join order [md]

inductive PairsPanic where
  | odd (text : String)
  -- the assertion `s.(string)` on a key of another type
  | notString (key : Any)
  deriving DecidableEq, Repr

/-- The loop of `Pairs` from index `i`, with `key` the last key read. -/
def pairsLoop (md : MD) (key : Bytes) : ℕ → List Any → Except PairsPanic MD
  | _, [] => .ok md
  | i, s :: rest =>
    if i % 2 = 0 then
      match s with
      | .string k => pairsLoop md k (i + 1) rest
      | _ => .error (.notString s)
    else pairsLoop (md.assign key s) key (i + 1) rest

def pairs (kv : List Any) : Except PairsPanic MD :=
  if kv.length % 2 = 1 then
    .error (.odd ("metadata: Pairs got the odd number of input pairs for metadata: " ++
      toString kv.length))
  else pairsLoop MD.empty [] 0 kv

/-- A context as far as metadata goes: the value under `mdKey{}`, and a deadline. -/
structure Context where
  md : Option MD
  deadline : Option ℕ

def Context.background : Context := ⟨none, none⟩

/-- `NewContext(ctx, md)`: `context.WithValue` keeps the parent's deadline. -/
def newContext (ctx : Context) (md : MD) : Context := { ctx with md := some md }

def fromContext (ctx : Context) : Option MD := ctx.md

def withContext (order : IterOrder Bytes Any) (c : Context) : Context :=
  match fromContext c with
  | some md => newContext .background (md.copy order)
  | none => .background

/-- The accessors `Value`, `String`, `Int64` and `Bool`: the context's map indexed by `key` as
given, then asserted to a type; the zero value when the context holds no map. -/
def lookupAs {β : Type} (assert : Any → β) (zero : β) (ctx : Context) (key : Bytes) : β :=
  match ctx.md with
  | none => zero
  | some md => assert (md.index key)

def value (ctx : Context) (key : Bytes) : Any := lookupAs id .nil ctx key

def string (ctx : Context) (key : Bytes) : Bytes :=
  lookupAs (fun | .string s => s | _ => []) [] ctx key

def int64 (ctx : Context) (key : Bytes) : Int64 :=
  lookupAs (fun | .int64 i => i | _ => 0) 0 ctx key

/-- `Bool(ctx, key)`: a string is read by `strconv.ParseBool`, its error dropped. -/
def bool (ctx : Context) (key : Bytes) : Bool :=
  lookupAs (fun | .bool b => b | .string s => (parseBool s).1 | _ => false) false ctx key

/-! ## Lookups after assignment -/

namespace MD

theorem foldl_assign_entries (entries : Map Bytes Any) (md : MD) :
    (entries.foldl (fun out entry => out.assign entry.1 entry.2) md).entries =
      entries.foldl (fun m entry => insert m entry.1 entry.2) md.entries := by
  induction entries generalizing md with
  | nil => rfl
  | cons entry rest ih => exact ih (md.assign entry.1 entry.2)

theorem get_arrange (order : IterOrder Bytes Any) (md : MD) (key : Bytes) :
    AssocMap.get (order.arrange md.entries).reverse key = AssocMap.get md.entries key := by
  have hp : md.entries.Perm (order.arrange md.entries).reverse :=
    (order.perm _).symm.trans (List.reverse_perm _).symm
  exact (get_of_perm hp md.nodup key).symm

/-- Assigning a map's entries in any order: its values win over those already there. -/
theorem index_assignAll (order : IterOrder Bytes Any) (out md : MD) (key : Bytes) :
    (out.assignAll order md).index key = (AssocMap.get md.entries key).getD (out.index key) := by
  rw [assignAll, index, foldl_assign_entries, get_foldl_insert, get_arrange]
  cases AssocMap.get md.entries key <;> rfl

theorem assignAll_empty_entries (order : IterOrder Bytes Any) (md : MD) :
    (empty.assignAll order md).entries = order.arrange md.entries := by
  have hnodup : NodupKeys (order.arrange md.entries) :=
    ((order.perm _).map Prod.fst).nodup_iff.mpr md.nodup
  rw [assignAll, foldl_assign_entries]
  exact ofEntries_of_nodupKeys hnodup

end MD

theorem foldl_assignAll_index (order : IterOrder Bytes Any) (mds : List MD) (out : MD) (key : Bytes) :
    (mds.foldl (MD.assignAll order) out).index key =
      (mds.reverse.findSome? fun md => AssocMap.get md.entries key).getD (out.index key) := by
  induction mds generalizing out with
  | nil => rfl
  | cons md mds ih =>
    rw [List.foldl_cons, ih, MD.index_assignAll, List.reverse_cons, List.findSome?_append]
    cases mds.reverse.findSome? (fun md => AssocMap.get md.entries key) <;> simp

/-- `Join` in any iteration order: the value under a key is the one in the last map that has
it. -/
theorem join_index (order : IterOrder Bytes Any) (mds : List MD) (key : Bytes) :
    (join order mds).index key =
      (mds.reverse.findSome? fun md => AssocMap.get md.entries key).getD .nil :=
  foldl_assignAll_index order mds MD.empty key

theorem MD.index_copy (order : IterOrder Bytes Any) (md : MD) (key : Bytes) :
    (md.copy order).index key = md.index key :=
  MD.index_assignAll order MD.empty md key

/-- `Copy` gives the entries back in the iteration order: as many, and the same value under
every key. -/
theorem copy_same (order : IterOrder Bytes Any) (md : MD) :
    (md.copy order).len = md.len ∧ ∀ key, (md.copy order).index key = md.index key := by
  have hentries : (md.copy order).entries = order.arrange md.entries :=
    MD.assignAll_empty_entries order md
  constructor
  · rw [MD.len, MD.len, hentries]
    exact (order.perm _).length_eq
  · exact MD.index_copy order md

def flatPairs (entries : List (Bytes × Any)) : List Any :=
  entries.flatMap fun entry => [.string entry.1, entry.2]

theorem pairsLoop_flatPairs (entries : List (Bytes × Any)) (md : MD) (key : Bytes) (i : ℕ)
    (hi : i % 2 = 0) :
    pairsLoop md key i (flatPairs entries) =
      .ok (entries.foldl (fun out entry => out.assign entry.1 entry.2) md) := by
  induction entries generalizing md key i with
  | nil => rfl
  | cons entry rest ih =>
    have hodd : ¬(i + 1) % 2 = 0 := by omega
    simp only [flatPairs, List.flatMap_cons, List.cons_append, List.nil_append] at ih ⊢
    simp only [pairsLoop, if_pos hi, if_neg hodd]
    rw [ih _ _ _ (by omega), List.foldl_cons]

theorem exists_flatPairs_of_pairsLoop : ∀ (kv : List Any) (md md' : MD) (key : Bytes) (i : ℕ),
    i % 2 = 0 → kv.length % 2 = 0 → pairsLoop md key i kv = .ok md' →
      ∃ entries, kv = flatPairs entries
  | [], _, _, _, _, _, _, _ => ⟨[], rfl⟩
  | [_], _, _, _, _, _, hlen, _ => by simp at hlen
  | s :: v :: rest, md, md', key, i, hi, hlen, h => by
    have hodd : ¬(i + 1) % 2 = 0 := by omega
    cases s with
    | string k =>
      simp only [pairsLoop, if_pos hi, if_neg hodd] at h
      obtain ⟨entries, rfl⟩ :=
        exists_flatPairs_of_pairsLoop rest _ md' k (i + 2) (by omega) (by simp at hlen; omega) h
      exact ⟨(k, v) :: entries, rfl⟩
    | _ => simp [pairsLoop, hi] at h

theorem length_flatPairs (entries : List (Bytes × Any)) :
    (flatPairs entries).length = 2 * entries.length := by
  induction entries with
  | nil => rfl
  | cons entry rest ih =>
    simp only [flatPairs, List.flatMap_cons, List.length_append, List.length_cons,
      List.length_nil] at ih ⊢
    omega

/-- `Pairs` returns a map exactly when its arguments are pairs of a string key and a value. -/
theorem pairs_ok_iff (kv : List Any) :
    (∃ md, pairs kv = .ok md) ↔ ∃ entries, kv = flatPairs entries := by
  constructor
  · rintro ⟨md, h⟩
    unfold pairs at h
    split at h
    · cases h
    · next hlen => exact exists_flatPairs_of_pairsLoop kv _ md [] 0 rfl (by omega) h
  · rintro ⟨entries, rfl⟩
    have heven : ¬(flatPairs entries).length % 2 = 1 := by rw [length_flatPairs]; omega
    rw [pairs, if_neg heven, pairsLoop_flatPairs entries _ _ 0 rfl]
    exact ⟨_, rfl⟩

/-- The map of `Pairs` holds, under each key as given, the last value paired with it. -/
theorem pairs_index (entries : List (Bytes × Any)) :
    ∃ md, pairs (flatPairs entries) = .ok md ∧
      ∀ key, md.index key = (AssocMap.get entries.reverse key).getD .nil := by
  have heven : ¬(flatPairs entries).length % 2 = 1 := by rw [length_flatPairs]; omega
  refine ⟨_, by rw [pairs, if_neg heven, pairsLoop_flatPairs entries _ _ 0 rfl], ?_⟩
  intro key
  rw [MD.index, MD.foldl_assign_entries, get_foldl_insert]
  cases AssocMap.get entries.reverse key <;> rfl

/-! ## The context accessors and Range -/

/-- `Bool` is true for a stored `true` and for a string that `strconv.ParseBool` reads as
true, and false for everything else, a missing map included. -/
theorem bool_eq_true_iff (ctx : Context) (key : Bytes) :
    bool ctx key = true ↔ ∃ md, ctx.md = some md ∧
      (md.index key = .bool true ∨
        ∃ s ∈ ["1", "t", "T", "true", "TRUE", "True"].map ascii, md.index key = .string s) := by
  unfold bool lookupAs
  cases hmd : ctx.md with
  | none => simp
  | some md =>
    simp only [Option.some.injEq, exists_eq_left']
    cases md.index key with
    | bool b => cases b <;> simp
    | string s => simp [parseBool_eq_true_iff]
    | _ => simp

/-- Lookups through `WithContext`: the map is a copy, so every accessor reads what it read
before, and the deadline is gone. -/
theorem withContext_lookupAs {β : Type} (order : IterOrder Bytes Any) (c : Context)
    (assert : Any → β) (zero : β) :
    (withContext order c).deadline = none ∧
      ∀ key, lookupAs assert zero (withContext order c) key = lookupAs assert zero c key := by
  unfold withContext fromContext
  cases hmd : c.md with
  | none => exact ⟨rfl, fun key => by simp [lookupAs, hmd, Context.background]⟩
  | some md =>
    refine ⟨rfl, fun key => ?_⟩
    simp [lookupAs, hmd, newContext, MD.index_copy]

/-- `Range` with a callback that records each entry and returns `p k v`: it visits the entries
in the iteration order up to the first for which `p` is false, that one included. -/
theorem range_visits (order : IterOrder Bytes Any) (m : MD) (p : Bytes → Any → Bool) :
    m.range order (fun visited k v => (visited ++ [(k, v)], p k v)) [] =
      (order.arrange m.entries).takeWhile (fun e => p e.1 e.2) ++
        ((order.arrange m.entries).dropWhile (fun e => p e.1 e.2)).take 1 := by
  have hloop : ∀ (l visited : Map Bytes Any),
      MD.rangeLoop (fun visited k v => (visited ++ [(k, v)], p k v)) visited l =
        visited ++ (l.takeWhile (fun e => p e.1 e.2) ++ (l.dropWhile (fun e => p e.1 e.2)).take 1) := by
    intro l
    induction l with
    | nil => simp [MD.rangeLoop]
    | cons entry rest ih =>
      intro visited
      by_cases hp : p entry.1 entry.2
      · simp [MD.rangeLoop, hp, ih]
      · simp [MD.rangeLoop, hp]
  simpa [MD.range] using hloop (order.arrange m.entries) []

end WeedgePkg.Metadata
