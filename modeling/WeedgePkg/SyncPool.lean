import Mathlib.Order.Bounds.Basic
import Mathlib.Data.List.GetD
import Mathlib.Algebra.Group.Nat.Defs

/-!
# `poolutils.SyncPool`

A slab pool: chunk classes of sizes `minSize`, `minSize * factor`, ... up to `maxSize`, each a
`sync.Pool`. `Alloc(size)` takes a chunk from the first class at least `size` and slices it
to `size`; `Free` puts a chunk back into the first class at least its capacity. A
`sync.Pool` is the bag of the buffers put into it: `Get` returns any of them, or a new one
from `New`. A slice is its length and capacity, the only parts the pool reads.
-/

namespace WeedgePkg.Poolutils

structure Slice where
  len : ℕ
  cap : ℕ
  len_le_cap : len ≤ cap

/-- `make([]byte, size)` -/
def makeSlice (size : ℕ) : Slice := ⟨size, size, Nat.le_refl size⟩

/-- `s[:k]`; `none` is its panic past the capacity. -/
def Slice.reslice (s : Slice) (k : ℕ) : Option Slice :=
  if h : k ≤ s.cap then some ⟨k, s.cap, h⟩ else none

/-- `SyncPool`, with each class's `sync.Pool` as the buffers put into it. -/
structure SyncPool where
  classes : List (List Slice)
  classesSize : List UInt64
  minSize : UInt64
  maxSize : UInt64

/-- The loops of `NewSyncPool`: from `chunkSize`, while `chunkSize <= maxSize`, times
`factor` in `uint`. `none` once `fuel` turns are used up. -/
def chunkSizes (maxSize factor : UInt64) : ℕ → UInt64 → Option (List UInt64)
  | 0, _ => none
  | fuel + 1, chunkSize =>
    if chunkSize ≤ maxSize then (chunkSizes maxSize factor fuel (chunkSize * factor)).map (chunkSize :: ·)
    else some []

/-- `NewSyncPool(minSize, maxSize, factor)`. A loop that ends never meets a size twice, so it
ends within `2 ^ 64 + 1` turns: `none` is a loop that runs for ever. -/
def newSyncPool (minSize maxSize factor : UInt64) : Option SyncPool :=
  if factor < 2 then some ⟨[], [], 0, 0⟩
  else (chunkSizes maxSize factor (2 ^ 64 + 1) minSize).map fun sizes =>
    ⟨sizes.map fun _ => [], sizes, minSize, maxSize⟩

namespace SyncPool

/-- The search of `Alloc` and `Free`: the first class whose size is at least `size`, none
above `maxSize`. -/
def classFor (pool : SyncPool) (size : UInt64) : Option ℕ :=
  if size ≤ pool.maxSize then pool.classesSize.findIdx? (fun c => decide (c ≥ size)) else none

/-- `Get()` on a class: the stored buffer `pick` names, or one from `New`, of the class's size. -/
def get (bag : List Slice) (chunkSize : UInt64) : Option ℕ → Slice × List Slice
  | some j => if h : j < bag.length then (bag[j], bag.eraseIdx j) else (makeSlice chunkSize.toNat, bag)
  | none => (makeSlice chunkSize.toNat, bag)

/-- `Alloc(size)`; `none` is the panic of `(*mem)[:size]`. -/
def alloc (pool : SyncPool) (size : UInt64) (pick : Option ℕ) : Option (Slice × SyncPool) :=
  match pool.classFor size with
  | some i =>
    let got := get (pool.classes.getD i []) (pool.classesSize.getD i 0) pick
    (got.1.reslice size.toNat).map fun s => (s, { pool with classes := pool.classes.set i got.2 })
  | none => some (makeSlice size.toNat, pool)

def free (pool : SyncPool) (mem : Slice) : SyncPool :=
  match pool.classFor (UInt64.ofNat mem.cap) with
  | some i => { pool with classes := pool.classes.modify i (mem :: ·) }
  | none => pool

end SyncPool

/-- A call of the pool's user: `Alloc(size)`, with the buffer its `Get` takes, or
`Free(m[:k])` of the `held`-th slice it holds. -/
inductive PoolCall where
  | alloc (size : UInt64) (pick : Option ℕ)
  | free (held k : ℕ)

/-- The pool and the slices its user holds: returned by `Alloc` and not freed since. -/
structure Client where
  pool : SyncPool
  held : List Slice

namespace Client

/-- One call; `none` is a panic. A `Free` of a slice not held, or a slice expression past its
capacity, is not a call of a user and changes nothing. -/
def step (c : Client) : PoolCall → Option Client
  | .alloc size pick => (c.pool.alloc size pick).map fun r => ⟨r.2, r.1 :: c.held⟩
  | .free idx k =>
    match c.held[idx]? with
    | some m =>
      match m.reslice k with
      | some m' => some ⟨c.pool.free m', c.held.eraseIdx idx⟩
      | none => some c
    | none => some c

def run (c : Client) : List PoolCall → Option Client
  | [] => some c
  | call :: calls => (c.step call).bind fun c' => c'.run calls

end Client

/-! ## What the pool is for -/

/-- The capacity `Alloc(size)` should give: the least class size at least `size`, or `size`
itself when no class is that large. -/
def AllocCap (sizes : List UInt64) (size : UInt64) (cap : ℕ) : Prop :=
  if ∃ c ∈ sizes, size ≤ c then IsLeast {n | ∃ c ∈ sizes, size ≤ c ∧ c.toNat = n} cap else cap = size.toNat

/-- No product of the class loop wraps: `minSize * factor ^ k` is exact while the loop goes on. -/
def NoOverflow (minSize maxSize factor : UInt64) : Prop :=
  ∀ k, minSize.toNat * factor.toNat ^ k ≤ maxSize.toNat → minSize.toNat * factor.toNat ^ (k + 1) < 2 ^ 64

example : (newSyncPool 128 1024 2).map SyncPool.classesSize = some [128, 256, 512, 1024] := by decide

/-! ## The class loop -/

section ChunkSizes

variable {minSize maxSize factor : UInt64}

theorem u64_lt_of_lt_of_le {a b c : UInt64} (hab : a < b) (hbc : b ≤ c) : a < c := by
  rw [UInt64.lt_iff_toNat_lt] at hab ⊢
  rw [UInt64.le_iff_toNat_le] at hbc
  omega

theorem toNat_mul_of_lt {a b : UInt64} (h : a.toNat * b.toNat < 2 ^ 64) : (a * b).toNat = a.toNat * b.toNat := by
  rw [UInt64.toNat_mul, Nat.mod_eq_of_lt h]

/-- Without a wrap the loop makes `minSize * factor ^ k`, strictly increasing, and ends within
`64` turns of `k`: the `k`-th size is at least `2 ^ k`. -/
theorem chunkSizes_spec (hmin : 1 ≤ minSize.toNat) (hfactor : 2 ≤ factor.toNat)
    (hover : NoOverflow minSize maxSize factor) :
    ∀ (fuel k : ℕ) (c : UInt64), c.toNat = minSize.toNat * factor.toNat ^ k → 64 < fuel + k →
      ∃ sizes, chunkSizes maxSize factor fuel c = some sizes ∧ sizes.Pairwise (· < ·) ∧
        ∀ x ∈ sizes, c ≤ x ∧ x ≤ maxSize := by
  have hpow : ∀ k, 2 ^ k ≤ minSize.toNat * factor.toNat ^ k := fun k =>
    calc 2 ^ k ≤ factor.toNat ^ k := Nat.pow_le_pow_left hfactor k
      _ = 1 * factor.toNat ^ k := (Nat.one_mul _).symm
      _ ≤ minSize.toNat * factor.toNat ^ k := Nat.mul_le_mul_right _ hmin
  intro fuel
  induction fuel with
  | zero =>
    intro k c hc hk
    have := hpow k
    have := c.toNat_lt
    have : (2 : ℕ) ^ 64 ≤ 2 ^ k := Nat.pow_le_pow_right (by decide) (by omega)
    omega
  | succ fuel ih =>
    intro k c hc hk
    by_cases hle : c ≤ maxSize
    · -- the next size is `c * factor`, exact and larger
      have hnext : minSize.toNat * factor.toNat ^ (k + 1) < 2 ^ 64 :=
        hover k (hc ▸ UInt64.le_iff_toNat_le.mp hle)
      have hcf : (c * factor).toNat = minSize.toNat * factor.toNat ^ (k + 1) := by
        rw [toNat_mul_of_lt (by rw [hc, Nat.mul_assoc, ← Nat.pow_succ]; exact hnext), hc, Nat.mul_assoc, ← Nat.pow_succ]
      have hlt : c < c * factor := by
        rw [UInt64.lt_iff_toNat_lt, hcf, hc, Nat.pow_succ, ← Nat.mul_assoc]
        have hpos : 0 < minSize.toNat * factor.toNat ^ k := lt_of_lt_of_le (Nat.two_pow_pos k) (hpow k)
        exact (Nat.lt_mul_iff_one_lt_right hpos).mpr (by omega)
      obtain ⟨sizes, hrun, hsorted, hbound⟩ := ih (k + 1) (c * factor) hcf (by omega)
      refine ⟨c :: sizes, by rw [chunkSizes, if_pos hle, hrun]; rfl, ?_, ?_⟩
      · exact List.pairwise_cons.mpr ⟨fun x hx => u64_lt_of_lt_of_le hlt (hbound x hx).1, hsorted⟩
      · intro x hx
        rcases List.mem_cons.mp hx with rfl | hx
        · exact ⟨UInt64.le_refl x, hle⟩
        · exact ⟨UInt64.le_of_lt (u64_lt_of_lt_of_le hlt (hbound x hx).1), (hbound x hx).2⟩
    · exact ⟨[], by rw [chunkSizes, if_neg hle], List.Pairwise.nil, by simp⟩

theorem noOverflow_of_mul_lt (h : maxSize.toNat * factor.toNat < 2 ^ 64) : NoOverflow minSize maxSize factor := by
  intro k hk
  calc minSize.toNat * factor.toNat ^ (k + 1) = minSize.toNat * factor.toNat ^ k * factor.toNat := by
        rw [Nat.pow_succ, Nat.mul_assoc]
    _ ≤ maxSize.toNat * factor.toNat := Nat.mul_le_mul_right _ hk
    _ < 2 ^ 64 := h

/-- A loop whose sizes all stay at or below `maxSize` uses up every budget of turns. -/
theorem chunkSizes_none_of_le (S : UInt64 → Prop) (hle : ∀ c, S c → c ≤ maxSize)
    (hstep : ∀ c, S c → S (c * factor)) : ∀ fuel c, S c → chunkSizes maxSize factor fuel c = none
  | 0, _, _ => rfl
  | fuel + 1, c, hc => by
    rw [chunkSizes, if_pos (hle c hc), chunkSizes_none_of_le S hle hstep fuel (c * factor) (hstep c hc)]
    rfl

theorem chunkSizes_zero (fuel : ℕ) : chunkSizes maxSize factor fuel 0 = none :=
  chunkSizes_none_of_le (· = 0) (fun _ h => h ▸ UInt64.le_iff_toNat_le.mpr (Nat.zero_le _))
    (fun _ h => by rw [h, UInt64.zero_mul]) fuel 0 rfl

theorem chunkSizes_maxUint (fuel : ℕ) (c : UInt64) : chunkSizes 0xFFFFFFFFFFFFFFFF factor fuel c = none :=
  chunkSizes_none_of_le (fun _ => True) (fun c _ => UInt64.le_iff_toNat_le.mpr (by have := c.toNat_lt; simp; omega))
    (fun _ _ => trivial) fuel c trivial

end ChunkSizes

/-- `NewSyncPool` runs for ever from `minSize = 0`, and for `maxSize = MaxUint`; and where a
product wraps to a size still at most `maxSize` the loop records it. -/
theorem newSyncPool_loop_never_ends (minSize maxSize factor : UInt64) (hfactor : 2 ≤ factor) :
    (∀ fuel, chunkSizes maxSize factor fuel 0 = none ∧ chunkSizes 0xFFFFFFFFFFFFFFFF factor fuel minSize = none) ∧
      newSyncPool 0 maxSize factor = none ∧ newSyncPool minSize 0xFFFFFFFFFFFFFFFF factor = none ∧
      (newSyncPool 4611686018427387905 4611686018427387914 5).map SyncPool.classesSize =
        some [4611686018427387905, 4611686018427387909] := by
  have hge : ¬factor < 2 := UInt64.not_lt.mpr hfactor
  refine ⟨fun fuel => ⟨chunkSizes_zero fuel, chunkSizes_maxUint fuel minSize⟩, ?_, ?_, by decide⟩
  · rw [newSyncPool, if_neg hge, chunkSizes_zero]
    rfl
  · rw [newSyncPool, if_neg hge, chunkSizes_maxUint]
    rfl

theorem newSyncPool_loop_never_ends_128_1024 :
    2 ≤ (2 : UInt64) ∧ newSyncPool 0 1024 2 = none ∧ newSyncPool 128 0xFFFFFFFFFFFFFFFF 2 = none :=
  have h := newSyncPool_loop_never_ends 128 1024 2 (by decide)
  ⟨by decide, h.2.1, h.2.2.1⟩

/-! ## The first class at least a size -/

section Classes

variable {sizes : List UInt64} {size : UInt64} {i : ℕ}

theorem findIdx?_atLeast (h : sizes.findIdx? (fun c => decide (c ≥ size)) = some i) :
    ∃ hi : i < sizes.length, size ≤ sizes[i] ∧ ∀ j (hj : j < i), sizes[j] < size := by
  obtain ⟨hi, hidx⟩ := List.findIdx?_eq_some_iff_findIdx_eq.mp h
  subst hidx
  refine ⟨hi, of_decide_eq_true (List.findIdx_getElem (w := hi)), fun j hj => ?_⟩
  have hj' := List.not_of_lt_findIdx hj
  simp only [decide_eq_false_iff_not] at hj'
  exact UInt64.not_le.mp hj'

/-- In strictly increasing sizes, the first class at least a class's own size is that class. -/
theorem findIdx?_sorted (hs : sizes.Pairwise (· < ·)) (hi : i < sizes.length) :
    sizes.findIdx? (fun c => decide (c ≥ sizes[i])) = some i := by
  induction sizes generalizing i with
  | nil => exact absurd hi (Nat.not_lt_zero i)
  | cons c cs ih =>
    obtain ⟨hc, hcs⟩ := List.pairwise_cons.mp hs
    cases i with
    | zero => rw [List.findIdx?_cons, List.getElem_cons_zero, decide_eq_true (UInt64.le_refl c)]; rfl
    | succ j =>
      have hj : j < cs.length := Nat.lt_of_succ_lt_succ hi
      have hne : ¬c ≥ cs[j] := UInt64.not_le.mpr (hc _ (List.getElem_mem hj))
      rw [List.findIdx?_cons, List.getElem_cons_succ, decide_eq_false hne, ih hcs hj]
      rfl

/-- The first class at least `size`, in strictly increasing sizes, is the least of them. -/
theorem isLeast_findIdx? (hs : sizes.Pairwise (· < ·)) (h : sizes.findIdx? (fun c => decide (c ≥ size)) = some i) :
    ∃ hi : i < sizes.length, IsLeast {n | ∃ c ∈ sizes, size ≤ c ∧ c.toNat = n} sizes[i].toNat := by
  obtain ⟨hi, hle, hfirst⟩ := findIdx?_atLeast h
  refine ⟨hi, ⟨sizes[i], List.getElem_mem hi, hle, rfl⟩, ?_⟩
  rintro n ⟨c, hc, hcle, rfl⟩
  obtain ⟨j, hj, rfl⟩ := List.mem_iff_getElem.mp hc
  rcases Nat.lt_trichotomy j i with hji | rfl | hij
  · exact absurd hcle (UInt64.not_le.mpr (hfirst j hji))
  · exact Nat.le_refl _
  · exact Nat.le_of_lt (UInt64.lt_iff_toNat_lt.mp (List.pairwise_iff_getElem.mp hs i j hi hj hij))

end Classes

/-! ## The pool's invariant -/

theorem mem_getD_set {β : Type} {L : List (List β)} {i j : ℕ} {bag : List β} {b : β}
    (h : b ∈ (L.set i bag).getD j []) : (i = j ∧ b ∈ bag) ∨ b ∈ L.getD j [] := by
  rw [List.getD_eq_getElem?_getD, List.getElem?_set] at h
  by_cases hij : i = j
  · rw [if_pos hij] at h
    split_ifs at h
    · exact Or.inl ⟨hij, h⟩
    · exact absurd h List.not_mem_nil
  · rw [if_neg hij, ← List.getD_eq_getElem?_getD] at h
    exact Or.inr h

theorem mem_getD_modify {β : Type} {L : List (List β)} {i j : ℕ} {m b : β}
    (h : b ∈ (L.modify i (m :: ·)).getD j []) : (i = j ∧ b = m) ∨ b ∈ L.getD j [] := by
  rw [List.getD_eq_getElem?_getD, List.getElem?_modify] at h
  rw [List.getD_eq_getElem?_getD]
  cases hL : L[j]? with
  | none =>
    rw [hL] at h
    exact absurd (show b ∈ ([] : List β) from h) List.not_mem_nil
  | some bag =>
    rw [hL] at h
    change b ∈ (if i = j then m :: bag else bag) at h
    show (i = j ∧ b = m) ∨ b ∈ bag
    split_ifs at h with hij
    · rcases List.mem_cons.mp h with h | h
      · exact Or.inl ⟨hij, h⟩
      · exact Or.inr h
    · exact Or.inr h

namespace SyncPool

/-- What holds of every pool `NewSyncPool` builds, and every call keeps: the class sizes
increase strictly and stay within `maxSize`, and every stored buffer has its class's size. -/
structure Wf (pool : SyncPool) : Prop where
  sorted : pool.classesSize.Pairwise (· < ·)
  le_max : ∀ c ∈ pool.classesSize, c ≤ pool.maxSize
  stored : ∀ i, ∀ b ∈ pool.classes.getD i [], b.cap = (pool.classesSize.getD i 0).toNat

/-- A chunk of capacity `cap` goes back, if anywhere, to the class of that very size. -/
def Returnable (pool : SyncPool) (cap : ℕ) : Prop :=
  ∀ i, pool.classFor (UInt64.ofNat cap) = some i → (pool.classesSize.getD i 0).toNat = cap

variable {pool : SyncPool}

theorem classFor_some {size : UInt64} {i : ℕ} (h : pool.classFor size = some i) :
    pool.classesSize.findIdx? (fun c => decide (c ≥ size)) = some i := by
  unfold classFor at h
  split_ifs at h
  exact h

theorem Wf.classFor_none (hw : pool.Wf) {size : UInt64} (h : pool.classFor size = none) :
    ∀ c ∈ pool.classesSize, c < size := by
  intro c hc
  unfold classFor at h
  split_ifs at h with hmax
  · have := List.findIdx?_eq_none_iff.mp h c hc
    exact UInt64.not_le.mp (of_decide_eq_false this)
  · exact UInt64.not_le.mp fun hle => hmax (UInt64.le_trans hle (hw.le_max c hc))

theorem Wf.classFor_size (hw : pool.Wf) {i : ℕ} (hi : i < pool.classesSize.length) :
    pool.classFor pool.classesSize[i] = some i := by
  rw [classFor, if_pos (hw.le_max _ (List.getElem_mem hi)), findIdx?_sorted hw.sorted hi]

theorem Wf.returnable_size (hw : pool.Wf) {i : ℕ} (hi : i < pool.classesSize.length) :
    pool.Returnable pool.classesSize[i].toNat := by
  intro j hj
  rw [UInt64.ofNat_toNat, hw.classFor_size hi] at hj
  cases hj
  rw [List.getD_eq_getElem _ _ hi]

theorem classFor_congr {pool' : SyncPool} (hs : pool'.classesSize = pool.classesSize)
    (hm : pool'.maxSize = pool.maxSize) : pool'.classFor = pool.classFor := by
  funext size
  rw [classFor, classFor, hs, hm]

theorem returnable_congr {pool' : SyncPool} (hs : pool'.classesSize = pool.classesSize)
    (hm : pool'.maxSize = pool.maxSize) {cap : ℕ} (h : pool.Returnable cap) : pool'.Returnable cap := by
  intro i hi
  rw [classFor_congr hs hm] at hi
  rw [hs]
  exact h i hi

theorem get_cap {bag : List Slice} {chunkSize : UInt64} (hbag : ∀ b ∈ bag, b.cap = chunkSize.toNat)
    (pick : Option ℕ) :
    (get bag chunkSize pick).1.cap = chunkSize.toNat ∧ ∀ b ∈ (get bag chunkSize pick).2, b ∈ bag := by
  cases pick with
  | none => exact ⟨rfl, fun _ hb => hb⟩
  | some j =>
    dsimp only [get]
    split_ifs with hj
    · exact ⟨hbag _ (List.getElem_mem hj), fun _ hb => (List.eraseIdx_sublist bag j).subset hb⟩
    · exact ⟨rfl, fun _ hb => hb⟩

/-- `Alloc` never panics on a pool with the invariant: the buffer it takes is as large as the
class, which is at least `size`. It gives a chunk of the capacity the pool is for, keeps the
invariant, and the chunk goes back to its own class. -/
theorem Wf.alloc (hw : pool.Wf) (size : UInt64) (pick : Option ℕ) :
    ∃ s pool', pool.alloc size pick = some (s, pool') ∧ s.len = size.toNat ∧
      AllocCap pool.classesSize size s.cap ∧ pool'.classesSize = pool.classesSize ∧
      pool'.maxSize = pool.maxSize ∧ pool'.Wf ∧ pool.Returnable s.cap := by
  unfold SyncPool.alloc
  rcases hc : pool.classFor size with _ | i
  · -- no class is large enough: a new slice of `size`
    refine ⟨makeSlice size.toNat, pool, rfl, rfl, ?_, rfl, rfl, hw, ?_⟩
    · rw [AllocCap, if_neg]
      · rfl
      · rintro ⟨c, hmem, hle⟩
        exact UInt64.not_le.mpr (hw.classFor_none hc c hmem) hle
    · intro j hj
      rw [makeSlice, UInt64.ofNat_toNat, hc] at hj
      cases hj
  · obtain ⟨hi, hleast⟩ := isLeast_findIdx? hw.sorted (classFor_some hc)
    obtain ⟨hi', hle, -⟩ := findIdx?_atLeast (classFor_some hc)
    have hsize : pool.classesSize.getD i 0 = pool.classesSize[i] := List.getD_eq_getElem _ _ hi
    obtain ⟨hcap, hkept⟩ := get_cap (fun b hb => hw.stored i b hb) pick
    dsimp only
    generalize get (pool.classes.getD i []) (pool.classesSize.getD i 0) pick = got at hcap hkept ⊢
    rw [hsize] at hcap
    have hfit : size.toNat ≤ got.1.cap := hcap ▸ UInt64.le_iff_toNat_le.mp hle
    refine ⟨⟨size.toNat, got.1.cap, hfit⟩, { pool with classes := pool.classes.set i got.2 }, ?_, rfl, ?_, rfl,
      rfl, ⟨hw.sorted, hw.le_max, ?_⟩, ?_⟩
    · rw [Slice.reslice, dif_pos hfit]
      rfl
    · -- the least class at least `size`
      rw [AllocCap, if_pos ⟨_, List.getElem_mem hi, hle⟩, hcap]
      exact hleast
    · -- the class keeps the buffers `Get` left
      intro j b hb
      rcases mem_getD_set hb with ⟨rfl, hgot⟩ | hold
      · exact hw.stored _ b (hkept b hgot)
      · exact hw.stored j b hold
    · show pool.Returnable got.1.cap
      rw [hcap]
      exact hw.returnable_size hi

/-- `Free` of a chunk that goes back to its own class keeps the invariant. -/
theorem Wf.free (hw : pool.Wf) (mem : Slice) (hm : pool.Returnable mem.cap) :
    (pool.free mem).Wf ∧ (pool.free mem).classesSize = pool.classesSize ∧
      (pool.free mem).maxSize = pool.maxSize := by
  unfold SyncPool.free
  rcases hc : pool.classFor (UInt64.ofNat mem.cap) with _ | i
  · exact ⟨hw, rfl, rfl⟩
  · refine ⟨⟨hw.sorted, hw.le_max, ?_⟩, rfl, rfl⟩
    intro j b hb
    rcases mem_getD_modify hb with ⟨rfl, rfl⟩ | hb
    · exact (hm _ hc).symm
    · exact hw.stored j b hb

/-- `NewSyncPool` under its conditions builds a pool with the invariant. -/
theorem newSyncPool_wf {minSize maxSize factor : UInt64} (hmin : 1 ≤ minSize) (hfactor : 2 ≤ factor)
    (hover : NoOverflow minSize maxSize factor) :
    ∃ pool, newSyncPool minSize maxSize factor = some pool ∧ pool.Wf := by
  have hmin' : 1 ≤ minSize.toNat := UInt64.le_iff_toNat_le.mp hmin
  have hfactor' : 2 ≤ factor.toNat := UInt64.le_iff_toNat_le.mp hfactor
  obtain ⟨sizes, hrun, hsorted, hbound⟩ :=
    chunkSizes_spec hmin' hfactor' hover (2 ^ 64 + 1) 0 minSize (by rw [Nat.pow_zero, Nat.mul_one]) (by omega)
  refine ⟨⟨sizes.map fun _ => [], sizes, minSize, maxSize⟩, ?_, hsorted, fun c hc => (hbound c hc).2, ?_⟩
  · rw [newSyncPool, if_neg (UInt64.not_lt.mpr hfactor), hrun]
    rfl
  · -- every class starts empty
    intro i b hb
    rw [List.getD_eq_getElem?_getD, List.getElem?_map] at hb
    cases hs : sizes[i]? with
    | none => rw [hs] at hb; exact absurd (show b ∈ ([] : List Slice) from hb) List.not_mem_nil
    | some c => rw [hs] at hb; exact absurd (show b ∈ ([] : List Slice) from hb) List.not_mem_nil

end SyncPool

namespace Client

/-- The pool keeps its invariant, and every slice its user holds goes back to its own class. -/
structure Wf (c : Client) : Prop where
  pool : c.pool.Wf
  held : ∀ s ∈ c.held, c.pool.Returnable s.cap

variable {c : Client}

/-- One call from a client with the invariant never panics and keeps the invariant. -/
theorem Wf.step (hc : c.Wf) (call : PoolCall) :
    ∃ c', c.step call = some c' ∧ c'.Wf ∧ c'.pool.classesSize = c.pool.classesSize := by
  cases call with
  | alloc size pick =>
    obtain ⟨s, pool', halloc, -, -, hsizes, hmax, hw', hs⟩ := hc.pool.alloc size pick
    refine ⟨⟨pool', s :: c.held⟩, by rw [Client.step, halloc]; rfl, ⟨hw', ?_⟩, hsizes⟩
    intro t ht
    rcases List.mem_cons.mp ht with rfl | ht
    · exact SyncPool.returnable_congr hsizes hmax hs
    · exact SyncPool.returnable_congr hsizes hmax (hc.held t ht)
  | free idx k =>
    -- a freed slice, resliced or not, has the capacity it was returned with
    rcases hm : c.held[idx]? with _ | m
    · exact ⟨c, by rw [Client.step, hm], hc, rfl⟩
    · have hmem : m ∈ c.held := List.mem_of_getElem? hm
      by_cases hk : k ≤ m.cap
      · obtain ⟨hw', hsizes, hmax⟩ := hc.pool.free ⟨k, m.cap, hk⟩ (hc.held m hmem)
        refine ⟨⟨c.pool.free ⟨k, m.cap, hk⟩, c.held.eraseIdx idx⟩, ?_, ⟨hw', ?_⟩, hsizes⟩
        · rw [Client.step, hm]
          dsimp only
          rw [Slice.reslice, dif_pos hk]
        · intro t ht
          exact SyncPool.returnable_congr hsizes hmax (hc.held t ((List.eraseIdx_sublist _ _).subset ht))
      · refine ⟨c, ?_, hc, rfl⟩
        rw [Client.step, hm]
        dsimp only
        rw [Slice.reslice, dif_neg hk]

/-- Every run of calls from a client with the invariant ends without a panic, with the
invariant. -/
theorem Wf.run (hc : c.Wf) :
    ∀ calls, ∃ c', c.run calls = some c' ∧ c'.Wf ∧ c'.pool.classesSize = c.pool.classesSize := by
  intro calls
  induction calls generalizing c with
  | nil => exact ⟨c, rfl, hc, rfl⟩
  | cons call calls ih =>
    obtain ⟨c₁, hstep, hc₁, hsizes₁⟩ := hc.step call
    obtain ⟨c₂, hrun, hc₂, hsizes₂⟩ := ih hc₁
    exact ⟨c₂, by rw [Client.run, hstep]; exact hrun, hc₂, hsizes₂.trans hsizes₁⟩

end Client

/-- A pool built by `NewSyncPool(minSize, maxSize, factor)` with `minSize >= 1`,
`factor >= 2` and no wrapping product, after any calls of `Alloc` and `Free` of slices it
returned: every stored chunk has its class's size, and every `Alloc(size)` returns a slice
of length `size` and the capacity the pool is for, without a panic. -/
theorem syncPool_chunks_keep_class_size (minSize maxSize factor : UInt64) (hmin : 1 ≤ minSize)
    (hfactor : 2 ≤ factor) (hover : NoOverflow minSize maxSize factor) :
    ∃ pool, newSyncPool minSize maxSize factor = some pool ∧
      ∀ calls, ∃ c, (Client.mk pool []).run calls = some c ∧ c.pool.classesSize = pool.classesSize ∧
        (∀ i, ∀ b ∈ c.pool.classes.getD i [], b.cap = (pool.classesSize.getD i 0).toNat) ∧
        ∀ size pick, ∃ s pool', c.pool.alloc size pick = some (s, pool') ∧ s.len = size.toNat ∧
          AllocCap pool.classesSize size s.cap := by
  obtain ⟨pool, hnew, hw⟩ := SyncPool.newSyncPool_wf hmin hfactor hover
  refine ⟨pool, hnew, fun calls => ?_⟩
  obtain ⟨c, hrun, hc, hsizes⟩ := Client.Wf.run (c := ⟨pool, []⟩) ⟨hw, fun _ h => absurd h List.not_mem_nil⟩ calls
  refine ⟨c, hrun, hsizes, fun i => hsizes ▸ hc.pool.stored i, fun size pick => ?_⟩
  obtain ⟨s, pool', halloc, hlen, hcap, -⟩ := hc.pool.alloc size pick
  exact ⟨s, pool', halloc, hlen, hsizes ▸ hcap⟩

theorem syncPool_chunks_keep_class_size_128_1024 :
    1 ≤ (128 : UInt64) ∧ 2 ≤ (2 : UInt64) ∧ NoOverflow 128 1024 2 ∧
      ∃ pool, newSyncPool 128 1024 2 = some pool ∧
        ∀ calls, ∃ c, (Client.mk pool []).run calls = some c ∧ c.pool.classesSize = pool.classesSize ∧
          (∀ i, ∀ b ∈ c.pool.classes.getD i [], b.cap = (pool.classesSize.getD i 0).toNat) ∧
          ∀ size pick, ∃ s pool', c.pool.alloc size pick = some (s, pool') ∧ s.len = size.toNat ∧
            AllocCap pool.classesSize size s.cap :=
  have hover : NoOverflow 128 1024 2 := noOverflow_of_mul_lt (by decide)
  ⟨by decide, by decide, hover, syncPool_chunks_keep_class_size 128 1024 2 (by decide) (by decide) hover⟩

end WeedgePkg.Poolutils
