import Mathlib.Data.Finmap
import Solidc.Map.Invariant

/-! # The Robin Hood map refines a finite map

* `create_spec` — a new map satisfies the invariant and stores nothing;
* `mapEntries_eq` — what `map_iter` and `map_next` enumerate, as one list;
* `Run` — sequences of successful calls, and `run_represents`: after every run whose
  growths place the stored keys well, the table stands for the finite map of the calls;
* `refines_finmap` — the refinement for fixed-size keys, where every growth does.
-/

namespace Solidc.Map

open CLib

variable {K V : Type*} {P : Keyed K} {m : HashMap K V}

/-! ## Creation -/

/-- `next_power_of_two` yields a power of two, or wraps to zero. -/
theorem nextPowerOfTwo_pow2 {n : Nat} (h : n < 2 ^ 64) :
    IsPow2 (nextPowerOfTwo n) ∨ nextPowerOfTwo n = 0 := by
  unfold nextPowerOfTwo
  split_ifs with h0
  · exact .inl ⟨0, rfl⟩
  · by_cases h1 : n - 1 = 0
    · rw [h1]
      exact .inl ⟨0, rfl⟩
    · have hlog : (n - 1).log2 < 64 := (Nat.log2_lt h1).mpr (by omega)
      have hpos : 0 < 2 ^ ((n - 1).log2 + 1) := Nat.two_pow_pos _
      rw [smear64_eq h1 (by omega), Nat.sub_add_cancel hpos]
      rcases Nat.lt_or_eq_of_le (show (n - 1).log2 + 1 ≤ 64 by omega) with hlt | heq
      · left
        rw [Nat.mod_eq_of_lt (Nat.pow_lt_pow_right (by omega) hlt)]
        exact ⟨_, rfl⟩
      · right
        rw [heq, Nat.mod_self]

/-- `MAX(MIN_CAPACITY, n)` is a power of two when `n` is one or zero. -/
theorem max_minCapacity_pow2 {n : Nat} (h : IsPow2 n ∨ n = 0) : IsPow2 (max minCapacity n) := by
  rcases Nat.le_total minCapacity n with hle | hle
  · rw [Nat.max_eq_right hle]
    rcases h with h | h
    · exact h
    · rw [h] at hle
      exact absurd hle (by decide)
  · rw [Nat.max_eq_left hle]
    exact ⟨3, rfl⟩

/-- A map whose slots are all `NULL`. -/
theorem inv_of_blank (hpow : IsPow2 m.capacity) (hlarge : 8 ≤ m.capacity)
    (hbounded : m.capacity ≤ sizeMax / 2) (hfactor : m.maxLoadFactor < 1)
    (hblank : ∀ i, m.keys i = none) (hsize : m.size = 0) :
    Inv P m ∧ ∀ k v, ¬ Stores P m k v := by
  have hview : ∀ i c, m.view i ≠ some c := by
    intro i c
    rw [(view_eq_none i).mpr (hblank i)]
    exact nofun
  refine ⟨⟨hpow, hlarge, hbounded, ⟨?_, ?_⟩, ?_, ⟨0, hpow.pos, ?_⟩, ?_, hfactor⟩, ?_⟩
  · intro i _ c hc
    exact absurd hc (hview i c)
  · intro i _ c hc
    exact absurd hc (hview _ c)
  · intro i _ j _ c d hc
    exact absurd hc (hview i c)
  · intro c hc
    exact absurd hc (hview 0 c)
  · rw [hsize, slotCount_eq_zero (fun i _ => by rw [(view_eq_none i).mpr (hblank i)]; rfl)]
  · intro k v hk
    rcases hk with ⟨i, -, c, hc, -⟩
    exact hview i c hc

/-- The load factor of a new map stays below one. -/
theorem clampedLoad_lt (q : ℚ) : (if loadFactorFloor < q ∧ q ≤ loadFactorCeil then q
    else defaultMaxLoadFactor) < 1 := by
  split_ifs with hlf
  · refine lt_of_le_of_lt hlf.2 ?_
    rw [loadFactorCeil]
    norm_num
  · rw [defaultMaxLoadFactor]
    norm_num

/-- A new map satisfies the invariant and stores nothing. -/
theorem create_spec {initialCapacity : Nat} (hsize : initialCapacity < 2 ^ 64) {maxLoadFactor : ℚ}
    (h : mapCreate initialCapacity maxLoadFactor = some m) :
    Inv P m ∧ ∀ k v, ¬ Stores P m k v := by
  have hpow : IsPow2 (max minCapacity
      (if 0 < initialCapacity then nextPowerOfTwo initialCapacity else initialMapSize)) := by
    apply max_minCapacity_pow2
    by_cases h0 : 0 < initialCapacity
    · rw [if_pos h0]
      exact nextPowerOfTwo_pow2 hsize
    · rw [if_neg h0]
      exact .inl ⟨4, rfl⟩
  have hlarge : 8 ≤ max minCapacity
      (if 0 < initialCapacity then nextPowerOfTwo initialCapacity else initialMapSize) :=
    Nat.le_max_left 8 _
  unfold mapCreate at h
  generalize (max minCapacity
    (if 0 < initialCapacity then nextPowerOfTwo initialCapacity else initialMapSize)) = cap
    at h hpow hlarge
  by_cases hbig : sizeMax / 2 < cap
  · rw [if_pos hbig] at h
    cases h
  · rw [if_neg hbig] at h
    cases h
    exact inv_of_blank hpow hlarge (Nat.le_of_not_lt hbig) (clampedLoad_lt maxLoadFactor)
      (fun _ => rfl) rfl

/-! ## Iteration -/

/-- The entry at a slot. -/
def HashMap.entryAt (m : HashMap K V) (i : Nat) : Option (K × Option V) :=
  (m.keys i).map fun k => (k, m.vals i)

/-- One call of `map_next` with `gap` slots ahead takes the first entry off the list. -/
theorem mapNext_spec (gap index : Nat) (h : index + gap = m.capacity) :
    (mapNext m gap index = none ∧ (List.range' index gap).filterMap m.entryAt = []) ∨
    ∃ key val index' gap', mapNext m gap index = some (key, val, index') ∧ gap' < gap ∧
      index' + gap' = m.capacity ∧
      (List.range' index gap).filterMap m.entryAt =
        (key, val) :: (List.range' index' gap').filterMap m.entryAt := by
  induction gap generalizing index with
  | zero => exact .inl ⟨rfl, rfl⟩
  | succ gap ih =>
    unfold mapNext
    rw [if_pos (by omega), List.range'_succ]
    cases hk : m.keys index with
    | none =>
      have hnone : m.entryAt index = none := by simp [HashMap.entryAt, hk]
      rw [List.filterMap_cons_none hnone]
      rcases ih (index + 1) (by omega) with h' | ⟨key, val, index', gap', h1, h2, h3⟩
      · exact .inl h'
      · exact .inr ⟨key, val, index', gap', h1, by omega, h3⟩
    | some key =>
      have hsome : m.entryAt index = some (key, m.vals index) := by simp [HashMap.entryAt, hk]
      rw [List.filterMap_cons_some hsome]
      exact .inr ⟨key, m.vals index, index + 1, gap, rfl, by omega, by omega, rfl⟩

/-- Calling `map_next` until it returns false enumerates the rest of the table. -/
theorem iterateFrom_eq (fuel gap index : Nat) (hfuel : gap < fuel) (h : index + gap = m.capacity) :
    iterateFrom m fuel index = (List.range' index gap).filterMap m.entryAt := by
  induction fuel generalizing gap index with
  | zero => omega
  | succ fuel ih =>
    unfold iterateFrom
    rw [show m.capacity - index = gap by omega]
    rcases mapNext_spec gap index h with ⟨hn, hl⟩ | ⟨key, val, index', gap', hn, hlt, hcap, hl⟩
    · rw [hn, hl]
    · rw [hn, hl]
      simp only
      rw [ih gap' index' (by omega) hcap]

theorem mapEntries_eq : mapEntries m = (List.range m.capacity).filterMap m.entryAt := by
  unfold mapEntries
  rw [iterateFrom_eq _ m.capacity 0 (by omega) (by omega), List.range_eq_range']

theorem view_of_entryAt {i : Nat} {e : K × Option V} (h : m.entryAt i = some e) :
    ∃ c, m.view i = some c ∧ c.key = e.1 ∧ c.val = e.2 := by
  simp only [HashMap.entryAt, Option.map_eq_some_iff] at h
  rcases h with ⟨k, hk, rfl⟩
  exact ⟨_, view_eq_some hk, rfl, rfl⟩

/-- The iterator finds the stored pairs. -/
theorem mem_mapEntries (k : K) (v : Option V) :
    (∃ e ∈ mapEntries m, P.Rel e.1 k ∧ e.2 = v) ↔ Stores P m k v := by
  rw [mapEntries_eq]
  constructor
  · intro h
    rcases h with ⟨e, he, hrel, hv⟩
    rcases List.mem_filterMap.mp he with ⟨i, hi, hei⟩
    rcases view_of_entryAt hei with ⟨c, hc, hck, hcv⟩
    exact ⟨i, List.mem_range.mp hi, c, hc, by rw [hck]; exact hrel, by rw [hcv]; exact hv⟩
  · intro h
    rcases h with ⟨i, hi, c, hc, hrel, hv⟩
    rcases view_cell hc with ⟨hkey, hval, -⟩
    refine ⟨(c.key, c.val), List.mem_filterMap.mpr ⟨i, List.mem_range.mpr hi, ?_⟩, hrel, hv⟩
    simp [HashMap.entryAt, hkey, hval]

/-- No two enumerated keys are equal. -/
theorem mapEntries_nodup (hinv : Inv P m) :
    ((mapEntries m).map fun e => Quotient.mk P.setoid e.1).Nodup := by
  rw [mapEntries_eq, List.Nodup, List.pairwise_map, List.pairwise_filterMap]
  apply List.Pairwise.imp_of_mem _ (List.pairwise_lt_range (n := m.capacity))
  intro i j hi hj hlt a ha b hb hab
  rcases view_of_entryAt ha with ⟨c, hc, hck, -⟩
  rcases view_of_entryAt hb with ⟨d, hd, hdk, -⟩
  have hrel : P.Rel c.key d.key := by
    rw [hck, hdk]
    exact Quotient.exact hab
  have := hinv.unique i (List.mem_range.mp hi) j (List.mem_range.mp hj) c d hc hd hrel
  omega

/-- The iterator returns as many entries as the map counts. -/
theorem length_mapEntries (hinv : Inv P m) : (mapEntries m).length = m.size := by
  rw [mapEntries_eq, hinv.size]
  generalize m.capacity = n
  induction n with
  | zero => rfl
  | succ n ih =>
    rw [List.range_succ, List.filterMap_append, List.length_append, ih, slotCount_succ]
    cases hk : m.keys n with
    | none => simp [HashMap.entryAt, HashMap.view, hk]
    | some k => simp [HashMap.entryAt, HashMap.view, hk]

/-! ## Runs -/

/-- The calls of a run. -/
inductive Op (K V : Type*) where
  | set (key : K) (value : Option V)
  | get (key : K)
  | remove (key : K)

/-- Sequences of successful calls from `m₀`, each key presented with its own length.
Every `map_set` of the run meets the condition `cond` on the map before it. -/
inductive Run (P : Keyed K) (cond : HashMap K V → K → Prop) (m₀ : HashMap K V) :
    List (Op K V) → HashMap K V → Prop
  | nil : Run P cond m₀ [] m₀
  | set {ops m m' key value} : Run P cond m₀ ops m → cond m key →
      mapSet P.toMapFns m key (P.len key) value = (m', true) →
      Run P cond m₀ (ops ++ [.set key value]) m'
  | get {ops m key} : Run P cond m₀ ops m → Run P cond m₀ (ops ++ [.get key]) m
  | remove {ops m m' key b} : Run P cond m₀ ops m →
      mapRemove P.toMapFns m key (P.len key) = some (m', b) →
      Run P cond m₀ (ops ++ [.remove key]) m'

/-- If the set of `key` makes the map grow, the growth places the stored keys well. -/
def GrowthOk (P : Keyed K) (m : HashMap K V) (key : K) : Prop :=
  mustGrow m → GrowsWell P m (calculateNewCapacity m.capacity) (P.len key)

section Model

open Classical

/-- What a call does to the finite map the table stands for. -/
noncomputable def modelStep (P : Keyed K) (A : Finmap fun _ : Quotient P.setoid => Option V) :
    Op K V → Finmap fun _ : Quotient P.setoid => Option V
  | .set key value => A.insert (Quotient.mk P.setoid key) value
  | .get _ => A
  | .remove key => A.erase (Quotient.mk P.setoid key)

/-- The latest values set and not removed since, by key up to `key_compare`. -/
noncomputable def model (P : Keyed K) (ops : List (Op K V)) :
    Finmap fun _ : Quotient P.setoid => Option V :=
  ops.foldl (modelStep P) ∅

/-- The value a run has set under the key and not removed since. -/
noncomputable def latest (P : Keyed K) (ops : List (Op K V)) (k : K) : Option (Option V) :=
  (model P ops).lookup (Quotient.mk P.setoid k)

/-- The table stands for the finite map `A`. -/
def Represents (P : Keyed K) (m : HashMap K V)
    (A : Finmap fun _ : Quotient P.setoid => Option V) : Prop :=
  ∀ k v, A.lookup (Quotient.mk P.setoid k) = some v ↔ Stores P m k v

theorem class_eq_iff (a b : K) :
    Quotient.mk P.setoid a = Quotient.mk P.setoid b ↔ P.Rel a b :=
  ⟨fun h => Quotient.exact h, fun h => Quotient.sound h⟩

theorem model_append (ops : List (Op K V)) (op : Op K V) :
    model P (ops ++ [op]) = modelStep P (model P ops) op := by
  unfold model
  rw [List.foldl_append]
  rfl

theorem latest_set (ops : List (Op K V)) (key : K) (value : Option V) :
    latest P (ops ++ [.set key value]) key = some value := by
  unfold latest
  rw [model_append]
  exact Finmap.lookup_insert _

/-- A successful `map_set`. -/
theorem set_represents (hinv : Inv P m) {A : Finmap fun _ : Quotient P.setoid => Option V}
    (hrep : Represents P m A) {key : K} {value : Option V} (hgrow : GrowthOk P m key)
    {m' : HashMap K V} (hset : mapSet P.toMapFns m key (P.len key) value = (m', true)) :
    Inv P m' ∧ Represents P m' (A.insert (Quotient.mk P.setoid key) value) ∧
      (m'.size = m.size ↔ ∃ v, Stores P m key v) := by
  unfold GrowthOk at hgrow
  rw [calculateNewCapacity_eq hinv.bounded] at hgrow
  rcases set_spec hinv key value hgrow with ⟨t, ht, hinvt, hsame, hst⟩ | ⟨-, -, hfail⟩
  · rw [ht] at hset
    cases hset
    refine ⟨hinvt, ?_, hsame⟩
    intro k v
    rw [hst]
    by_cases hk : P.Rel key k
    · rw [← (class_eq_iff key k).mpr hk, Finmap.lookup_insert]
      simp [hk, eq_comm]
    · have hne : Quotient.mk P.setoid k ≠ Quotient.mk P.setoid key := by
        intro h
        exact hk ((class_eq_iff key k).mp h.symm)
      rw [Finmap.lookup_insert_of_ne A hne, hrep k v]
      simp [hk]
  · rw [hfail] at hset
    cases hset

/-- A `map_remove`: it returns, and reports whether the key was there. -/
theorem remove_represents (hinv : Inv P m) {A : Finmap fun _ : Quotient P.setoid => Option V}
    (hrep : Represents P m A) (key : K) :
    ∃ m' b, mapRemove P.toMapFns m key (P.len key) = some (m', b) ∧ Inv P m' ∧
      (b = true ↔ Quotient.mk P.setoid key ∈ A) ∧
      Represents P m' (A.erase (Quotient.mk P.setoid key)) := by
  rcases remove_spec hinv key with ⟨m', b, hrem, hinv', hb, hst⟩
  refine ⟨m', b, hrem, hinv', ?_, ?_⟩
  · rw [hb, Finmap.mem_iff]
    simp only [hrep key]
  · intro k v
    rw [hst]
    by_cases hk : P.Rel key k
    · rw [← (class_eq_iff key k).mpr hk, Finmap.lookup_erase]
      simp [hk]
    · have hne : Quotient.mk P.setoid k ≠ Quotient.mk P.setoid key := by
        intro h
        exact hk ((class_eq_iff key k).mp h.symm)
      rw [Finmap.lookup_erase_ne hne, hrep k v]
      simp [hk]

/-- After every run whose growths place the stored keys well, the invariant holds and
the table stands for the finite map of the calls. -/
theorem run_represents {m₀ : HashMap K V} (hinv₀ : Inv P m₀) (hempty : ∀ k v, ¬ Stores P m₀ k v)
    {cond : HashMap K V → K → Prop} (hcond : ∀ m key, Inv P m → cond m key → GrowthOk P m key)
    {ops : List (Op K V)} (hrun : Run P cond m₀ ops m) :
    Inv P m ∧ Represents P m (model P ops) := by
  induction hrun with
  | nil =>
    refine ⟨hinv₀, ?_⟩
    intro k v
    simp [model, hempty k v]
  | set _ hc hset ih =>
    rw [model_append]
    have h := set_represents ih.1 ih.2 (hcond _ _ ih.1 hc) hset
    exact ⟨h.1, h.2.1⟩
  | get _ ih =>
    rw [model_append]
    exact ih
  | @remove _ _ _ key _ _ hrem ih =>
    rw [model_append]
    rcases remove_represents ih.1 ih.2 key with ⟨m', b, hrem', hinv', -, hrep'⟩
    rw [hrem'] at hrem
    cases hrem
    exact ⟨hinv', hrep'⟩

/-- `map_get` on a table that stands for `A`. -/
theorem get_represents (hinv : Inv P m) {A : Finmap fun _ : Quotient P.setoid => Option V}
    (hrep : Represents P m A) (k : K) :
    mapGet P.toMapFns m k (P.len k) = (A.lookup (Quotient.mk P.setoid k)).join := by
  rcases get_spec hinv k with ⟨v, hst, hget⟩ | ⟨hno, hget⟩
  · rw [hget, (hrep k v).mpr hst]
    rfl
  · have hnone : A.lookup (Quotient.mk P.setoid k) = none := by
      cases hl : A.lookup (Quotient.mk P.setoid k) with
      | none => rfl
      | some v => exact absurd ((hrep k v).mp hl) (hno v)
    rw [hget, hnone]
    rfl

/-- The iterator on a table that stands for `A`. -/
theorem entries_represents {A : Finmap fun _ : Quotient P.setoid => Option V}
    (hrep : Represents P m A) (c : Quotient P.setoid) (v : Option V) :
    (c, v) ∈ (mapEntries m).map (fun e => (Quotient.mk P.setoid e.1, e.2)) ↔
      A.lookup c = some v := by
  induction c using Quotient.inductionOn with
  | h k =>
    rw [hrep k v, ← mem_mapEntries, List.mem_map]
    constructor
    · intro h
      rcases h with ⟨e, he, heq⟩
      exact ⟨e, he, (class_eq_iff e.1 k).mp (Prod.mk.inj heq).1, (Prod.mk.inj heq).2⟩
    · intro h
      rcases h with ⟨e, he, hrel, hv⟩
      exact ⟨e, he, Prod.ext ((class_eq_iff e.1 k).mpr hrel) hv⟩

/-- The size of a table that stands for `A`. -/
theorem length_represents (hinv : Inv P m) {A : Finmap fun _ : Quotient P.setoid => Option V}
    (hrep : Represents P m A) : mapLength m = A.keys.card := by
  have hkeys : A.keys = ((mapEntries m).map fun e => Quotient.mk P.setoid e.1).toFinset := by
    ext c
    rw [Finmap.mem_keys, Finmap.mem_iff, List.mem_toFinset]
    simp only [← entries_represents hrep, List.mem_map, Prod.mk.injEq]
    constructor
    · intro h
      rcases h with ⟨v, e, he, hc, -⟩
      exact ⟨e, he, hc⟩
    · intro h
      rcases h with ⟨e, he, hc⟩
      exact ⟨e.2, e, he, hc, rfl⟩
  rw [hkeys, List.toFinset_card_of_nodup (mapEntries_nodup hinv), List.length_map,
    length_mapEntries hinv]
  rfl

/-- Growth always places keys of one fixed size well. -/
theorem growthOk_of_fixed {keyLen : Nat} (hfixed : ∀ k, P.len k = keyLen) (m : HashMap K V)
    (key : K) : GrowthOk P m key := by
  intro _ i _ k _
  rw [Keyed.home, hfixed key, hfixed k]

/-- With keys of one fixed size, a map created by `map_create` refines a finite map
along every sequence of successful calls: lookups return the latest value set and not
removed (`NULL` for an absent key), a removal returns, reports whether the key was
there and takes away only it, the length counts the keys, and the iterator
enumerates every pair exactly once. -/
theorem refines_finmap (P : Keyed K) (keyLen : Nat) (hfixed : ∀ k, P.len k = keyLen)
    (initialCapacity : Nat) (hsize : initialCapacity < 2 ^ 64) (maxLoadFactor : ℚ)
    (m₀ m : HashMap K V) (hcreate : mapCreate initialCapacity maxLoadFactor = some m₀)
    (ops : List (Op K V)) (hrun : Run P (fun _ _ => True) m₀ ops m) :
    (∀ k, mapGet P.toMapFns m k keyLen =
      ((model P ops).lookup (Quotient.mk P.setoid k)).join) ∧
    (∀ k, ∃ m' b, mapRemove P.toMapFns m k keyLen = some (m', b) ∧
      (b = true ↔ Quotient.mk P.setoid k ∈ model P ops) ∧
      ∀ c v, (c, v) ∈ (mapEntries m').map (fun e => (Quotient.mk P.setoid e.1, e.2)) ↔
        c ≠ Quotient.mk P.setoid k ∧ (model P ops).lookup c = some v) ∧
    mapLength m = (model P ops).keys.card ∧
    ((mapEntries m).map fun e => Quotient.mk P.setoid e.1).Nodup ∧
    ∀ c v, (c, v) ∈ (mapEntries m).map (fun e => (Quotient.mk P.setoid e.1, e.2)) ↔
      (model P ops).lookup c = some v := by
  rcases create_spec (P := P) hsize hcreate with ⟨hinv₀, hempty⟩
  rcases run_represents hinv₀ hempty (fun m key _ _ => growthOk_of_fixed hfixed m key) hrun
    with ⟨hinv, hrep⟩
  refine ⟨?_, ?_, length_represents hinv hrep, mapEntries_nodup hinv, entries_represents hrep⟩
  · intro k
    rw [← hfixed k]
    exact get_represents hinv hrep k
  · intro k
    rcases remove_represents hinv hrep k with ⟨m', b, hrem, -, hb, hrep'⟩
    rw [hfixed k] at hrem
    refine ⟨m', b, hrem, hb, ?_⟩
    intro c v
    rw [entries_represents hrep']
    by_cases hc : c = Quotient.mk P.setoid k
    · rw [hc, Finmap.lookup_erase]
      simp
    · rw [Finmap.lookup_erase_ne hc]
      simp [hc]

end Model

/-- Eight-byte integer keys hashed by their value. -/
def intKey : Keyed Nat where
  hash k _ := k
  keyCompare a b := a == b
  len _ := 8
  equiv := nat_beq_equivalence
  compat _ _ h := beq_iff_eq.mp h

/-- A run's next state, when the call's result is computed. -/
theorem Run.set_of_result {cond : HashMap K V → K → Prop} {m₀ m : HashMap K V} {ops : List (Op K V)}
    (key : K) (value : Option V) (h : Run P cond m₀ ops m) (hc : cond m key)
    (hset : (mapSet P.toMapFns m key (P.len key) value).2 = true) :
    Run P cond m₀ (ops ++ [.set key value]) (mapSet P.toMapFns m key (P.len key) value).1 :=
  .set h hc (Prod.ext rfl hset)

theorem refines_finmap_intKey :
    ∃ m₀ m : HashMap Nat Nat, mapCreate 0 0 = some m₀ ∧
      Run intKey (fun _ _ => True) m₀ [.set 5 (some 1), .set 21 (some 2)] m ∧
      mapLength m = (model intKey [Op.set 5 (some 1), Op.set 21 (some 2)]).keys.card := by
  have hcreate : mapCreate 0 0 = some ((mapCreate (K := Nat) (V := Nat) 0 0).get rfl) := rfl
  have h0 : Run intKey (fun _ _ => True) ((mapCreate (K := Nat) (V := Nat) 0 0).get rfl)
    [] _ := .nil
  have h1 := Run.set_of_result 5 (some 1) h0 trivial (by decide +kernel)
  have h2 := Run.set_of_result 21 (some 2) h1 trivial (by decide +kernel)
  exact ⟨_, _, hcreate, h2,
    (refines_finmap intKey 8 (fun _ => rfl) 0 (by decide) 0 _ _ hcreate _ h2).2.2.1⟩

end Solidc.Map
