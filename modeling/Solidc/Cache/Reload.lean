import Solidc.Cache.Latest
import Solidc.Cache.Persist

/-! # Loading a saved cache

* `exec_capacity` — no call changes the capacity of a shard;
* `size_le_of_cover`, `length_le_size` — `size` counts the stored entries of a shard;
* `cacheSave_spec` — the file lists the entries that have not expired, each once;
* `loadLoop_spec` — reading such a list stores it, without an eviction as long as no shard is to
  hold more than its capacity;
* `load_save` — both together, for every cache that calls can lead to.
-/

namespace Solidc.Cache

open CLib

/-! ## Capacities -/

section Capacity

variable {heap heap' : Heap} {s t : Shard} {c c' : CacheS}

theorem compactLoop_capacity {i : Nat} (h : compactLoop heap s i = some t) :
    t.capacity = s.capacity := by
  induction i generalizing t with
  | zero =>
    cases h
    rfl
  | succ i ih =>
    rw [compactLoop, Option.bind_eq_some_iff] at h
    obtain ⟨t₁, h₁, h⟩ := h
    split at h
    · cases h
      exact ih h₁
    · rw [Option.bind_eq_some_iff] at h
      obtain ⟨entry, -, h⟩ := h
      rw [Option.map_eq_some_iff] at h
      obtain ⟨idx, -, rfl⟩ := h
      have hcap := ih h₁
      exact hcap

theorem compactIfCrowded_capacity {allocOk : Bool} (h : compactIfCrowded heap s allocOk = some t) :
    t.capacity = s.capacity := by
  unfold compactIfCrowded compactShard at h
  split at h
  · split at h
    · rw [Option.map_eq_some_iff] at h
      obtain ⟨t₁, h₁, rfl⟩ := h
      have hcap := compactLoop_capacity h₁
      exact hcap
    · cases h
      rfl
  · cases h
    rfl

theorem evictAny_capacity {fuel : Nat} {ok : Bool}
    (h : evictAny fuel heap s = some (heap', t, ok)) :
    t.capacity = s.capacity := by
  induction fuel generalizing s with
  | zero =>
    cases h
    rfl
  | succ fuel ih =>
    rw [evictAny] at h
    split at h
    · rw [Option.map_eq_some_iff] at h
      obtain ⟨heap₁, -, heq⟩ := h
      cases heq
      rfl
    · have hcap := ih h
      exact hcap

theorem evictScan_capacity {fuel : Nat} {ok : Bool}
    (h : evictScan fuel heap s = some (heap', t, ok)) : t.capacity = s.capacity := by
  induction fuel generalizing s heap with
  | zero => exact evictAny_capacity h
  | succ fuel ih =>
    rw [evictScan] at h
    split at h
    · have hcap := ih h
      exact hcap
    · rw [Option.bind_eq_some_iff] at h
      obtain ⟨entry, -, h⟩ := h
      split at h
      · rw [Option.map_eq_some_iff] at h
        obtain ⟨heap₁, -, heq⟩ := h
        cases heq
        rfl
      · rw [Option.bind_eq_some_iff] at h
        obtain ⟨heap₁, -, h⟩ := h
        have hcap := ih h
        exact hcap

/-- The capacities of the shards are those of another cache. -/
def SameCapacity (c c' : CacheS) : Prop := ∀ i, (c'.shards i).capacity = (c.shards i).capacity

theorem SameCapacity.put {i : Nat} (h : s.capacity = (c.shards i).capacity) :
    SameCapacity c (c.put i heap s) := by
  intro j
  by_cases hj : j = i
  · subst hj
    simpa [CacheS.put] using h
  · simp [CacheS.put, hj]

theorem cacheSet_capacity {key : Key} {value : List UInt8} {ttl : Nat} {now : Int}
    {mallocOk allocOk ok : Bool}
    (h : cacheSet c key value ttl now mallocOk allocOk = some (c', ok)) : SameCapacity c c' := by
  unfold cacheSet at h
  split at h
  · cases h
    exact fun _ => rfl
  · rw [setSection, Option.bind_eq_some_iff] at h
    obtain ⟨s, hs, h⟩ := h
    have hcap := compactIfCrowded_capacity hs
    rw [Option.bind_eq_some_iff] at h
    obtain ⟨⟨idx, found⟩, -, h⟩ := h
    simp only at h
    split at h
    · rw [Option.map_eq_some_iff] at h
      obtain ⟨heap, -, heq⟩ := h
      cases heq
      exact SameCapacity.put hcap
    · rw [Option.map_eq_some_iff] at h
      obtain ⟨⟨heap, t, ok'⟩, ht, heq⟩ := h
      have hcap' : t.capacity = s.capacity := by
        split at ht
        · exact evictScan_capacity ht
        · cases ht
          rfl
      simp only at heq
      split at heq
      · cases heq
        exact SameCapacity.put (hcap'.trans hcap)
      · cases heq
        exact SameCapacity.put (hcap'.trans hcap)

theorem clearLoop_capacity {i : Nat} (h : clearLoop c i = some c') : SameCapacity c c' := by
  induction i generalizing c' with
  | zero =>
    cases h
    exact fun _ => rfl
  | succ i ih =>
    rw [clearLoop, Option.bind_eq_some_iff] at h
    obtain ⟨c₁, h₁, h⟩ := h
    rw [clearSection, Option.map_eq_some_iff] at h
    obtain ⟨heap, -, rfl⟩ := h
    intro j
    have hput : SameCapacity c₁ (c₁.put i heap (c₁.shards i).blank) := SameCapacity.put rfl
    rw [hput j, ih h₁ j]

theorem cacheGet_capacity {key : Key} {now : Int} {r : Option Ptr}
    (h : cacheGet c key now = some (c', r)) : SameCapacity c c' := by
  unfold cacheGet at h
  split at h
  · cases h
    exact fun _ => rfl
  · rw [Option.bind_eq_some_iff] at h
    obtain ⟨⟨c₁, found⟩, hget, h⟩ := h
    -- the read section writes reference counts and the heap, never a shard
    have hsame : c₁.shards = c.shards := by
      rw [getSection, Option.bind_eq_some_iff] at hget
      obtain ⟨⟨idx, ok⟩, -, hget⟩ := hget
      simp only at hget
      split at hget
      · rw [Option.bind_eq_some_iff] at hget
        obtain ⟨p, -, hget⟩ := hget
        rw [Option.bind_eq_some_iff] at hget
        obtain ⟨entry, -, hget⟩ := hget
        split at hget
        · cases hget
          rfl
        · rw [Option.bind_eq_some_iff] at hget
          obtain ⟨heap, -, hget⟩ := hget
          rw [Option.map_eq_some_iff] at hget
          obtain ⟨heap', -, heq⟩ := hget
          cases heq
          rfl
      · cases hget
        rfl
    cases found with
    | miss =>
      cases h
      exact fun i => by rw [hsame]
    | hit p =>
      cases h
      exact fun i => by rw [hsame]
    | expired =>
      simp only [Option.map_eq_some_iff] at h
      obtain ⟨c₂, hexp, heq⟩ := h
      cases heq
      intro i
      rw [← hsame]
      rw [expireSection, Option.bind_eq_some_iff] at hexp
      obtain ⟨⟨idx, ok⟩, -, hexp⟩ := hexp
      simp only at hexp
      split at hexp
      · rw [Option.bind_eq_some_iff] at hexp
        obtain ⟨entry, -, hexp⟩ := hexp
        split at hexp
        · rw [Option.map_eq_some_iff] at hexp
          obtain ⟨heap, -, rfl⟩ := hexp
          have htomb : ((c₁.shards (shardOf key)).tombstone idx).capacity =
            (c₁.shards (shardOf key)).capacity := rfl
          exact SameCapacity.put htomb i
        · cases hexp
          rfl
      · cases hexp
        rfl

theorem cacheInvalidate_capacity {key : Key} {allocOk : Bool}
    (h : cacheInvalidate c key allocOk = some c') : SameCapacity c c' := by
  rw [cacheInvalidate, invalidateSection, Option.bind_eq_some_iff] at h
  obtain ⟨⟨idx, found⟩, -, h⟩ := h
  simp only at h
  split at h
  · rw [Option.bind_eq_some_iff] at h
    obtain ⟨t, ht, h⟩ := h
    rw [Option.map_eq_some_iff] at h
    obtain ⟨heap, -, rfl⟩ := h
    have hcap := compactIfCrowded_capacity ht
    exact SameCapacity.put hcap
  · cases h
    exact fun _ => rfl

/-- No call changes a capacity. -/
theorem exec_capacity {op : Op} (h : exec c op = some c') : SameCapacity c c' := by
  cases op with
  | set key value ttl now mallocOk allocOk =>
    rw [exec, Option.map_eq_some_iff] at h
    obtain ⟨⟨c₁, ok⟩, h₁, rfl⟩ := h
    exact cacheSet_capacity h₁
  | get key now =>
    rw [exec, Option.map_eq_some_iff] at h
    obtain ⟨⟨c₁, r⟩, h₁, rfl⟩ := h
    exact cacheGet_capacity h₁
  | invalidate key allocOk => exact cacheInvalidate_capacity h
  | clear => exact clearLoop_capacity h

end Capacity

/-! ## Sizes -/

variable {c c' : CacheS}

/-- What a slot of a shard holds. -/
def slotData (c : CacheS) (i j : Nat) : Option EntryData :=
  ((c.shards i).entries j).bind (contents c.heap)

/-- The slots of a shard with an entry. -/
def liveSlots (c : CacheS) (i : Nat) : Finset Nat :=
  (Finset.range (c.shards i).bucketCount).filter fun j => liveTag ((c.shards i).tags j) = true

theorem card_liveSlots (hinv : CacheInv c) {i : Nat} (hi : i < shardCount) :
    (liveSlots c i).card = (c.shards i).size := by
  rw [(hinv.shard i hi).size, slotCount, ← Finset.card_filter]
  rfl

/-- A live slot holds a stored entry of its shard, and every such entry is in one. -/
theorem slotData_spec (hinv : CacheInv c) {i : Nat} (hi : i < shardCount) (d : EntryData) :
    (∃ j ∈ liveSlots c i, slotData c i j = some d) ↔ Stored c d ∧ shardOf d.key = i := by
  have hs := hinv.shard i hi
  constructor
  · rintro ⟨j, hj, hd⟩
    rw [liveSlots, Finset.mem_filter, Finset.mem_range] at hj
    obtain ⟨p, e, hl, hidx⟩ := hs.of_liveTag hj.1 hj.2
    rw [slotData, hl.entry, Option.bind_some, hl.data] at hd
    cases hd
    refine ⟨⟨p, ⟨i, hi, hl.owns hj.1⟩, hl.data⟩, ?_⟩
    rw [shardOf, ← hl.good.hash, hidx]
  · rintro ⟨⟨p, hp, hd⟩, hkey⟩
    obtain ⟨e, he, -, hown⟩ := hinv.of_owned hp
    rw [hd] at he
    cases he
    rw [hkey] at hown
    obtain ⟨j, hj, e, hl, -⟩ := hs.of_owns hown
    refine ⟨j, ?_, ?_⟩
    · rw [liveSlots, Finset.mem_filter, Finset.mem_range]
      exact ⟨hj, hl.live⟩
    · rw [slotData, hl.entry, Option.bind_some, hd]

theorem slotData_injOn (hinv : CacheInv c) {i : Nat} (hi : i < shardCount) :
    Set.InjOn (slotData c i) (liveSlots c i) := by
  have hs := hinv.shard i hi
  intro j hj k hk heq
  rw [Finset.mem_coe, liveSlots, Finset.mem_filter, Finset.mem_range] at hj hk
  obtain ⟨p, d, hl, -⟩ := hs.of_liveTag hj.1 hj.2
  obtain ⟨q, e, hl', -⟩ := hs.of_liveTag hk.1 hk.2
  rw [slotData, slotData, hl.entry, hl'.entry, Option.bind_some, Option.bind_some, hl.data,
    hl'.data] at heq
  cases heq
  exact hs.slot_unique hj.1 hk.1 hl hl' rfl

section Sizes

open Classical

/-- A list of all entries of a shard is at least as long as `size` says. -/
theorem size_le_of_cover (hinv : CacheInv c) {i : Nat} (hi : i < shardCount) {l : List EntryData}
    (h : ∀ d, Stored c d → shardOf d.key = i → d ∈ l) : (c.shards i).size ≤ l.length := by
  have hmaps : ∀ j ∈ liveSlots c i, slotData c i j ∈ (l.map some).toFinset := by
    intro j hj
    have hlive := hj
    rw [liveSlots, Finset.mem_filter, Finset.mem_range] at hlive
    obtain ⟨p, d, hl, -⟩ := (hinv.shard i hi).of_liveTag hlive.1 hlive.2
    have hd : slotData c i j = some d := by
      rw [slotData, hl.entry, Option.bind_some, hl.data]
    obtain ⟨hst, hkey⟩ := (slotData_spec hinv hi d).mp ⟨j, hj, hd⟩
    rw [hd, List.mem_toFinset]
    exact List.mem_map_of_mem (h d hst hkey)
  calc (c.shards i).size = (liveSlots c i).card := (card_liveSlots hinv hi).symm
    _ ≤ (l.map some).toFinset.card :=
      Finset.card_le_card_of_injOn _ hmaps (slotData_injOn hinv hi)
    _ ≤ (l.map some).length := List.toFinset_card_le _
    _ = l.length := List.length_map ..

/-- A list of different entries of a shard is at most that long. -/
theorem length_le_size (hinv : CacheInv c) {i : Nat} (hi : i < shardCount) {l : List EntryData}
    (hnodup : l.Nodup) (h : ∀ d ∈ l, Stored c d ∧ shardOf d.key = i) :
    l.length ≤ (c.shards i).size := by
  have hsub : (l.map some).toFinset ⊆ (liveSlots c i).image (slotData c i) := by
    intro x hx
    rw [List.mem_toFinset, List.mem_map] at hx
    obtain ⟨d, hd, rfl⟩ := hx
    obtain ⟨j, hj, heq⟩ := (slotData_spec hinv hi d).mpr (h d hd)
    exact Finset.mem_image.mpr ⟨j, hj, heq⟩
  have hmap : (l.map some).Nodup := hnodup.map (Option.some_injective _)
  calc l.length = (l.map some).length := (List.length_map ..).symm
    _ = (l.map some).toFinset.card := (List.toFinset_card_of_nodup hmap).symm
    _ ≤ ((liveSlots c i).image (slotData c i)).card := Finset.card_le_card hsub
    _ ≤ (liveSlots c i).card := Finset.card_image_le
    _ = (c.shards i).size := card_liveSlots hinv hi

end Sizes

/-! ## Saving -/

/-- The loop over the slots of a shard writes the records of its unexpired entries. The keys
written are those of the slots passed, so each key is written once. -/
theorem saveSlots_spec {heap : Heap} {idx : Nat} {s : Shard}
    (hs : ShardInv (contents heap) idx s) (now : Int) (bytes : List UInt8) (count : Nat)
    (hcount : count < 2 ^ 64) {j : Nat} (hj : j ≤ s.bucketCount) :
    ∃ ds : List EntryData,
      saveSlots heap s now j (bytes, count) =
        some (bytes ++ ds.flatMap record, (count + ds.length) % 2 ^ 64) ∧
      (ds.map EntryData.key).Nodup ∧
      ∀ d, d ∈ ds ↔ now < d.expiresAt ∧ ∃ i < j, ∃ p, LiveAt (contents heap) s i p d := by
  induction j with
  | zero =>
    refine ⟨[], ?_, List.nodup_nil, by simp⟩
    rw [saveSlots, List.flatMap_nil, List.append_nil, List.length_nil, Nat.add_zero,
      Nat.mod_eq_of_lt hcount]
  | succ j ih =>
    obtain ⟨ds, hrun, hnodup, hmem⟩ := ih (Nat.le_of_succ_le hj)
    rw [saveSlots, hrun, Option.bind_some]
    simp only [Nat.exists_lt_succ_right]
    by_cases hlive : liveTag (s.tags j) = true
    · obtain ⟨p, d, hl, -⟩ := hs.of_liveTag hj hlive
      obtain ⟨e, he, hed⟩ := contents_eq_some.mp hl.data
      have hslot : ∀ e q, LiveAt (contents heap) s j q e → e = d := by
        intro e q hq
        have hqp : q = p := Option.some.inj (hq.entry.symm.trans hl.entry)
        rw [hqp] at hq
        exact Option.some.inj (hq.data.symm.trans hl.data)
      have hcontrol : ¬ s.tags j &&& tagControlMask ≠ 0 := not_not.mpr ((liveTag_iff _).mp hlive)
      simp only [if_neg hcontrol, hl.entry, he, Option.map_some, hed]
      split
      · next hexp =>
        refine ⟨ds, rfl, hnodup, fun e => ?_⟩
        rw [hmem]
        constructor
        · exact fun h => ⟨h.1, .inl h.2⟩
        · rintro ⟨hlt, h | ⟨q, hq⟩⟩
          · exact ⟨hlt, h⟩
          · rw [hslot e q hq] at hlt
            exact absurd hexp (Int.not_le.mpr hlt)
      · next hexp =>
        refine ⟨ds ++ [d], ?_, ?_, fun e => ?_⟩
        · simp only [List.flatMap_append, List.flatMap_singleton, List.append_assoc,
            List.length_append, List.length_singleton, Nat.mod_add_mod, Nat.add_assoc]
        · -- an equal key would stand in an earlier slot
          rw [List.map_append, List.nodup_append]
          refine ⟨hnodup, List.nodup_singleton _, ?_⟩
          intro k hk k' hk' heq
          rw [List.map_singleton, List.mem_singleton] at hk'
          obtain ⟨e, he, rfl⟩ := List.mem_map.mp hk
          obtain ⟨-, i, hi, q, hq⟩ := (hmem e).mp he
          have hij := hs.slot_unique (Nat.lt_trans hi hj) hj hq hl (heq.trans hk')
          exact Nat.ne_of_lt hi hij
        · rw [List.mem_append, List.mem_singleton, hmem]
          constructor
          · rintro (⟨hlt, h⟩ | rfl)
            · exact ⟨hlt, .inl h⟩
            · exact ⟨Int.not_le.mp hexp, .inr ⟨p, hl⟩⟩
          · rintro ⟨hlt, h | ⟨q, hq⟩⟩
            · exact .inl ⟨hlt, h⟩
            · exact .inr (hslot e q hq)
    · have hcontrol : s.tags j &&& tagControlMask ≠ 0 := fun h => hlive ((liveTag_iff _).mpr h)
      simp only [if_pos hcontrol]
      refine ⟨ds, rfl, hnodup, fun e => ?_⟩
      rw [hmem]
      constructor
      · exact fun h => ⟨h.1, .inl h.2⟩
      · rintro ⟨hlt, h | ⟨q, hq⟩⟩
        · exact ⟨hlt, h⟩
        · exact absurd hq.live hlive

/-- The loop over the shards. -/
theorem saveShards_spec (hinv : CacheInv c) (now : Int) {room : Nat}
    (hroom : ∀ i < shardCount, (c.shards i).capacity ≤ room) {i : Nat} (hi : i ≤ shardCount) :
    ∃ ds : List EntryData,
      saveShards c now i = some (ds.flatMap record, ds.length % 2 ^ 64) ∧
      (ds.map EntryData.key).Nodup ∧ ds.length ≤ i * room ∧
      ∀ d, d ∈ ds ↔ Stored c d ∧ now < d.expiresAt ∧ shardOf d.key < i := by
  induction i with
  | zero => exact ⟨[], rfl, List.nodup_nil, by simp, by simp⟩
  | succ i ih =>
    obtain ⟨ds, hrun, hnodup, hlen, hmem⟩ := ih (Nat.le_of_succ_le hi)
    have hs := hinv.shard i hi
    obtain ⟨es, hrun', hnodup', hmem'⟩ := saveSlots_spec hs now (ds.flatMap record)
      (ds.length % 2 ^ 64) (Nat.mod_lt _ (by decide)) (Nat.le_refl _)
    -- the entries of shard `i`
    have hshard : ∀ d, d ∈ es ↔ Stored c d ∧ now < d.expiresAt ∧ shardOf d.key = i := by
      intro d
      rw [hmem', and_comm (a := now < d.expiresAt), and_left_comm,
        and_comm (a := now < d.expiresAt),
        ← slotData_spec hinv hi d]
      refine and_congr_left fun _ => ?_
      constructor
      · rintro ⟨j, hj, p, hl⟩
        refine ⟨j, ?_, by rw [slotData, hl.entry, Option.bind_some, hl.data]⟩
        rw [liveSlots, Finset.mem_filter, Finset.mem_range]
        exact ⟨hj, hl.live⟩
      · rintro ⟨j, hj, hd⟩
        rw [liveSlots, Finset.mem_filter, Finset.mem_range] at hj
        obtain ⟨p, e, hl, -⟩ := hs.of_liveTag hj.1 hj.2
        rw [slotData, hl.entry, Option.bind_some, hl.data] at hd
        cases hd
        exact ⟨j, hj.1, p, hl⟩
    have hsize : es.length ≤ room := by
      have hle := length_le_size hinv hi hnodup'.of_map
        fun d hd => ⟨((hshard d).mp hd).1, ((hshard d).mp hd).2.2⟩
      exact Nat.le_trans hle (Nat.le_trans hs.bounded (hroom i hi))
    refine ⟨ds ++ es, ?_, ?_, ?_, fun d => ?_⟩
    · rw [saveShards, hrun, Option.bind_some, hrun', List.flatMap_append, List.length_append,
        Nat.mod_add_mod]
    · rw [List.map_append, List.nodup_append]
      refine ⟨hnodup, hnodup', ?_⟩
      rintro k hk k' hk' rfl
      obtain ⟨d, hd, hdk⟩ := List.mem_map.mp hk
      obtain ⟨e, he, hek⟩ := List.mem_map.mp hk'
      have hlt := ((hmem d).mp hd).2.2
      have heq := ((hshard e).mp he).2.2
      rw [hdk] at hlt
      rw [hek] at heq
      exact Nat.ne_of_lt hlt heq
    · rw [List.length_append, Nat.succ_mul]
      exact Nat.add_le_add hlen hsize
    · rw [List.mem_append, hmem, hshard, ← and_or_left, ← and_or_left,
        Nat.lt_succ_iff_lt_or_eq]

/-- The file: a header with the number of records, and the records of the entries that have not
expired. -/
theorem cacheSave_spec (hinv : CacheInv c) (now : Int) {room : Nat}
    (hroom : ∀ i < shardCount, (c.shards i).capacity ≤ room) (hfit : shardCount * room < 2 ^ 64) :
    ∃ ds : List EntryData,
      cacheSave c now = some (header ds.length ++ ds.flatMap record) ∧ ds.length < 2 ^ 64 ∧
      (ds.map EntryData.key).Nodup ∧ ∀ d, d ∈ ds ↔ Stored c d ∧ now < d.expiresAt := by
  obtain ⟨ds, hrun, hnodup, hlen, hmem⟩ := saveShards_spec hinv now hroom (Nat.le_refl _)
  have hlt := Nat.lt_of_le_of_lt hlen hfit
  refine ⟨ds, ?_, hlt, hnodup, fun d => ?_⟩
  · have htake : (header 0 ++ ds.flatMap record).take 8 =
        toLe 4 cacheFileMagic ++ toLe 4 cacheFileVersion := by
      have h8 : (8 : Nat) = (toLe 4 cacheFileMagic ++ toLe 4 cacheFileVersion).length := by simp
      rw [header, ← List.append_assoc, List.append_assoc _ _ (ds.flatMap record), h8,
        List.take_left]
    have hdrop : (header 0 ++ ds.flatMap record).drop (8 + (toLe 8 ds.length).length) =
        ds.flatMap record := by
      have h16 : 8 + (toLe 8 ds.length).length = (header 0).length := by simp [header]
      rw [h16, List.drop_left]
    rw [cacheSave, hrun, Option.map_some, Nat.mod_eq_of_lt hlt]
    simp only [overwrite, htake, hdrop]
    simp [header]
  · rw [hmem]
    have hshard := shardOf_lt d.key
    tauto

/-! ## Loading -/

/-- An entry whose record can be read back at time `now`. -/
structure Portable (now : Int) (d : EntryData) : Prop where
  good : d.Good
  keyPos : d.key.length ≠ 0
  keyShort : d.key.length ≤ 2 ^ 32 - 2
  valuePos : d.value.length ≠ 0
  valueShort : d.value.length < 2 ^ 64
  expiryLow : -2 ^ 63 ≤ d.expiresAt
  expiryHigh : d.expiresAt < 2 ^ 63
  expirySoon : d.expiresAt < now + 2 ^ 32

/-- Every allocation succeeds. -/
def plentiful : Nat → LoadMem := fun _ => ⟨true, true, true, true⟩

theorem readLengths_record {now : Int} {d : EntryData} (h : Portable now d) (rest : List UInt8) :
    readLengths (record d ++ rest) =
      some ((d.key.length, d.value.length, d.expiresAt), d.key ++ (d.value ++ rest)) := by
  have hkey : ofLe (toLe 4 d.key.length) = d.key.length := ofLe_toLe h.good.short
  have hvalue : ofLe (toLe 8 d.value.length) = d.value.length := ofLe_toLe h.valueShort
  have hexpiry : int64 (ofLe (toLe 8 (word64 d.expiresAt))) = d.expiresAt := by
    rw [ofLe_toLe (word64_lt _), int64_word64 h.expiryLow h.expiryHigh]
  rw [readLengths, record, h.good.keyLen, List.take_length]
  simp only [List.append_assoc]
  rw [fread_append (length_toLe 4 _), Option.bind_some, fread_append (length_toLe 8 _),
    Option.bind_some, fread_append (length_toLe 8 _), Option.map_some, hkey, hvalue, hexpiry]

/-- `cache_set` of an absent key into a shard that is not full. -/
theorem cacheSet_absent (hinv : CacheInv c) {key : Key} {value : List UInt8} (ttl : Nat) (now : Int)
    (hkey : key.length ≠ 0) (hshort : key.length < 2 ^ 32) (hvalue : value.length ≠ 0)
    (habsent : ∀ d, Stored c d → d.key ≠ key)
    (hroom : (c.shards (shardOf key)).size < (c.shards (shardOf key)).capacity) :
    ∃ c', cacheSet c key value ttl now true true = some (c', true) ∧
      Inserted c c' (setData c key value ttl now) none := by
  obtain ⟨c', victim, hrun, hvictim, hins⟩ := setSection_spec hinv hshort value ttl now true
  have haccept : ¬ (key.length = 0 ∨ value.length = 0 ∨ true = false) := by
    simp only [hkey, hvalue, or_self, Bool.true_eq_false, not_false_eq_true]
  refine ⟨c', by rw [cacheSet, if_neg haccept, hrun], ?_⟩
  cases hvictim with
  | none => exact hins
  | @old p d hp hd hk => exact absurd hk (habsent d ⟨p, hp, hd⟩)
  | evicted _ _ _ _ hfull => exact absurd hroom (Nat.not_lt.mpr hfull)

/-- The entry that the loader stores is the one that was saved. -/
theorem setData_remaining {now : Int} {d : EntryData} (h : Portable now d)
    (hlive : now < d.expiresAt) :
    setData c d.key d.value ((d.expiresAt - now) % 2 ^ 32).toNat now = d := by
  have hsoon := h.expirySoon
  have hmod : (d.expiresAt - now) % 2 ^ 32 = d.expiresAt - now :=
    Int.emod_eq_of_lt (by omega) (by omega)
  have hpos : (d.expiresAt - now).toNat ≠ 0 := by omega
  have hsum : now + ((d.expiresAt - now).toNat : Int) = d.expiresAt := by omega
  rw [setData, hmod, if_neg hpos, hsum, ← h.good.hash, Nat.mod_eq_of_lt h.good.short,
    ← h.good.keyLen]

/-- No slot has lost an entry that was put into the cache. -/
def NothingEvicted (c : CacheS) : Prop := ∀ p < c.next, Owned c p

/-- The records of different keys are read and stored. `done` are the entries of the records read
so far; the induction is on those that are left. -/
theorem loadLoop_spec {now : Int} (i valBufCap : Nat) (done : List EntryData) {ds : List EntryData}
    (hinv : CacheInv c) (hportable : ∀ d ∈ ds, Portable now d)
    (hnodup : ((done ++ ds).map EntryData.key).Nodup)
    (hroom : ∀ k < shardCount,
      ((done ++ ds).filter fun d => shardOf d.key = k).length ≤ (c.shards k).capacity)
    (hstored : ∀ d, Stored c d ↔ d ∈ done ∧ now < d.expiresAt) (hkept : NothingEvicted c) :
    ∃ c', loadLoop now (fun _ => now) plentiful ds.length i (ds.flatMap record) valBufCap c =
        some (c', true) ∧
      CacheInv c' ∧ (∀ d, Stored c' d ↔ d ∈ done ++ ds ∧ now < d.expiresAt) ∧
      NothingEvicted c' := by
  induction ds generalizing c done i valBufCap with
  | nil => exact ⟨c, rfl, hinv, by simpa using hstored, hkept⟩
  | cons d ds ih =>
    have hd := hportable d List.mem_cons_self
    have hrest : ∀ e ∈ ds, Portable now e := fun e he => hportable e (List.mem_cons_of_mem d he)
    have hassoc : done ++ d :: ds = (done ++ [d]) ++ ds := by simp
    -- the key buffer holds the key and its terminator, so the record is not skipped
    have hfits : ¬ keyRoom d.key.length < d.key.length + 1 := by
      have hshort := hd.keyShort
      unfold keyRoom keyBufSize
      split
      · rw [Nat.mod_eq_of_lt (by omega)]
        omega
      · omega
    rw [List.flatMap_cons, List.length_cons, loadLoop, readLengths_record hd]
    simp only [plentiful, Bool.true_eq_false, and_false, if_false, hfits,
      fread_append (rfl : d.key.length = _), fread_append (rfl : d.value.length = _),
      Option.bind_some, Option.map_some]
    split
    · next hlive =>
      have hfresh : ∀ e, Stored c e → e.key ≠ d.key := by
        intro e he heq
        rw [List.map_append, List.nodup_append] at hnodup
        exact hnodup.2.2 e.key (List.mem_map_of_mem ((hstored e).mp he).1) d.key
          (by simp) heq
      -- the records of one shard fit its capacity, so storing this one evicts nothing
      have hspace : (c.shards (shardOf d.key)).size < (c.shards (shardOf d.key)).capacity := by
        have hsize := size_le_of_cover hinv (shardOf_lt d.key)
          (l := done.filter fun e => shardOf e.key = shardOf d.key) fun e he hk =>
            List.mem_filter.mpr ⟨((hstored e).mp he).1, by simpa using hk⟩
        have hcap := hroom (shardOf d.key) (shardOf_lt d.key)
        rw [List.filter_append, List.filter_cons_of_pos (by simp), List.length_append,
          List.length_cons] at hcap
        omega
      obtain ⟨c₁, hset, hins⟩ := cacheSet_absent hinv ((d.expiresAt - now) % 2 ^ 32).toNat now
        hd.keyPos hd.good.short hd.valuePos hfresh hspace
      rw [hset, Option.bind_some]
      rw [setData_remaining hd hlive] at hins
      simp only [if_true]
      rw [hassoc] at hnodup hroom ⊢
      apply ih _ _ _ hins.inv hrest hnodup
      · intro k hk
        rw [cacheSet_capacity hset k]
        exact hroom k hk
      · intro e
        rw [hins.stored hinv (v := d.key) nofun (fun _ => hfresh) e, hstored, List.mem_append,
          List.mem_singleton]
        constructor
        · rintro (rfl | ⟨⟨he, hlt⟩, -⟩)
          · exact ⟨.inr rfl, hlive⟩
          · exact ⟨.inl he, hlt⟩
        · rintro ⟨he | rfl, hlt⟩
          · exact .inr ⟨⟨he, hlt⟩, hfresh e ((hstored e).mpr ⟨he, hlt⟩)⟩
          · exact .inl rfl
      · intro p hp
        rw [hins.next] at hp
        rcases Nat.lt_or_eq_of_le (Nat.le_of_lt_succ hp) with hp | rfl
        · exact (hins.owned p).mpr (.inr ⟨hkept p hp, nofun⟩)
        · exact (hins.owned _).mpr (.inl rfl)
    · next hexp =>
      -- the record expired before the load: it is read and dropped
      rw [hassoc] at hnodup hroom ⊢
      apply ih _ _ _ hinv hrest hnodup hroom _ hkept
      intro e
      rw [hstored, List.mem_append, List.mem_singleton]
      constructor
      · exact fun h => ⟨.inl h.1, h.2⟩
      · rintro ⟨he | rfl, hlt⟩
        · exact ⟨he, hlt⟩
        · exact absurd hlt hexp

/-! ## Runs -/

/-- Keys and values that are not empty, key lengths up to `2^32 - 2`, lengths, times to live and
clock readings of the types the code has, with no overflow of the expiry time. -/
def Op.Sized : Op → Prop
  | .set key value ttl now _ _ =>
    key.length ≠ 0 ∧ key.length ≤ 2 ^ 32 - 2 ∧ value.length ≠ 0 ∧ value.length < 2 ^ 64 ∧
      ttl < 2 ^ 32 ∧ -2 ^ 63 ≤ now ∧ now + 2 ^ 32 ≤ 2 ^ 63
  | .get key _ => key.length < 2 ^ 32
  | .invalidate key _ => key.length < 2 ^ 32
  | .clear => True

theorem Op.Sized.short {op : Op} (h : op.Sized) : op.Short := by
  cases op with
  | set key =>
    have hkey := h.2.1
    show key.length < 2 ^ 32
    omega
  | get => exact h
  | invalidate => exact h
  | clear => trivial

/-- The caches that calls lead to while the clock does not go back, with the last reading of the
clock. A caller who releases a pointer drops a reference of its own, not that of a slot. -/
inductive Reaches (capacity ttl : Nat) : Int → CacheS → Prop
  | create (now : Int) : Reaches capacity ttl now (cacheCreate capacity ttl)
  | call {now : Int} {c c' : CacheS} {op : Op} : Reaches capacity ttl now c → op.Sized →
      (∀ t, op.clock = some t → now ≤ t) → exec c op = some c' →
      Reaches capacity ttl (op.clock.getD now) c'
  | release {now : Int} {c : CacheS} {p : Ptr} {e : Entry} {heap : Heap} :
      Reaches capacity ttl now c → c.heap p = some e → (Owned c p → e.refCount ≠ 1) →
      entryRefDec c.heap (some p) = some heap → Reaches capacity ttl now { c with heap := heap }

theorem Portable.mono {now now' : Int} {d : EntryData} (h : Portable now d) (hle : now ≤ now') :
    Portable now' d :=
  { h with expirySoon := by have := h.expirySoon; omega }

/-- A release changes neither the slots nor what they refer to. -/
theorem release_spec (hinv : CacheInv c) {p : Ptr} {e : Entry} {heap : Heap}
    (he : c.heap p = some e) (hheld : Owned c p → e.refCount ≠ 1)
    (hdec : entryRefDec c.heap (some p) = some heap) :
    CacheInv { c with heap := heap } ∧ ∀ d, Stored { c with heap := heap } d ↔ Stored c d := by
  obtain ⟨heap', hdec', hcore⟩ := entryRefDec_spec he
  rw [hdec] at hdec'
  cases hdec'
  have hcont : ∀ q, Owned c q → contents heap q = contents c.heap q := by
    intro q hq
    by_cases hqp : q = p
    · subst hqp
      have hp : core c.heap q = some (e.refCount, e.data) := by
        rw [core, he, Option.map_some]
      rw [contents_eq_core, contents_eq_core, hcore, decAt, Function.update_self, hp,
        Option.bind_some, decRef, if_neg (hheld hq), Option.map_some, Option.map_some]
    · exact contents_decAt hcore hqp
  refine ⟨⟨fun i hi => ?_, fun q hq => ?_⟩, fun d => ?_⟩
  · exact (hinv.shard i hi).frame fun q hq => hcont q ⟨i, hi, hq⟩
  · have hnone := hinv.fresh q hq
    have hqp : q ≠ p := by
      rintro rfl
      rw [he] at hnone
      cases hnone
    show heap q = none
    rw [← core_eq_none, hcore, decAt, Function.update_of_ne hqp, core_eq_none, hnone]
  · refine exists_congr fun q => and_congr_right fun hq => ?_
    show contents heap q = some d ↔ _
    rw [hcont q hq]

/-- An entry stored after a call was stored before, or is the one of a `cache_set`. -/
theorem Effect.stored_from {op : Op} (h : Effect c c' op) {d : EntryData} (hd : Stored c' d) :
    Stored c d ∨ ∃ key value ttl now mallocOk allocOk,
      op = .set key value ttl now mallocOk allocOk ∧ d = setData c key value ttl now := by
  cases h with
  | looked hst => exact .inl ((hst d).mp hd)
  | expired _ _ _ hst => exact .inl ((hst d).mp hd).1
  | removed hst => exact .inl ((hst d).mp hd).1
  | cleared hst => exact absurd hd (hst d)
  | rejected _ hst => exact .inl ((hst d).mp hd)
  | stored hst =>
    rcases (hst d).mp hd with heq | ⟨hs, -⟩
    · exact .inr ⟨_, _, _, _, _, _, rfl, heq⟩
    · exact .inl hs
  | evicted _ _ _ _ hst =>
    rcases (hst d).mp hd with heq | ⟨hs, -⟩
    · exact .inr ⟨_, _, _, _, _, _, rfl, heq⟩
    · exact .inl hs

/-- What holds along a run. -/
structure Saveable (capacity ttl : Nat) (now : Int) (c : CacheS) : Prop where
  inv : CacheInv c
  small : c.ttl < 2 ^ 32
  capacities : SameCapacity (cacheCreate capacity ttl) c
  portable : ∀ d, Stored c d → Portable now d

theorem Reaches.saveable {capacity ttl : Nat} (hcap : capacity < 2 ^ 64) (httl : ttl < 2 ^ 32)
    {now : Int} (h : Reaches capacity ttl now c) : Saveable capacity ttl now c := by
  induction h with
  | create now =>
    obtain ⟨hinv, hempty⟩ := create_spec hcap ttl
    refine ⟨hinv, ?_, fun _ => rfl, ?_⟩
    · show (if ttl = 0 then defaultTtl else ttl) < 2 ^ 32
      unfold defaultTtl
      split <;> omega
    · rintro d ⟨p, hp, -⟩
      exact absurd hp (hempty p)
  | @call now c c' op _ hop hclock hexec ih =>
    obtain ⟨c₁, hexec', hinv, httl', heff⟩ := exec_spec ih.inv hop.short
    rw [hexec] at hexec'
    cases hexec'
    have hnow : now ≤ op.clock.getD now := by
      cases hc : op.clock with
      | none => exact Int.le_refl now
      | some t => exact hclock t hc
    refine ⟨hinv, httl' ▸ ih.small, fun i => (exec_capacity hexec i).trans (ih.capacities i), ?_⟩
    intro d hd
    -- an entry was stored before, or is the one that this operation stores
    rcases heff.stored_from hd with hs | ⟨key, value, ttl', t, mallocOk, allocOk, rfl, rfl⟩
    · exact (ih.portable d hs).mono hnow
    · obtain ⟨hkey, hshort, hvalue, hsize, hsmall, hlow, hhigh⟩ := hop
      have httl : (if ttl' = 0 then c.ttl else ttl') < 2 ^ 32 := by
        split
        · exact ih.small
        · exact hsmall
      refine ⟨setData_good key value ttl' t (by omega), hkey, hshort, hvalue, hsize, ?_, ?_, ?_⟩
      · show _ ≤ t + ((if ttl' = 0 then c.ttl else ttl' : Nat) : Int)
        omega
      · show t + ((if ttl' = 0 then c.ttl else ttl' : Nat) : Int) < _
        omega
      · show t + ((if ttl' = 0 then c.ttl else ttl' : Nat) : Int) < t + 2 ^ 32
        omega
  | release _ he hheld hdec ih =>
    obtain ⟨hinv, hst⟩ := release_spec ih.inv he hheld hdec
    exact ⟨hinv, ih.small, ih.capacities, fun d hd => ih.portable d ((hst d).mp hd)⟩

/-- All shards together hold fewer entries than a 64-bit counter can count. -/
theorem create_capacity {capacity : Nat} (hcap : capacity < 2 ^ 64) (ttl i : Nat) :
    ((cacheCreate capacity ttl).shards i).capacity ≤ 2 ^ 59 - 1 := by
  show (if (if capacity = 0 then 1000 else capacity) / shardCount < 1 then 1
    else (if capacity = 0 then 1000 else capacity) / shardCount) ≤ 2 ^ 59 - 1
  unfold shardCount
  split_ifs <;> omega

theorem readHeader_header {n : Nat} (hn : n < 2 ^ 64) (rest : List UInt8) :
    readHeader (header n ++ rest) = some ((cacheFileMagic, cacheFileVersion, n), rest) := by
  have hcount : ofLe (toLe 8 n) = n := ofLe_toLe hn
  have hmagic : ofLe (toLe 4 cacheFileMagic) = cacheFileMagic := ofLe_toLe (by decide)
  have hversion : ofLe (toLe 4 cacheFileVersion) = cacheFileVersion := ofLe_toLe (by decide)
  rw [readHeader, header]
  simp only [List.append_assoc]
  rw [fread_append (length_toLe 4 _), Option.bind_some, fread_append (length_toLe 4 _),
    Option.bind_some, fread_append (length_toLe 8 _), Option.map_some, hmagic, hversion, hcount]

/-- A cache that is saved at `t` and loaded at `t'` into a new cache of the same capacity: the
load succeeds, evicts nothing, and stores exactly the entries that have not expired. -/
theorem load_save (capacity ttl₀ ttl₁ : Nat) (hcap : capacity < 2 ^ 64) (httl : ttl₀ < 2 ^ 32)
    {now t t' : Int} (h : Reaches capacity ttl₀ now c) (ht : now ≤ t) (ht' : t ≤ t') :
    ∃ file c', cacheSave c t = some file ∧
      cacheLoad (cacheCreate capacity ttl₁) file t' (fun _ => t') plentiful = some (c', true) ∧
      CacheInv c' ∧ NothingEvicted c' ∧ ∀ d, Stored c' d ↔ Stored c d ∧ t' < d.expiresAt := by
  have hsave := h.saveable hcap httl
  have hroom : ∀ i < shardCount, (c.shards i).capacity ≤ 2 ^ 59 - 1 := by
    intro i _
    rw [hsave.capacities i]
    exact create_capacity hcap ttl₀ i
  obtain ⟨ds, hfile, hlen, hnodup, hmem⟩ := cacheSave_spec hsave.inv t hroom (by decide)
  obtain ⟨hinv, hempty⟩ := create_spec hcap ttl₁
  have hportable : ∀ d ∈ ds, Portable t' d := fun d hd =>
    (hsave.portable d ((hmem d).mp hd).1).mono (Int.le_trans ht ht')
  -- what comes from one shard fits the same shard again
  have hfits : ∀ k < shardCount, (([] ++ ds).filter fun d : EntryData => shardOf d.key = k).length ≤
      ((cacheCreate capacity ttl₁).shards k).capacity := by
    intro k hk
    have hsize : (ds.filter fun d => shardOf d.key = k).length ≤ (c.shards k).size := by
      apply length_le_size hsave.inv hk (hnodup.of_map.filter _)
      intro d hd
      obtain ⟨hd, hkey⟩ := List.mem_filter.mp hd
      exact ⟨((hmem d).mp hd).1, by simpa using hkey⟩
    have hbounded := (hsave.inv.shard k hk).bounded
    rw [hsave.capacities k] at hbounded
    exact Nat.le_trans hsize hbounded
  obtain ⟨c', hload, hinv', hstored, hkept⟩ := loadLoop_spec 0 0 [] hinv hportable hnodup hfits
    (fun d => ⟨fun ⟨p, hp, _⟩ => absurd hp (hempty p), fun h => absurd h.1 (by simp)⟩)
    (fun p hp => absurd hp (Nat.not_lt_zero p))
  refine ⟨_, c', hfile, ?_, hinv', hkept, fun d => ?_⟩
  · rw [cacheLoad, readHeader_header hlen]
    simpa using hload
  · rw [hstored, List.nil_append, hmem]
    constructor
    · exact fun h => ⟨h.1.1, h.2⟩
    · exact fun h => ⟨⟨h.1, Int.lt_of_le_of_lt ht' h.2⟩, h.2⟩

/-- An entry set at 5 for ten seconds, saved at 6 and loaded at 7. -/
theorem load_save_one_set : ∃ c file c',
    exec (cacheCreate 64 300) (.set [97] [1, 2] 10 5 true true) = some c ∧
    cacheSave c 6 = some file ∧
    cacheLoad (cacheCreate 64 0) file 7 (fun _ => 7) plentiful = some (c', true) ∧
    NothingEvicted c' ∧ ∀ d, Stored c' d ↔ Stored c d ∧ 7 < d.expiresAt := by
  have hop : (Op.set [97] [1, 2] 10 5 true true).Sized := by
    refine ⟨?_, ?_, ?_, ?_, ?_, ?_, ?_⟩ <;> decide
  have hcap : 64 < 2 ^ 64 := by decide
  obtain ⟨c, hexec, -⟩ := exec_spec (create_spec hcap 300).1 hop.short
  have hreach : Reaches 64 300 5 c := (Reaches.create 5).call hop (fun t ht => by
    cases ht
    exact Int.le_refl 5) hexec
  have hsaved : (5 : Int) ≤ 6 := by decide
  have hloaded : (6 : Int) ≤ 7 := by decide
  obtain ⟨file, c', hsave, hload, -, hkept, hst⟩ :=
    load_save 64 300 0 hcap (by decide) hreach hsaved hloaded
  exact ⟨c, file, c', hexec, hsave, hload, hkept, hst⟩

end Solidc.Cache
