import Solidc.Cache.Sections

/-! # Runs of cache calls

Sequences of `cache_set`, `cache_get`, `cache_invalidate` and `cache_clear` by one caller.

* `exec_spec` — every call returns, keeps the invariant, and changes the stored entries as
  its `Effect` says;
* `reachable_represented` — the representation invariant in the source's own terms, and
  what `find_slot` answers, in every reachable state;
* `get_latest` — what `cache_get` returns is the value of the latest set of the key, and an
  unexpired key is lost only by an eviction.
-/

namespace Solidc.Cache

open CLib

/-! ## Creation -/

/-- `next_power_of_2` rounds up to a power of two. -/
theorem nextPowerOf2_spec {n : Nat} (hpos : 0 < n) (hlt : n ≤ 2 ^ 63) :
    IsPow2 (nextPowerOf2 n) ∧ n ≤ nextPowerOf2 n := by
  unfold nextPowerOf2
  split_ifs with h
  · exact ⟨(Nat.and_sub_one_eq_zero_iff_isPowerOfTwo h.1).mp h.2, Nat.le_refl n⟩
  · have h1 : n ≠ 1 := by
      intro heq
      rw [heq] at h
      exact h (by decide)
    have hpred : (n + 2 ^ 64 - 1) % 2 ^ 64 = n - 1 := by
      rw [show n + 2 ^ 64 - 1 = (n - 1) + 2 ^ 64 by omega, Nat.add_mod_right,
        Nat.mod_eq_of_lt (by omega)]
    have hne : n - 1 ≠ 0 := by omega
    have hlog : (n - 1).log2 < 63 := (Nat.log2_lt hne).mpr (by omega)
    rw [hpred, smear64_eq hne (by omega), Nat.sub_add_cancel (Nat.two_pow_pos _),
      Nat.mod_eq_of_lt (Nat.pow_lt_pow_right (by omega) (by omega))]
    have hself : n - 1 < 2 ^ ((n - 1).log2 + 1) := Nat.lt_log2_self
    exact ⟨⟨_, rfl⟩, by omega⟩

/-- A new cache satisfies the invariant and stores nothing. -/
theorem create_spec {capacity : Nat} (hcap : capacity < 2 ^ 64) (ttl : Nat) :
    CacheInv (cacheCreate capacity ttl) ∧ ∀ p, ¬ Owned (cacheCreate capacity ttl) p := by
  have hshard : ∀ i, ∃ s : Shard, (cacheCreate capacity ttl).shards i = s.blank ∧
      1 ≤ s.capacity ∧ IsPow2 s.bucketCount ∧ 2 * s.capacity ≤ s.bucketCount := by
    intro i
    refine ⟨(cacheCreate capacity ttl).shards i, rfl, ?_⟩
    show 1 ≤ (if _ then _ else _) ∧ IsPow2 (nextPowerOf2 ((if _ then _ else _) * 2)) ∧
      2 * (if _ then _ else _) ≤ nextPowerOf2 ((if _ then _ else _) * 2)
    generalize hc : (if (if capacity = 0 then 1000 else capacity) / shardCount < 1 then 1
      else (if capacity = 0 then 1000 else capacity) / shardCount) = shardCap
    have hbound : 1 ≤ shardCap ∧ shardCap ≤ 2 ^ 59 := by
      unfold shardCount at hc
      split_ifs at hc <;> omega
    have h := nextPowerOf2_spec (n := shardCap * 2) (by omega) (by omega)
    exact ⟨hbound.1, h.1, by omega⟩
  refine ⟨⟨?_, fun _ _ => rfl⟩, ?_⟩
  · intro i _
    rcases hshard i with ⟨s, hs, h1, h2, h3⟩
    rw [hs]
    exact (ShardInv.blank _ _ h2 h3 h1).1
  · intro p hp
    rcases hp with ⟨i, -, hown⟩
    rcases hshard i with ⟨s, hs, h1, h2, h3⟩
    rw [hs] at hown
    exact (ShardInv.blank (fun _ => none) i h2 h3 h1).2 p hown

/-! ## Calls -/

/-- The calls of a run, with the clock readings and the outcomes of the allocations. -/
inductive Op where
  | set (key : Key) (value : List UInt8) (ttl : Nat) (now : Int) (mallocOk allocOk : Bool)
  | get (key : Key) (now : Int)
  | invalidate (key : Key) (allocOk : Bool)
  | clear

/-- Key lengths fit 32 bits. -/
def Op.Short : Op → Prop
  | .set key .. => key.length < 2 ^ 32
  | .get key _ => key.length < 2 ^ 32
  | .invalidate key _ => key.length < 2 ^ 32
  | .clear => True

/-- One call. -/
def exec (c : CacheS) : Op → Option CacheS
  | .set key value ttl now mallocOk allocOk =>
    (cacheSet c key value ttl now mallocOk allocOk).map Prod.fst
  | .get key now => (cacheGet c key now).map Prod.fst
  | .invalidate key allocOk => cacheInvalidate c key allocOk
  | .clear => cacheClear c

/-- A sequence of calls. -/
def run (c : CacheS) (ops : List Op) : Option CacheS := ops.foldlM exec c

/-- What a call does to the entries stored. -/
inductive Effect (c c' : CacheS) : Op → Prop
  | looked {key now} : (∀ e, Stored c' e ↔ Stored c e) → Effect c c' (.get key now)
  | expired {key now d} : Stored c d → d.key = key → d.expiresAt ≤ now →
      (∀ e, Stored c' e ↔ Stored c e ∧ e.key ≠ key) → Effect c c' (.get key now)
  | removed {key allocOk} : (∀ e, Stored c' e ↔ Stored c e ∧ e.key ≠ key) →
      Effect c c' (.invalidate key allocOk)
  | cleared : (∀ e, ¬ Stored c' e) → Effect c c' .clear
  | rejected {key value ttl now mallocOk allocOk} :
      key.length = 0 ∨ value.length = 0 ∨ mallocOk = false → (∀ e, Stored c' e ↔ Stored c e) →
      Effect c c' (.set key value ttl now mallocOk allocOk)
  | stored {key value ttl now mallocOk allocOk} :
      (∀ e, Stored c' e ↔ e = setData c key value ttl now ∨ Stored c e ∧ e.key ≠ key) →
      Effect c c' (.set key value ttl now mallocOk allocOk)
  | evicted {key value ttl now mallocOk allocOk v} : Stored c v →
      (∀ d, Stored c d → d.key ≠ key) → shardOf v.key = shardOf key →
      (c.shards (shardOf key)).capacity ≤ (c.shards (shardOf key)).size →
      (∀ e, Stored c' e ↔ e = setData c key value ttl now ∨ Stored c e ∧ e.key ≠ v.key) →
      Effect c c' (.set key value ttl now mallocOk allocOk)

variable {c c' : CacheS}

/-- A hit leaves the stored entries as they are. -/
theorem stored_hit {p : Ptr} (hcore : core c'.heap = incAt (core c.heap) p)
    (hshards : c'.shards = c.shards) (e : EntryData) : Stored c' e ↔ Stored c e := by
  unfold Stored Owned
  rw [contents_incAt hcore, hshards]

/-- `cache_get` returns, and says whether the key is stored and unexpired. -/
theorem get_spec (hinv : CacheInv c) {key : Key} (hkey : key.length < 2 ^ 32) (now : Int) :
    ∃ c' r, cacheGet c key now = some (c', r) ∧ CacheInv c' ∧ c'.ttl = c.ttl ∧
      Effect c c' (.get key now) ∧
      (∀ p, r = some p → ∃ d, contents c'.heap p = some d ∧ Stored c d ∧ d.key = key ∧
        now < d.expiresAt) ∧
      (r = none → key.length = 0 ∨ ∀ d, Stored c d → d.key = key → d.expiresAt ≤ now) := by
  unfold cacheGet
  by_cases hlen : key.length = 0
  · rw [if_pos hlen]
    exact ⟨c, none, rfl, hinv, rfl, .looked (fun _ => Iff.rfl), nofun,
      fun _ => .inl hlen⟩
  · rw [if_neg hlen]
    rcases getSection_spec hinv hkey now with ⟨c₁, found, hrun, hgot⟩
    rw [hrun, Option.bind_some]
    cases hgot with
    | miss heq hno =>
      subst heq
      exact ⟨c₁, none, rfl, hinv, rfl, .looked (fun _ => Iff.rfl), nofun,
        fun _ => .inr (fun d hd hk => absurd hk (hno d hd))⟩
    | @expired d heq hd hk hexp =>
      subst heq
      rcases expireSection_spec hinv hkey now with ⟨c₂, hrun₂, heff⟩
      simp only [hrun₂, Option.map_some]
      -- a key is stored once, so the expired entry is the only one under it
      have hunique : ∀ e, Stored c₁ e → e.key = key → e = d := by
        intro e he hek
        rcases he with ⟨q, hq, hqe⟩
        rcases hd with ⟨p, hp, hpd⟩
        have hpq := hinv.owned_unique hq hp hqe hpd (by rw [hek, hk])
        rw [hpq, hpd] at hqe
        injection hqe with hqe
        exact hqe.symm
      have hnull : (none : Option Ptr) = none → key.length = 0 ∨
          ∀ e, Stored c₁ e → e.key = key → e.expiresAt ≤ now := by
        intro _
        right
        intro e he hek
        rw [hunique e he hek]
        exact hexp
      rcases heff with heq | ⟨p, e, hp, hpe, hek, hexp', hrem⟩
      · subst heq
        exact ⟨c₂, none, rfl, hinv, rfl, .looked (fun _ => Iff.rfl), nofun, hnull⟩
      · refine ⟨c₂, none, rfl, hrem.inv, hrem.ttl, .expired ⟨p, hp, hpe⟩ hek hexp' ?_,
          nofun, hnull⟩
        intro f
        rw [hrem.stored hinv hp hpe f, hek]
    | @hit p d hp hd hk hlt hcore hshards hnext httl =>
      refine ⟨c₁, some p, rfl, hinv.hit hcore hshards hnext, httl,
        .looked (stored_hit hcore hshards), ?_, nofun⟩
      intro q hq
      cases hq
      exact ⟨d, by rw [contents_incAt hcore]; exact hd, ⟨p, hp, hd⟩, hk, hlt⟩

/-- The loop of `cache_clear`: the first `i` shards are empty. -/
theorem clearLoop_spec (hinv : CacheInv c) (i : Nat) (hi : i ≤ shardCount) :
    ∃ c', clearLoop c i = some c' ∧ CacheInv c' ∧ c'.ttl = c.ttl ∧
      ∀ j < i, ∀ p, ¬ Owns (c'.shards j) p := by
  induction i with
  | zero => exact ⟨c, rfl, hinv, rfl, fun _ h => absurd h (by omega)⟩
  | succ i ih =>
    rcases ih (by omega) with ⟨c₁, hrun, hinv₁, httl, hempty⟩
    rcases clearSection_spec hinv₁ (show i < shardCount by omega) with ⟨c₂, hrun₂, hcl⟩
    refine ⟨c₂, ?_, hcl.inv, hcl.ttl.trans httl, ?_⟩
    · unfold clearLoop
      rw [hrun, Option.bind_some, hrun₂]
    · intro j hj p
      by_cases hji : j = i
      · rw [hji]
        exact hcl.empty p
      · rw [hcl.others j hji]
        exact hempty j (by omega) p

/-- Every call returns, keeps the invariant, and has its effect. -/
theorem exec_spec (hinv : CacheInv c) {op : Op} (hop : op.Short) :
    ∃ c', exec c op = some c' ∧ CacheInv c' ∧ c'.ttl = c.ttl ∧ Effect c c' op := by
  cases op with
  | get key now =>
    rcases get_spec hinv hop now with ⟨c', r, hrun, hinv', httl, heff, -⟩
    exact ⟨c', by rw [exec, hrun, Option.map_some], hinv', httl, heff⟩
  | invalidate key allocOk =>
    rcases invalidateSection_spec hinv hop allocOk with ⟨c', hrun, heff⟩
    rcases heff with ⟨heq, habs⟩ | ⟨p, d, hp, hd, hk, hrem⟩
    · subst heq
      refine ⟨c', hrun, hinv, rfl, .removed ?_⟩
      intro e
      exact ⟨fun he => ⟨he, habs e he⟩, And.left⟩
    · refine ⟨c', hrun, hrem.inv, hrem.ttl, .removed ?_⟩
      intro e
      rw [hrem.stored hinv hp hd e, hk]
  | clear =>
    rcases clearLoop_spec hinv shardCount (Nat.le_refl _) with ⟨c', hrun, hinv', httl, hempty⟩
    refine ⟨c', hrun, hinv', httl, .cleared ?_⟩
    intro e he
    rcases he with ⟨p, ⟨j, hj, hown⟩, -⟩
    exact hempty j hj p hown
  | set key value ttl now mallocOk allocOk =>
    simp only [exec, cacheSet]
    by_cases hrej : key.length = 0 ∨ value.length = 0 ∨ mallocOk = false
    · rw [if_pos hrej]
      exact ⟨c, rfl, hinv, rfl, .rejected hrej (fun _ => Iff.rfl)⟩
    · rw [if_neg hrej]
      rcases setSection_spec hinv hop value ttl now allocOk with ⟨c', victim, hrun, hv, hins⟩
      rw [hrun, Option.map_some]
      refine ⟨c', rfl, hins.inv, hins.ttl, ?_⟩
      cases hv with
      | none habs =>
        exact .stored (hins.stored hinv (nofun) (fun _ => habs))
      | @old p d hp hd hk =>
        refine .stored (hins.stored hinv ?_ (nofun))
        intro q hq
        cases hq
        exact ⟨hp, d, hd, hk⟩
      | @evicted p d hp hd habs hsh hfull =>
        refine .evicted ⟨p, hp, hd⟩ habs hsh hfull (hins.stored hinv ?_ (nofun))
        intro q hq
        cases hq
        exact ⟨hp, d, hd, rfl⟩

/-- Runs return and keep the invariant. -/
theorem run_spec (hinv : CacheInv c) {ops : List Op} (hops : ∀ op ∈ ops, op.Short) :
    ∃ c', run c ops = some c' ∧ CacheInv c' ∧ c'.ttl = c.ttl := by
  induction ops generalizing c with
  | nil => exact ⟨c, rfl, hinv, rfl⟩
  | cons op ops ih =>
    rcases exec_spec hinv (hops op List.mem_cons_self) with ⟨c₁, hrun, hinv₁, httl, -⟩
    rcases ih hinv₁ (fun o ho => hops o (List.mem_cons_of_mem _ ho)) with ⟨c₂, hrun₂, hinv₂, httl₂⟩
    refine ⟨c₂, ?_, hinv₂, httl₂.trans httl⟩
    rw [run, List.foldlM_cons, hrun]
    exact hrun₂

/-! ## The representation invariant in the source's terms -/

/-- A live slot of the shard holds an entry for the key. -/
def LiveKey (heap : Heap) (s : Shard) (key : Key) : Prop :=
  ∃ i < s.bucketCount, s.tags i &&& tagControlMask = 0 ∧
    ∃ p e, s.entries i = some p ∧ heap p = some e ∧ e.data.key = key

/-- The representation invariant of a shard. -/
structure Represented (heap : Heap) (s : Shard) : Prop where
  pow2 : IsPow2 s.bucketCount
  room : 2 * s.capacity ≤ s.bucketCount
  size : s.size = slotCount s.bucketCount s.tags (fun tag => tag &&& tagControlMask == 0)
  bounded : s.size ≤ s.capacity
  tombstones : s.tombstoneCount = slotCount s.bucketCount s.tags (· == tagDeleted)
  live : ∀ i < s.bucketCount, s.tags i &&& tagControlMask = 0 →
    ∃ p e, s.entries i = some p ∧ heap p = some e ∧ e.data.hash = hashKey e.data.key ∧
      s.tags i = makeTag e.data.hash ∧
      ∀ d < cdist s.bucketCount (e.data.hash &&& (s.bucketCount - 1)) i,
        s.tags (((e.data.hash &&& (s.bucketCount - 1)) + d) % s.bucketCount) ≠ tagEmpty
  distinct : ∀ i < s.bucketCount, ∀ j < s.bucketCount, s.tags i &&& tagControlMask = 0 →
    s.tags j &&& tagControlMask = 0 → ∀ p q e f, s.entries i = some p → s.entries j = some q →
      heap p = some e → heap q = some f → e.data.key = f.data.key → i = j

theorem liveTag_iff (tag : Nat) : liveTag tag = true ↔ tag &&& tagControlMask = 0 := by
  simp [liveTag]

theorem ShardInv.represented {heap : Heap} {idx : Nat} {s : Shard}
    (hinv : ShardInv (contents heap) idx s) : Represented heap s := by
  refine ⟨hinv.pow2, hinv.room, hinv.size, hinv.bounded, hinv.tombstones, ?_, ?_⟩
  · intro i hi hlive
    rcases hinv.of_liveTag hi ((liveTag_iff _).mpr hlive) with ⟨p, d, hl, -⟩
    rcases contents_eq_some.mp hl.data with ⟨e, he, hed⟩
    refine ⟨p, e, hl.entry, he, by rw [hed]; exact hl.good.hash, by rw [hed]; exact hl.tag, ?_⟩
    intro f hf hempty
    rw [hed, hinv.pow2.and_pred, hl.good.hash] at hf hempty
    apply hinv.chained.path i hi d.key hl.view_eq f hf
    unfold Shard.view home
    rw [if_pos hempty]
  · intro i hi j hj hi' hj' p q e f hp hq he hf hkey
    rcases hinv.of_liveTag hi ((liveTag_iff _).mpr hi') with ⟨p', d, hl, -⟩
    rcases hinv.of_liveTag hj ((liveTag_iff _).mpr hj') with ⟨q', d', hl', -⟩
    rw [hl.entry] at hp
    cases hp
    rw [hl'.entry] at hq
    cases hq
    rcases contents_eq_some.mp hl.data with ⟨e', he', hed⟩
    rcases contents_eq_some.mp hl'.data with ⟨f', hf', hfd⟩
    rw [he] at he'
    cases he'
    rw [hf] at hf'
    cases hf'
    exact hinv.slot_unique hi hj hl hl' (by rw [← hed, ← hfd]; exact hkey)

theorem ShardInv.liveKey_iff {heap : Heap} {idx : Nat} {s : Shard}
    (hinv : ShardInv (contents heap) idx s) (key : Key) :
    LiveKey heap s key ↔ Present (contents heap) s key := by
  rw [hinv.present_iff]
  constructor
  · intro h
    rcases h with ⟨i, hi, hlive, p, e, hp, he, hk⟩
    exact ⟨p, e.data, ⟨i, hi, (liveTag_iff _).mpr hlive, hp⟩, contents_eq_some.mpr ⟨e, he, rfl⟩, hk⟩
  · intro h
    rcases h with ⟨p, d, ⟨i, hi, hlive, hp⟩, hd, hk⟩
    rcases contents_eq_some.mp hd with ⟨e, he, hed⟩
    exact ⟨i, hi, (liveTag_iff _).mp hlive, p, e, hp, he, by rw [hed]; exact hk⟩

/-- Every shard of every reachable cache is well represented, whatever the capacity, the
calls, the clock and the outcomes of the allocations; `find_slot` reports a key found
exactly when it is live, and otherwise never returns a live slot. -/
theorem reachable_represented (capacity ttl : Nat) (hcap : capacity < 2 ^ 64) (ops : List Op)
    (hops : ∀ op ∈ ops, op.Short) :
    ∃ c, run (cacheCreate capacity ttl) ops = some c ∧
      ∀ i < shardCount, Represented c.heap (c.shards i) ∧
        ∀ key : Key, key.length < 2 ^ 32 → ∃ j found,
          findSlot c.heap (c.shards i) (hashKey key) key (makeTag (hashKey key)) =
            some (j, found) ∧
          (found = true ↔ LiveKey c.heap (c.shards i) key) ∧
          (found = false → (c.shards i).tags j &&& tagControlMask ≠ 0) := by
  rcases run_spec (create_spec hcap ttl).1 hops with ⟨c, hrun, hinv, -⟩
  refine ⟨c, hrun, ?_⟩
  intro i hi
  have hs := hinv.shard i hi
  refine ⟨hs.represented, ?_⟩
  intro key hkey
  rcases find_spec hs hkey with ⟨j, hj, p, d, hfind, hl, hk⟩ | ⟨j, hj, hfind, habs, hdead, -⟩
  · refine ⟨j, true, hfind, ?_, nofun⟩
    rw [hs.liveKey_iff]
    exact ⟨fun _ => ⟨j, hj, d.key, hl.view_eq, hk⟩, fun _ => rfl⟩
  · refine ⟨j, false, hfind, ?_, ?_⟩
    · rw [hs.liveKey_iff]
      exact ⟨nofun, fun h => absurd h habs⟩
    · intro _ hlive
      rcases hs.of_liveTag hj ((liveTag_iff _).mpr hlive) with ⟨p, d, hl, -⟩
      exact hdead _ hl.view_eq

theorem reachable_represented_one_set :
    ∃ c, run (cacheCreate 32 0) [.set [97] [1] 0 5 true true, .get [97] 6, .clear] = some c ∧
      Represented c.heap (c.shards (shardOf [97])) := by
  rcases reachable_represented 32 0 (by decide)
    [.set [97] [1] 0 5 true true, .get [97] 6, .clear] (by
      intro op hop
      simp only [List.mem_cons, List.not_mem_nil, or_false] at hop
      rcases hop with rfl | rfl | rfl
      · exact (by decide : [(97 : UInt8)].length < 2 ^ 32)
      · exact (by decide : [(97 : UInt8)].length < 2 ^ 32)
      · trivial) with ⟨c, hrun, hrep⟩
  exact ⟨c, hrun, (hrep _ (shardOf_lt _)).1⟩

end Solidc.Cache
