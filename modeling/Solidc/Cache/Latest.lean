import Solidc.Cache.Sequential

/-! # What `cache_get` returns

* `run_stored` — every entry stored after a run is the one of the latest `cache_set` of its
  key;
* `run_kept` — the entry of the latest set of a key stays until it has expired or an
  eviction takes it;
* `get_latest` — both together, for `cache_get`.
-/

namespace Solidc.Cache

open CLib

/-- Non-empty keys of at most 32-bit length, non-empty values, and memory for them. -/
def Op.Proper : Op → Prop
  | .set key value _ _ mallocOk _ =>
    key.length ≠ 0 ∧ key.length < 2 ^ 32 ∧ value.length ≠ 0 ∧ mallocOk = true
  | .get key _ => key.length ≠ 0 ∧ key.length < 2 ^ 32
  | .invalidate key _ => key.length < 2 ^ 32
  | .clear => True

theorem Op.Proper.short {op : Op} (h : op.Proper) : op.Short := by
  cases op with
  | set => exact h.2.1
  | get => exact h.2
  | invalidate => exact h
  | clear => trivial

/-- The calls that set a key or remove it. -/
def Op.touches (key : Key) : Op → Prop
  | .set k .. => k = key
  | .get .. => False
  | .invalidate k _ => k = key
  | .clear => True

/-- The clock reading of a call. -/
def Op.clock : Op → Option Int
  | .set _ _ _ now _ _ => some now
  | .get _ now => some now
  | .invalidate .. => none
  | .clear => none

/-- The expiry that `cache_set` computes. -/
def expiry (ttl₀ ttl : Nat) (now : Int) : Int := now + ((if ttl = 0 then ttl₀ else ttl : Nat) : Int)

/-- A `cache_set` of an absent key into a full shard. -/
def Evicting (c : CacheS) (key : Key) : Prop :=
  ¬ LiveKey c.heap (c.shards (shardOf key)) key ∧
    (c.shards (shardOf key)).size = (c.shards (shardOf key)).capacity

variable {c c' c₀ : CacheS} {op : Op}

theorem CacheInv.liveKey_iff (hinv : CacheInv c) (key : Key) :
    LiveKey c.heap (c.shards (shardOf key)) key ↔ ∃ d, Stored c d ∧ d.key = key := by
  rw [(hinv.shard _ (shardOf_lt key)).liveKey_iff, hinv.present_iff]

/-- One entry per key. -/
theorem CacheInv.stored_unique (hinv : CacheInv c) {d e : EntryData} (hd : Stored c d)
    (he : Stored c e) (hkey : d.key = e.key) : d = e := by
  rcases hd with ⟨p, hp, hpd⟩
  rcases he with ⟨q, hq, hqe⟩
  have hpq := hinv.owned_unique hp hq hpd hqe hkey
  rw [hpq, hqe] at hpd
  injection hpd with hpd
  exact hpd.symm

/-- Where an entry stored after a call comes from. -/
theorem Effect.stored_before (h : Effect c c' op) (hop : op.Proper) {e : EntryData}
    (he : Stored c' e) :
    (Stored c e ∧ ¬ op.touches e.key) ∨
    ∃ value ttl now mallocOk allocOk, op = .set e.key value ttl now mallocOk allocOk ∧
      e = setData c e.key value ttl now := by
  cases h with
  | looked hst => exact .inl ⟨(hst e).mp he, id⟩
  | expired _ _ _ hst => exact .inl ⟨((hst e).mp he).1, id⟩
  | removed hst => exact .inl ⟨((hst e).mp he).1, fun heq => ((hst e).mp he).2 heq.symm⟩
  | cleared hst => exact absurd he (hst e)
  | rejected hrej _ =>
    rcases hop with ⟨h1, -, h2, h3⟩
    rcases hrej with hr | hr | hr
    · exact absurd hr h1
    · exact absurd hr h2
    · rw [h3] at hr
      cases hr
  | stored hst =>
    rcases (hst e).mp he with heq | ⟨hs, hne⟩
    · right
      rw [heq]
      exact ⟨_, _, _, _, _, rfl, rfl⟩
    · exact .inl ⟨hs, fun heq => hne heq.symm⟩
  | evicted _ habs _ _ hst =>
    rcases (hst e).mp he with heq | ⟨hs, -⟩
    · right
      rw [heq]
      exact ⟨_, _, _, _, _, rfl, rfl⟩
    · exact .inl ⟨hs, fun heq => habs e hs heq.symm⟩

/-- What becomes of an entry whose key the call does not touch. -/
theorem Effect.stored_after (h : Effect c c' op) (hinv : CacheInv c) {d : EntryData}
    (hd : Stored c d) (hno : ¬ op.touches d.key) :
    Stored c' d ∨ (∃ now, op.clock = some now ∧ d.expiresAt ≤ now) ∨
    ∃ k value ttl now mallocOk allocOk, op = .set k value ttl now mallocOk allocOk ∧
      k ≠ d.key ∧ shardOf k = shardOf d.key ∧ Evicting c k := by
  cases h with
  | looked hst => exact .inl ((hst d).mpr hd)
  | @expired key now e he hk hexp hst =>
    by_cases hkey : d.key = key
    · right
      left
      have := hinv.stored_unique hd he (by rw [hkey, hk])
      exact ⟨now, rfl, by rw [this]; exact hexp⟩
    · exact .inl ((hst d).mpr ⟨hd, hkey⟩)
  | removed hst => exact .inl ((hst d).mpr ⟨hd, fun heq => hno heq.symm⟩)
  | cleared hst => exact absurd trivial hno
  | rejected _ hst => exact .inl ((hst d).mpr hd)
  | stored hst => exact .inl ((hst d).mpr (.inr ⟨hd, fun heq => hno heq.symm⟩))
  | @evicted key value ttl now mallocOk allocOk v hv habs hsh hfull hst =>
    by_cases hkey : d.key = v.key
    · right
      right
      refine ⟨key, value, ttl, now, mallocOk, allocOk, rfl, ?_, ?_, ?_, ?_⟩
      · intro heq
        exact hno heq
      · rw [hkey, hsh]
      · rw [hinv.liveKey_iff]
        intro hex
        rcases hex with ⟨e, he, hek⟩
        exact habs e he hek
      · exact Nat.le_antisymm (hinv.shard _ (shardOf_lt key)).bounded hfull
    · exact .inl ((hst d).mpr (.inr ⟨hd, hkey⟩))

/-- A set stores its entry. -/
theorem Effect.stored_set {key : Key} {value : List UInt8} {ttl : Nat} {now : Int}
    {mallocOk allocOk : Bool} (h : Effect c c' (.set key value ttl now mallocOk allocOk))
    (hop : (Op.set key value ttl now mallocOk allocOk).Proper) :
    Stored c' (setData c key value ttl now) := by
  cases h with
  | rejected hrej _ =>
    rcases hop with ⟨h1, -, h2, h3⟩
    rcases hrej with hr | hr | hr
    · exact absurd hr h1
    · exact absurd hr h2
    · rw [h3] at hr
      cases hr
  | stored hst => exact (hst _).mpr (.inl rfl)
  | evicted _ _ _ _ hst => exact (hst _).mpr (.inl rfl)

/-! ## Runs -/

theorem run_append (ops ops' : List Op) : run c (ops ++ ops') = (run c ops).bind (run · ops') := by
  unfold run
  rw [List.foldlM_append]
  rfl

/-- The last call of a run. -/
theorem run_snoc (hinv : CacheInv c₀) {ops : List Op} (hops : ∀ o ∈ ops ++ [op], o.Proper)
    {c' : CacheS}
    (hrun : run c₀ (ops ++ [op]) = some c') :
    ∃ c, run c₀ ops = some c ∧ CacheInv c ∧ c.ttl = c₀.ttl ∧ CacheInv c' ∧ Effect c c' op := by
  have hproper : ∀ o ∈ ops, o.Short :=
    fun o ho => (hops o (List.mem_append_left _ ho)).short
  have hlast : op.Proper := hops op (List.mem_append_right _ List.mem_cons_self)
  rcases run_spec hinv hproper with ⟨c, hrun₁, hinv₁, httl⟩
  rcases exec_spec hinv₁ hlast.short with ⟨c'', hexec, hinv'', -, heff⟩
  rw [run_append, hrun₁, Option.bind_some, run, List.foldlM_cons, hexec] at hrun
  cases hrun
  exact ⟨c, hrun₁, hinv₁, httl, hinv'', heff⟩

/-- Every stored entry is the one of the latest `cache_set` of its key, with no
`cache_invalidate` of the key and no `cache_clear` since. -/
theorem run_stored (hinv : CacheInv c₀) (hempty : ∀ p, ¬ Owned c₀ p) (ops : List Op)
    (hops : ∀ op ∈ ops, op.Proper) (hrun : run c₀ ops = some c) (d : EntryData)
    (hd : Stored c d) :
    ∃ pre ttl now allocOk post, ops = pre ++ .set d.key d.value ttl now true allocOk :: post ∧
      (∀ op ∈ post, ¬ op.touches d.key) ∧ d.expiresAt = expiry c₀.ttl ttl now := by
  induction ops using List.reverseRecOn generalizing c with
  | nil =>
    cases hrun
    rcases hd with ⟨p, hp, -⟩
    exact absurd hp (hempty p)
  | append_singleton ops op ih =>
    rcases run_snoc hinv hops hrun with ⟨c₁, hrun₁, hinv₁, httl, -, heff⟩
    have hop := hops op (List.mem_append_right _ List.mem_cons_self)
    rcases heff.stored_before hop hd with ⟨hs, hno⟩ |
      ⟨value, ttl, now, mallocOk, allocOk, rfl, hset⟩
    · rcases ih (fun o ho => hops o (List.mem_append_left _ ho)) hrun₁ hs with
        ⟨pre, ttl, now, allocOk, post, rfl, hpost, hexp⟩
      refine ⟨pre, ttl, now, allocOk, post ++ [op], by simp, ?_, hexp⟩
      intro o ho
      rcases List.mem_append.mp ho with ho | ho
      · exact hpost o ho
      · rw [List.mem_singleton.mp ho]
        exact hno
    · rcases hop with ⟨-, -, -, rfl⟩
      refine ⟨ops, ttl, now, allocOk, [], ?_, nofun, ?_⟩
      · rw [hset]
        rfl
      · rw [hset, ← httl]
        rfl

/-- The entry of a `cache_set` is there as long as its key is not touched, unless it has
expired by some clock reading since, or was evicted. -/
theorem run_kept (hinv : CacheInv c₀) (pre : List Op) {key : Key} {value : List UInt8} {ttl : Nat}
    {now : Int} {allocOk : Bool} (post : List Op)
    (hops : ∀ op ∈ pre ++ .set key value ttl now true allocOk :: post, op.Proper)
    (hpost : ∀ op ∈ post, ¬ op.touches key)
    (hrun : run c₀ (pre ++ .set key value ttl now true allocOk :: post) = some c) :
    (∃ d, Stored c d ∧ d.key = key ∧ d.expiresAt = expiry c₀.ttl ttl now) ∨
    (∃ t ∈ post.filterMap Op.clock, expiry c₀.ttl ttl now ≤ t) ∨
    ∃ mid k value' ttl' now' mallocOk' allocOk' rest c₁,
      post = mid ++ .set k value' ttl' now' mallocOk' allocOk' :: rest ∧
      run c₀ (pre ++ .set key value ttl now true allocOk :: mid) = some c₁ ∧
      k ≠ key ∧ shardOf k = shardOf key ∧ Evicting c₁ k := by
  induction post using List.reverseRecOn generalizing c with
  | nil =>
    left
    rcases run_snoc hinv hops hrun with ⟨c₁, -, -, httl, -, heff⟩
    refine ⟨_, heff.stored_set (hops _ (List.mem_append_right _ List.mem_cons_self)), rfl, ?_⟩
    rw [← httl]
    rfl
  | append_singleton post op ih =>
    have hassoc : pre ++ .set key value ttl now true allocOk :: (post ++ [op]) =
        (pre ++ .set key value ttl now true allocOk :: post) ++ [op] := by simp
    rw [hassoc] at hrun hops
    rcases run_snoc hinv hops hrun with ⟨c₁, hrun₁, hinv₁, -, -, heff⟩
    rcases ih (fun o ho => hops o (List.mem_append_left _ ho))
      (fun o ho => hpost o (List.mem_append_left _ ho)) hrun₁ with
      ⟨d, hd, hk, hexp⟩ | ⟨t, ht, hle⟩ |
      ⟨mid, k, value', ttl', now', m', a', rest, c₂, rfl, hrun₂, hrest⟩
    · -- the entry was there before the last operation, which does not touch its key
      have hno : ¬ op.touches d.key := by
        rw [hk]
        exact hpost op (List.mem_append_right _ List.mem_cons_self)
      rcases heff.stored_after hinv₁ hd hno with hs | ⟨t, ht, hle⟩ |
        ⟨k, value', ttl', now', m', a', rfl, hne, hsh, hev⟩
      · exact .inl ⟨d, hs, hk, hexp⟩
      · refine .inr (.inl ⟨t, ?_, by rw [← hexp]; exact hle⟩)
        rw [List.filterMap_append, List.mem_append]
        exact .inr (List.mem_filterMap.mpr ⟨op, List.mem_cons_self, ht⟩)
      · rw [hk] at hne hsh
        exact .inr (.inr ⟨post, k, value', ttl', now', m', a', [], c₁, rfl, hrun₁, hne, hsh, hev⟩)
    · refine .inr (.inl ⟨t, ?_, hle⟩)
      rw [List.filterMap_append, List.mem_append]
      exact .inl ht
    · exact .inr (.inr ⟨mid, k, value', ttl', now', m', a', rest ++ [op], c₂, by simp, hrun₂,
        hrest⟩)

/-- After every run with a non-decreasing clock: a value that `cache_get` returns is the one
of the latest `cache_set` of the key, which is not expired and was followed by no
`cache_invalidate` of the key and no `cache_clear`; and a key set, not touched since and
not expired is missed only if a `cache_set` of another, absent key has run since while the
key's shard was full. -/
theorem get_latest (capacity ttl₀ : Nat) (hcap : capacity < 2 ^ 64) (ops : List Op)
    (hops : ∀ op ∈ ops, op.Proper) (key : Key) (hkey : key.length ≠ 0 ∧ key.length < 2 ^ 32)
    (now : Int) (hclock : (ops.filterMap Op.clock ++ [now]).Pairwise (· ≤ ·)) :
    ∃ c c' r, run (cacheCreate capacity ttl₀) ops = some c ∧
      cacheGet c key now = some (c', r) ∧
      (∀ p, r = some p → ∃ e, c'.heap p = some e ∧
        ∃ pre ttl now₀ allocOk post,
          ops = pre ++ .set key e.data.value ttl now₀ true allocOk :: post ∧
          (∀ op ∈ post, ¬ op.touches key) ∧
          now < expiry (cacheCreate capacity ttl₀).ttl ttl now₀) ∧
      ∀ pre value ttl now₀ allocOk post,
        ops = pre ++ .set key value ttl now₀ true allocOk :: post →
        (∀ op ∈ post, ¬ op.touches key) →
        now < expiry (cacheCreate capacity ttl₀).ttl ttl now₀ → r = none →
        ∃ mid k value' ttl' now' mallocOk' allocOk' rest c₁,
          post = mid ++ .set k value' ttl' now' mallocOk' allocOk' :: rest ∧
          run (cacheCreate capacity ttl₀)
            (pre ++ .set key value ttl now₀ true allocOk :: mid) = some c₁ ∧
          k ≠ key ∧ shardOf k = shardOf key ∧ Evicting c₁ k := by
  rcases create_spec hcap ttl₀ with ⟨hinv₀, hempty⟩
  rcases run_spec hinv₀ (fun op hop => (hops op hop).short) with ⟨c, hrun, hinv, -⟩
  rcases get_spec hinv hkey.2 now with ⟨c', r, hget, -, -, -, hhit, hnull⟩
  refine ⟨c, c', r, hrun, hget, ?_, ?_⟩
  · intro p hp
    rcases hhit p hp with ⟨d, hd, hs, hk, hlt⟩
    rcases contents_eq_some.mp hd with ⟨e, he, hed⟩
    rcases run_stored hinv₀ hempty ops hops hrun d hs with
      ⟨pre, ttl, now₀, allocOk, post, hsplit, hpost, hexp⟩
    rw [hk] at hsplit hpost
    exact ⟨e, he, pre, ttl, now₀, allocOk, post, by rw [hed]; exact hsplit, hpost,
      by rw [← hexp]; exact hlt⟩
  · intro pre value ttl now₀ allocOk post hsplit hpost hlt hr
    subst hsplit
    rcases run_kept hinv₀ pre post hops hpost hrun with ⟨d, hd, hk, hexp⟩ | ⟨t, ht, hle⟩ | hev
    · -- the entry is there: the lookup would have found it
      rcases hnull hr with h0 | hall
      · exact absurd h0 hkey.1
      · have := hall d hd hk
        omega
    · -- the clock has already passed the expiry
      have hall := (List.pairwise_append.mp hclock).2.2 t (by
        rw [List.filterMap_append, List.mem_append, List.filterMap_cons]
        exact .inr (List.mem_cons_of_mem _ ht)) now List.mem_cons_self
      omega
    · exact hev

theorem get_latest_one_set :
    ∃ c c' r, run (cacheCreate 64 0) [.set [97] [1, 2] 10 100 true true] = some c ∧
      cacheGet c [97] 105 = some (c', r) ∧
      ∀ p, r = some p → ∃ e, c'.heap p = some e ∧
        ∃ pre ttl now₀ allocOk post,
          [Op.set [97] [1, 2] 10 100 true true] =
            pre ++ .set [97] e.data.value ttl now₀ true allocOk :: post := by
  rcases get_latest 64 0 (by decide) [.set [97] [1, 2] 10 100 true true] (by
      intro op hop
      rw [List.mem_singleton.mp hop]
      exact ⟨by decide, by decide, by decide, rfl⟩) [97] ⟨by decide, by decide⟩ 105 (by decide)
    with ⟨c, c', r, hrun, hget, hhit, -⟩
  refine ⟨c, c', r, hrun, hget, ?_⟩
  intro p hp
  rcases hhit p hp with ⟨e, he, pre, ttl, now₀, allocOk, post, hsplit, -⟩
  exact ⟨e, he, pre, ttl, now₀, allocOk, post, hsplit⟩

end Solidc.Cache
