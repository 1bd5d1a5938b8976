import Solidc.Cache.Housekeeping

/-! # What the locked sections do

Each section is described by its effect on the reference counts (`core`) and on the set of
entries that some slot of the cache points to (`Owned`). No section faults.

* `getSection_spec`, `expireSection_spec` — the two halves of `cache_get`;
* `setSection_spec`, `invalidateSection_spec`;
* `refDecSlots_spec`, `clearSection_spec`.
-/

namespace Solidc.Cache

open CLib

/-- The invariant of the whole cache. -/
structure CacheInv (c : CacheS) : Prop where
  shard : ∀ i < shardCount, ShardInv (contents c.heap) i (c.shards i)
  fresh : ∀ p, c.next ≤ p → c.heap p = none

/-- Some slot of the cache points to `p`. -/
def Owned (c : CacheS) (p : Ptr) : Prop := ∃ i < shardCount, Owns (c.shards i) p

/-- Some slot of the cache points to an entry with this content. -/
def Stored (c : CacheS) (d : EntryData) : Prop := ∃ p, Owned c p ∧ contents c.heap p = some d

variable {c c' : CacheS}

theorem core_eq_none {heap : Heap} {p : Ptr} : core heap p = none ↔ heap p = none := by
  simp [core]

/-- An owned entry is allocated, and stands in the shard of its key. -/
theorem CacheInv.of_owned (hinv : CacheInv c) {p : Ptr} (h : Owned c p) :
    ∃ d, contents c.heap p = some d ∧ d.Good ∧ Owns (c.shards (shardOf d.key)) p := by
  rcases h with ⟨i, hi, hown⟩
  rcases (hinv.shard i hi).of_owns hown with ⟨j, hj, d, hl, hidx⟩
  refine ⟨d, hl.data, hl.good, ?_⟩
  unfold shardOf
  rw [← hl.good.hash, hidx]
  exact hown

/-- A pointer is owned by one shard only: its content tells which. -/
theorem ShardInv.owner_unique {f : Ptr → Option EntryData} {i j : Nat} {s t : Shard}
    (hs : ShardInv f i s) (ht : ShardInv f j t) {p : Ptr} (h : Owns s p) (h' : Owns t p) :
    i = j := by
  rcases hs.of_owns h with ⟨_, _, d, hl, hidx⟩
  rcases ht.of_owns h' with ⟨_, _, e, hl', hidx'⟩
  have hde : d = e := by
    have := hl.data.symm.trans hl'.data
    injection this
  rw [← hidx, ← hidx', hde]

theorem CacheInv.owner_unique (hinv : CacheInv c) {i j : Nat} (hi : i < shardCount)
    (hj : j < shardCount) {p : Ptr} (h : Owns (c.shards i) p) (h' : Owns (c.shards j) p) :
    i = j :=
  (hinv.shard i hi).owner_unique (hinv.shard j hj) h h'

/-- Two owned entries with one key are one entry. -/
theorem CacheInv.owned_unique (hinv : CacheInv c) {p q : Ptr} {d e : EntryData}
    (hp : Owned c p) (hq : Owned c q) (hd : contents c.heap p = some d)
    (he : contents c.heap q = some e) (hkey : d.key = e.key) : p = q := by
  rcases hinv.of_owned hp with ⟨d', hd', -, hown⟩
  rcases hinv.of_owned hq with ⟨e', he', -, hown'⟩
  rw [hd] at hd'
  cases hd'
  rw [he] at he'
  cases he'
  rw [hkey] at hown
  have hs := hinv.shard _ (shardOf_lt e.key)
  rcases hs.of_owns hown with ⟨i, hi, d₁, hl₁, -⟩
  rcases hs.of_owns hown' with ⟨j, hj, e₁, hl₂, -⟩
  have h1 : d₁ = d := by
    have := hl₁.data.symm.trans hd
    injection this
  have h2 : e₁ = e := by
    have := hl₂.data.symm.trans he
    injection this
  rw [h1] at hl₁
  rw [h2] at hl₂
  have hij := hs.slot_unique hi hj hl₁ hl₂ hkey
  have := hl₁.entry
  rw [hij, hl₂.entry] at this
  injection this with this
  exact this.symm

theorem CacheInv.owned_lt (hinv : CacheInv c) {p : Ptr} (h : Owned c p) : p < c.next := by
  rcases hinv.of_owned h with ⟨d, hd, -⟩
  by_contra hge
  have := hinv.fresh p (Nat.le_of_not_lt hge)
  simp [contents, this] at hd

/-- The pointers of the cache after a section has replaced shard `i`. -/
theorem owned_put {i : Nat} (hi : i < shardCount) (heap : Heap) (s : Shard) (p : Ptr) :
    Owned (c.put i heap s) p ↔ Owns s p ∨ ∃ j < shardCount, j ≠ i ∧ Owns (c.shards j) p := by
  constructor
  · intro h
    rcases h with ⟨j, hj, hown⟩
    by_cases hji : j = i
    · left
      simpa [CacheS.put, hji] using hown
    · right
      exact ⟨j, hj, hji, by simpa [CacheS.put, hji] using hown⟩
  · intro h
    rcases h with hown | ⟨j, hj, hji, hown⟩
    · exact ⟨i, hi, by simpa [CacheS.put] using hown⟩
    · exact ⟨j, hj, by simpa [CacheS.put, hji] using hown⟩

/-- A section that leaves nothing in shard `i`, none of whose pointers another shard has. -/
theorem owned_put_none {i : Nat} (hi : i < shardCount) (heap : Heap) {s : Shard}
    (hnone : ∀ p, ¬ Owns s p)
    (hother : ∀ j < shardCount, j ≠ i → ∀ p, Owns (c.shards j) p → ¬ Owns (c.shards i) p)
    (p : Ptr) : Owned (c.put i heap s) p ↔ Owned c p ∧ ¬ Owns (c.shards i) p := by
  rw [owned_put hi]
  constructor
  · intro h
    rcases h with h | ⟨j, hj, hji, h⟩
    · exact absurd h (hnone p)
    · exact ⟨⟨j, hj, h⟩, hother j hj hji p h⟩
  · intro h
    rcases h with ⟨⟨j, hj, hown⟩, hnot⟩
    have hji : j ≠ i := by
      intro heq
      rw [heq] at hown
      exact hnot hown
    exact .inr ⟨j, hj, hji, hown⟩

/-- A section that has changed the heap and shard `i` keeps the invariant if it has left
the entries of the other shards alone. -/
theorem CacheInv.put (hinv : CacheInv c) {i : Nat} {heap : Heap} {s : Shard}
    (hs : ShardInv (contents heap) i s)
    (hother : ∀ j < shardCount, j ≠ i → ∀ p, Owns (c.shards j) p →
      contents heap p = contents c.heap p)
    (hfresh : ∀ p, c.next ≤ p → heap p = none) : CacheInv (c.put i heap s) := by
  refine ⟨?_, hfresh⟩
  intro j hj
  by_cases hji : j = i
  · rw [hji]
    simpa [CacheS.put] using hs
  · have h := (hinv.shard j hj).frame (hother j hj hji)
    simpa [CacheS.put, hji] using h

/-! ## Removing one entry -/

/-- The section has taken the entry at `p` out of its slot and dropped its reference. -/
structure Removed (c c' : CacheS) (p : Ptr) : Prop where
  inv : CacheInv c'
  core : core c'.heap = decAt (core c.heap) p
  owned : ∀ q, Owned c' q ↔ Owned c q ∧ q ≠ p
  next : c'.next = c.next
  ttl : c'.ttl = c.ttl

/-- A section that has replaced shard `i` by one without the pointer `p`. -/
theorem CacheInv.removed (hinv : CacheInv c) {i : Nat} (hi : i < shardCount) {p : Ptr}
    (hp : Owns (c.shards i) p) {s : Shard} (hs : ShardInv (contents c.heap) i s)
    (hown : ∀ q, Owns s q ↔ Owns (c.shards i) q ∧ q ≠ p) {heap : Heap}
    (hcore : core heap = decAt (core c.heap) p) : Removed c (c.put i heap s) p := by
  have hlt := hinv.owned_lt ⟨i, hi, hp⟩
  refine ⟨hinv.put ?_ ?_ ?_, hcore, ?_, rfl, rfl⟩
  · apply hs.frame
    intro q hq
    exact contents_decAt hcore ((hown q).mp hq).2
  · intro j hj hji q hq
    apply contents_decAt hcore
    intro hqp
    rw [hqp] at hq
    exact hji (hinv.owner_unique hj hi hq hp)
  · intro q hq
    have hne : q ≠ p := Nat.ne_of_gt (Nat.lt_of_lt_of_le hlt hq)
    rw [← core_eq_none, hcore, decAt, Function.update_of_ne hne, core_eq_none]
    exact hinv.fresh q hq
  · intro q
    rw [owned_put hi, hown]
    constructor
    · intro h
      rcases h with ⟨hq, hne⟩ | ⟨j, hj, hji, hq⟩
      · exact ⟨⟨i, hi, hq⟩, hne⟩
      · refine ⟨⟨j, hj, hq⟩, ?_⟩
        intro hqp
        rw [hqp] at hq
        exact hji (hinv.owner_unique hj hi hq hp)
    · intro h
      rcases h with ⟨⟨j, hj, hq⟩, hne⟩
      by_cases hji : j = i
      · rw [hji] at hq
        exact .inl ⟨hq, hne⟩
      · exact .inr ⟨j, hj, hji, hq⟩

/-- A removal takes away the entry's content, and nothing else. -/
theorem Removed.stored (hinv : CacheInv c) {p : Ptr} {d : EntryData} (h : Removed c c' p)
    (hp : Owned c p) (hd : contents c.heap p = some d) (e : EntryData) :
    Stored c' e ↔ Stored c e ∧ e.key ≠ d.key := by
  constructor
  · intro hs
    rcases hs with ⟨q, hq, he⟩
    rcases (h.owned q).mp hq with ⟨hq', hne⟩
    rw [contents_decAt h.core hne] at he
    refine ⟨⟨q, hq', he⟩, ?_⟩
    intro hkey
    exact hne (hinv.owned_unique hq' hp he hd hkey)
  · intro hs
    rcases hs with ⟨⟨q, hq, he⟩, hkey⟩
    have hne : q ≠ p := by
      intro hqp
      rw [hqp, hd] at he
      cases he
      exact hkey rfl
    exact ⟨q, (h.owned q).mpr ⟨hq, hne⟩, by rw [contents_decAt h.core hne]; exact he⟩

/-! ## Lookup -/

/-- A lookup in the shard of a key. -/
theorem lookup_spec (hinv : CacheInv c) {key : Key} (hkey : key.length < 2 ^ 32) :
    FindResult (contents c.heap) (c.shards (shardOf key)) key
      (findSlot c.heap (c.shards (shardOf key)) (hashKey key) key (makeTag (hashKey key))) :=
  find_spec (hinv.shard _ (shardOf_lt key)) hkey

/-- A key is present in its shard exactly when the cache stores an entry for it. -/
theorem CacheInv.present_iff (hinv : CacheInv c) (key : Key) :
    Present (contents c.heap) (c.shards (shardOf key)) key ↔ ∃ d, Stored c d ∧ d.key = key := by
  rw [(hinv.shard _ (shardOf_lt key)).present_iff]
  constructor
  · intro h
    rcases h with ⟨p, d, hown, hd, hk⟩
    exact ⟨d, ⟨p, ⟨_, shardOf_lt key, hown⟩, hd⟩, hk⟩
  · intro h
    rcases h with ⟨d, ⟨p, hown, hd⟩, hk⟩
    rcases hinv.of_owned hown with ⟨e, he, -, hown'⟩
    rw [hd] at he
    cases he
    rw [hk] at hown'
    exact ⟨p, d, hown', hd, hk⟩

/-- What the read-locked half of `cache_get` can end with. -/
inductive Got (c c' : CacheS) (key : Key) (now : Int) : Found → Prop
  | miss : c' = c → (∀ d, Stored c d → d.key ≠ key) → Got c c' key now .miss
  | expired {d} : c' = c → Stored c d → d.key = key → d.expiresAt ≤ now → Got c c' key now .expired
  | hit {p d} : Owned c p → contents c.heap p = some d → d.key = key → now < d.expiresAt →
      core c'.heap = incAt (core c.heap) p → c'.shards = c.shards → c'.next = c.next →
      c'.ttl = c.ttl → Got c c' key now (.hit p)

theorem getSection_spec (hinv : CacheInv c) {key : Key} (hkey : key.length < 2 ^ 32) (now : Int) :
    ∃ c' found, getSection c key now = some (c', found) ∧ Got c c' key now found := by
  unfold getSection
  rcases lookup_spec hinv hkey with ⟨i, hi, p, d, hfind, hl, hk⟩ | ⟨i, hi, hfind, habs, -⟩
  · have hp : Owned c p := ⟨_, shardOf_lt key, hl.owns hi⟩
    rcases contents_eq_some.mp hl.data with ⟨e, he, hed⟩
    simp only [hfind, Option.bind_some, if_true, hl.entry, he]
    by_cases hexp : e.data.expiresAt ≤ now
    · rw [if_pos hexp]
      exact ⟨c, .expired, rfl, .expired rfl ⟨p, hp, hl.data⟩ hk (by rw [← hed]; exact hexp)⟩
    · rw [if_neg hexp]
      have hlt : now < d.expiresAt := by
        rw [← hed]
        omega
      -- the clock bit is set if it was clear, and then the reference is taken
      have hbit : ∃ heap, (if e.clockBit = 0 then setClockBit c.heap (some p) 1
          else some c.heap) = some heap ∧ core heap = core c.heap := by
        split_ifs
        · exact setClockBit_spec he 1
        · exact ⟨c.heap, rfl, rfl⟩
      rcases hbit with ⟨heap, hheap, hcore⟩
      have halloc : ∃ e', heap p = some e' := by
        have : core heap p ≠ none := by
          rw [hcore]
          simp [core, he]
        rw [ne_eq, core_eq_none] at this
        exact Option.ne_none_iff_exists'.mp this
      rcases halloc with ⟨e', he'⟩
      rcases entryRefInc_spec he' with ⟨heap', hinc, hcore'⟩
      rw [hheap, Option.bind_some, hinc]
      refine ⟨_, _, rfl, .hit hp hl.data hk hlt ?_ rfl rfl rfl⟩
      rw [← hcore]
      exact hcore'
  · simp only [hfind, Option.bind_some, Bool.false_eq_true, if_false]
    refine ⟨c, .miss, rfl, .miss rfl ?_⟩
    intro d hd hk
    exact habs ((hinv.present_iff key).mpr ⟨d, hd, hk⟩)

/-- A hit keeps the invariant. -/
theorem CacheInv.hit (hinv : CacheInv c) {p : Ptr} (hcore : core c'.heap = incAt (core c.heap) p)
    (hshards : c'.shards = c.shards) (hnext : c'.next = c.next) : CacheInv c' := by
  have hcont := contents_incAt hcore
  refine ⟨?_, ?_⟩
  · intro i hi
    rw [hcont, hshards]
    exact hinv.shard i hi
  · intro q hq
    rw [hnext] at hq
    have h := hinv.fresh q hq
    rw [← core_eq_none, hcore, incAt]
    by_cases hqp : q = p
    · subst hqp
      rw [Function.update_self, core_eq_none.mpr h]
      rfl
    · rw [Function.update_of_ne hqp]
      exact core_eq_none.mpr h

/-- The write-locked half of `cache_get` removes the key's entry if it has expired. -/
theorem expireSection_spec (hinv : CacheInv c) {key : Key} (hkey : key.length < 2 ^ 32)
    (now : Int) :
    ∃ c', expireSection c key now = some c' ∧
      (c' = c ∨ ∃ p d, Owned c p ∧ contents c.heap p = some d ∧ d.key = key ∧
        d.expiresAt ≤ now ∧ Removed c c' p) := by
  unfold expireSection
  rcases lookup_spec hinv hkey with ⟨i, hi, p, d, hfind, hl, hk⟩ | ⟨i, hi, hfind, -⟩
  · have hs := hinv.shard _ (shardOf_lt key)
    have hp : Owned c p := ⟨_, shardOf_lt key, hl.owns hi⟩
    rcases contents_eq_some.mp hl.data with ⟨e, he, hed⟩
    simp only [hfind, Option.bind_some, if_true, hl.entry, deref, he]
    by_cases hexp : e.data.expiresAt ≤ now
    · rw [if_pos hexp]
      rcases entryRefDec_spec he with ⟨heap, hdec, hcore⟩
      rcases hs.tombstone hi hl with ⟨hinv', hown⟩
      rw [hdec]
      refine ⟨_, rfl, .inr ⟨p, d, hp, hl.data, hk, by rw [← hed]; exact hexp, ?_⟩⟩
      exact hinv.removed (shardOf_lt key) (hl.owns hi) hinv' hown hcore
    · rw [if_neg hexp]
      exact ⟨c, rfl, .inl rfl⟩
  · simp only [hfind, Option.bind_some, Bool.false_eq_true, if_false]
    exact ⟨c, rfl, .inl rfl⟩

/-- `cache_invalidate` removes the key's entry. -/
theorem invalidateSection_spec (hinv : CacheInv c) {key : Key} (hkey : key.length < 2 ^ 32)
    (allocOk : Bool) :
    ∃ c', invalidateSection c key allocOk = some c' ∧
      ((c' = c ∧ ∀ d, Stored c d → d.key ≠ key) ∨
        ∃ p d, Owned c p ∧ contents c.heap p = some d ∧ d.key = key ∧ Removed c c' p) := by
  unfold invalidateSection
  rcases lookup_spec hinv hkey with ⟨i, hi, p, d, hfind, hl, hk⟩ | ⟨i, hi, hfind, habs, -⟩
  · have hs := hinv.shard _ (shardOf_lt key)
    have hp : Owned c p := ⟨_, shardOf_lt key, hl.owns hi⟩
    rcases contents_eq_some.mp hl.data with ⟨e, he, hed⟩
    rcases entryRefDec_spec he with ⟨heap, hdec, hcore⟩
    rcases hs.tombstone hi hl with ⟨hinv', hown⟩
    rcases compact_spec hinv' allocOk with ⟨t, ht, hre⟩
    simp only [hfind, Option.bind_some, if_true, ht, hl.entry, hdec, Option.map_some]
    refine ⟨_, rfl, .inr ⟨p, d, hp, hl.data, hk, ?_⟩⟩
    apply hinv.removed (shardOf_lt key) (hl.owns hi) hre.inv _ hcore
    intro q
    rw [hre.owns, hown]
  · simp only [hfind, Option.bind_some, Bool.false_eq_true, if_false]
    refine ⟨c, rfl, .inl ⟨rfl, ?_⟩⟩
    intro d hd hk
    exact habs ((hinv.present_iff key).mpr ⟨d, hd, hk⟩)

/-! ## Storing an entry -/

/-- The cache with the new entry allocated and in no slot. -/
theorem CacheInv.newEntry (hinv : CacheInv c) (key : Key) (value : List UInt8) (ttl : Nat)
    (now : Int) : CacheInv (newEntry c key value ttl now) := by
  refine ⟨?_, ?_⟩
  · intro i hi
    apply (hinv.shard i hi).frame
    intro p hp
    have hlt := hinv.owned_lt ⟨i, hi, hp⟩
    simp [contents, Cache.newEntry, Nat.ne_of_lt hlt]
  · intro p hp
    have hle : c.next + 1 ≤ p := hp
    show Function.update c.heap c.next _ p = none
    rw [Function.update_of_ne (Nat.ne_of_gt hle)]
    exact hinv.fresh p (Nat.le_of_succ_le hle)

/-- The content of the entry that `cache_set` stores. -/
def setData (c : CacheS) (key : Key) (value : List UInt8) (ttl : Nat) (now : Int) : EntryData where
  hash := hashKey key
  keyLen := key.length % 2 ^ 32
  expiresAt := now + ((if ttl = 0 then c.ttl else ttl : Nat) : Int)
  key := key
  value := value

theorem setData_good (key : Key) (value : List UInt8) (ttl : Nat) (now : Int)
    (hkey : key.length < 2 ^ 32) : (setData c key value ttl now).Good :=
  ⟨rfl, Nat.mod_eq_of_lt hkey, hkey⟩

/-- The new entry, with content `d`, is allocated in `c₁` and in no slot. -/
structure Allocated (c c₁ : CacheS) (d : EntryData) : Prop where
  inv : CacheInv c₁
  good : d.Good
  new : contents c₁.heap c.next = some d
  old : ∀ p, p ≠ c.next → contents c₁.heap p = contents c.heap p
  core : core c₁.heap = Function.update (core c.heap) c.next (some (1, d))
  shards : c₁.shards = c.shards
  next : c₁.next = c.next + 1
  ttl : c₁.ttl = c.ttl

theorem CacheInv.allocated (hinv : CacheInv c) {key : Key} (hkey : key.length < 2 ^ 32)
    (value : List UInt8) (ttl : Nat) (now : Int) :
    Allocated c (Cache.newEntry c key value ttl now) (setData c key value ttl now) := by
  have hcore : Cache.core (Cache.newEntry c key value ttl now).heap =
      Function.update (Cache.core c.heap) c.next (some (1, setData c key value ttl now)) :=
    core_update c.heap c.next _
  refine ⟨hinv.newEntry key value ttl now, setData_good key value ttl now hkey, ?_,
    fun p hp => ?_, hcore, rfl, rfl, rfl⟩
  · simp [contents, Cache.newEntry, setData]
  · apply contents_congr
    rw [hcore, Function.update_of_ne hp]

/-- The entry that gives way to a new one: the old entry of the key, or, when the key is
absent from a full shard, some other entry of the shard. -/
inductive Victim (c : CacheS) (key : Key) : Option Ptr → Prop
  | none : (∀ d, Stored c d → d.key ≠ key) → Victim c key none
  | old {p d} : Owned c p → contents c.heap p = some d → d.key = key → Victim c key (some p)
  | evicted {p d} : Owned c p → contents c.heap p = some d → (∀ d, Stored c d → d.key ≠ key) →
      shardOf d.key = shardOf key →
      (c.shards (shardOf key)).capacity ≤ (c.shards (shardOf key)).size → Victim c key (some p)

/-- The reference counts after the victim's reference has been dropped. -/
def dropVictim (k : Ptr → Option (Nat × EntryData)) :
    Option Ptr → Ptr → Option (Nat × EntryData)
  | none => k
  | some p => decAt k p

theorem dropVictim_of_ne {k : Ptr → Option (Nat × EntryData)} {victim : Option Ptr} {q : Ptr}
    (h : victim ≠ some q) : dropVictim k victim q = k q := by
  cases victim with
  | none => rfl
  | some p =>
    have hne : q ≠ p := fun e => h (by rw [e])
    simp only [dropVictim, decAt]
    rw [Function.update_of_ne hne]

/-- The section has stored a new entry with content `d` at the next address. -/
structure Inserted (c c' : CacheS) (d : EntryData) (victim : Option Ptr) : Prop where
  inv : CacheInv c'
  core : core c'.heap =
    dropVictim (Function.update (core c.heap) c.next (some (1, d))) victim
  owned : ∀ q, Owned c' q ↔ q = c.next ∨ (Owned c q ∧ victim ≠ some q)
  next : c'.next = c.next + 1
  ttl : c'.ttl = c.ttl

/-- Replacing shard `i` by one that points to the new entry and not to the victim. -/
theorem CacheInv.inserted (hinv : CacheInv c) {d : EntryData} {c₁ : CacheS}
    (hnew : Allocated c c₁ d) {i : Nat} (hi : i < shardCount) {victim : Option Ptr}
    (hvictim : ∀ p, victim = some p → Owns (c.shards i) p) {s : Shard} {heap : Heap}
    (hs : ShardInv (contents heap) i s)
    (hown : ∀ q, Owns s q ↔ q = c.next ∨ (Owns (c.shards i) q ∧ victim ≠ some q))
    (hcore : core heap = dropVictim (core c₁.heap) victim) :
    Inserted c (c₁.put i heap s) d victim := by
  have hkeep : ∀ q, victim ≠ some q → core heap q = core c₁.heap q := by
    intro q hq
    rw [hcore, dropVictim_of_ne hq]
  have hother : ∀ j < shardCount, j ≠ i → ∀ q, Owns (c.shards j) q → victim ≠ some q := by
    intro j hj hji q hq hv
    exact hji (hinv.owner_unique hj hi hq (hvictim q hv))
  refine ⟨hnew.inv.put hs ?_ ?_, ?_, ?_, hnew.next, hnew.ttl⟩
  · intro j hj hji q hq
    rw [hnew.shards] at hq
    exact contents_congr (hkeep q (hother j hj hji q hq))
  · intro q hq
    have hv : victim ≠ some q := by
      intro hv
      have hlt := hinv.owned_lt ⟨i, hi, hvictim q hv⟩
      rw [hnew.next] at hq
      exact absurd hlt (Nat.not_lt.mpr (Nat.le_of_succ_le hq))
    rw [← core_eq_none, hkeep q hv, core_eq_none]
    exact hnew.inv.fresh q hq
  · show core heap = _
    rw [hcore, hnew.core]
  · intro q
    rw [owned_put hi, hown, hnew.shards]
    constructor
    · intro h
      rcases h with (hq | ⟨hq, hv⟩) | ⟨j, hj, hji, hq⟩
      · exact .inl hq
      · exact .inr ⟨⟨i, hi, hq⟩, hv⟩
      · exact .inr ⟨⟨j, hj, hq⟩, hother j hj hji q hq⟩
    · intro h
      rcases h with hq | ⟨⟨j, hj, hq⟩, hv⟩
      · exact .inl (.inl hq)
      · by_cases hji : j = i
        · rw [hji] at hq
          exact .inl (.inr ⟨hq, hv⟩)
        · exact .inr ⟨j, hj, hji, hq⟩

/-- The new entry takes the place of entry `p` of the shard, whose reference is dropped. -/
theorem CacheInv.insertedOver (hinv : CacheInv c) {d : EntryData} {c₁ : CacheS}
    (hnew : Allocated c c₁ d) {i : Nat} (hi : i < shardCount) {p : Ptr}
    (hp : Owns (c.shards i) p) {s : Shard} {heap : Heap}
    (hs : ShardInv (contents c₁.heap) i s)
    (hown : ∀ q, Owns s q ↔ q = c.next ∨ (Owns (c.shards i) q ∧ q ≠ p))
    (hcore : core heap = decAt (core c₁.heap) p) :
    Inserted c (c₁.put i heap s) d (some p) := by
  have hfresh : p ≠ c.next := Nat.ne_of_lt (hinv.owned_lt ⟨i, hi, hp⟩)
  apply hinv.inserted hnew hi _ _ _ hcore
  · intro q hq
    cases hq
    exact hp
  · apply hs.frame
    intro q hq
    apply contents_decAt hcore
    rcases (hown q).mp hq with hq' | ⟨-, hq'⟩
    · rw [hq']
      exact hfresh.symm
    · exact hq'
  · intro q
    rw [hown]
    simp [eq_comm]

/-- The slot of a victim becomes a tombstone, and a new key goes into slot `i`, which is not
live and may be the same. -/
theorem ShardInv.evictInsert {f : Ptr → Option EntryData} {idx : Nat} {s : Shard}
    (hinv : ShardInv f idx s) {i j hand : Nat} (hhand : hand < s.bucketCount)
    (hj : j < s.bucketCount) {p : Ptr} {e : EntryData} (hl : LiveAt f s j p e)
    (hi : i < s.bucketCount) (hdead : ∀ k, s.view f i ≠ .live k) {q : Ptr} {d : EntryData}
    (hq : f q = some d) (hgood : d.Good) (hidx : getShardIdx d.hash = idx)
    (habsent : ¬ Present f s d.key)
    (hpath : ∀ n < cdist s.bucketCount (home s.bucketCount d.key) i,
      s.view f ((home s.bucketCount d.key + n) % s.bucketCount) ≠ .empty) :
    ShardInv f idx
      ((({ s with clockHand := hand } : Shard).tombstone j).insert i (makeTag d.hash) q) ∧
    ∀ r, Owns ((({ s with clockHand := hand } : Shard).tombstone j).insert i (makeTag d.hash) q)
      r ↔ r = q ∨ (Owns s r ∧ r ≠ p) := by
  have hlh : LiveAt f { s with clockHand := hand } j p e := ⟨hl.entry, hl.data, hl.good, hl.tag⟩
  rcases (hinv.setHand hhand).tombstone hj hlh with ⟨hinv', hown⟩
  have hview : (({ s with clockHand := hand } : Shard).tombstone j).view f =
      Function.update (s.view f) j .dead := view_put_dead
  have hdead' : ∀ k, (({ s with clockHand := hand } : Shard).tombstone j).view f i ≠ .live k := by
    intro k
    rw [hview]
    by_cases hij : i = j
    · rw [hij, Function.update_self]
      exact nofun
    · rw [Function.update_of_ne hij]
      exact hdead k
  have hpath' : ∀ n < cdist s.bucketCount (home s.bucketCount d.key) i,
      Function.update (s.view f) j .dead
        ((home s.bucketCount d.key + n) % s.bucketCount) ≠ .empty := by
    intro n hn
    by_cases hnj : (home s.bucketCount d.key + n) % s.bucketCount = j
    · rw [hnj, Function.update_self]
      exact nofun
    · rw [Function.update_of_ne hnj]
      exact hpath n hn
  have habsent' : ¬ Present f (({ s with clockHand := hand } : Shard).tombstone j) d.key := by
    intro hpr
    rw [hinv'.present_iff] at hpr
    rcases hpr with ⟨q, e', hq, he', hk⟩
    apply habsent
    rw [hinv.present_iff]
    exact ⟨q, e', ((hown q).mp hq).1, he', hk⟩
  -- an entry has left, so there is room
  have hroom : (({ s with clockHand := hand } : Shard).tombstone j).size <
      (({ s with clockHand := hand } : Shard).tombstone j).capacity := by
    show s.size - 1 < s.capacity
    have hpos := hinv.positive
    have hbounded := hinv.bounded
    omega
  rw [← hview] at hpath'
  rcases hinv'.insert hi hdead' hroom hq hgood hidx habsent' hpath' with ⟨hinv'', hown'⟩
  refine ⟨hinv'', fun r => ?_⟩
  rw [hown', hown]
  rfl

/-- A live entry stands in the shard of its key. -/
theorem ShardInv.shardOf_key {f : Ptr → Option EntryData} {idx : Nat} {s : Shard}
    (hinv : ShardInv f idx s) {i : Nat} (hi : i < s.bucketCount) {p : Ptr} {d : EntryData}
    (hl : LiveAt f s i p d) : shardOf d.key = idx := by
  rcases hinv.of_liveTag hi hl.live with ⟨p', d', hl', hidx⟩
  have hp : p' = p := Option.some.inj (hl'.entry.symm.trans hl.entry)
  rw [hp] at hl'
  have hd : d' = d := Option.some.inj (hl'.data.symm.trans hl.data)
  rw [shardOf, ← hl.good.hash, ← hd]
  exact hidx

/-- `cache_set`, once the new entry is allocated, stores it; it fails never. -/
theorem setSection_spec (hinv : CacheInv c) {key : Key} (hkey : key.length < 2 ^ 32)
    (value : List UInt8) (ttl : Nat) (now : Int) (allocOk : Bool) :
    ∃ c' victim, setSection (newEntry c key value ttl now) key c.next allocOk = some (c', true) ∧
      Victim c key victim ∧ Inserted c c' (setData c key value ttl now) victim := by
  have hnew := hinv.allocated hkey value ttl now
  have hdkey : (setData c key value ttl now).key = key := rfl
  generalize newEntry c key value ttl now = c₁ at hnew
  generalize setData c key value ttl now = d at hnew hdkey
  subst hdkey
  have hlt := shardOf_lt d.key
  have hidx : getShardIdx d.hash = shardOf d.key := by rw [hnew.good.hash]; rfl
  rcases compact_spec (hnew.inv.shard _ hlt) allocOk with ⟨t, ht, hre⟩
  rw [hnew.shards] at hre
  -- what the shard owns is not the new entry, and has the content it had
  have hold : ∀ q, Owns t q → Owns (c.shards (shardOf d.key)) q ∧
      contents c₁.heap q = contents c.heap q := by
    intro q hq
    have hown := (hre.owns q).mp hq
    exact ⟨hown, hnew.old q (Nat.ne_of_lt (hinv.owned_lt ⟨_, hlt, hown⟩))⟩
  have habsent : ¬ Present (contents c₁.heap) t d.key → ∀ e, Stored c e → e.key ≠ d.key := by
    intro habs e he hek
    apply habs
    rcases he with ⟨q, hq, hqe⟩
    rcases hinv.of_owned hq with ⟨e', he', -, hown⟩
    rw [hqe] at he'
    cases he'
    rw [hek] at hown
    have hq' := (hre.owns q).mpr hown
    rw [hre.inv.present_iff]
    exact ⟨q, e, hq', by rw [(hold q hq').2]; exact hqe, hek⟩
  unfold setSection
  rw [ht, Option.bind_some]
  rcases find_spec hre.inv hkey with ⟨i, hi, p, e, hfind, hl, hek⟩ |
    ⟨i, hi, hfind, habs, hdead, hpath⟩
  · -- the key is there: its entry is replaced
    rcases hold p (hl.owns hi) with ⟨hp, hpe⟩
    rcases contents_eq_some.mp hl.data with ⟨x, hx, -⟩
    rcases entryRefDec_spec hx with ⟨heap, hdec, hcore⟩
    rcases hre.inv.replace hi hl hnew.new hnew.good hek.symm with ⟨hinv', hown⟩
    simp only [hfind, Option.bind_some, if_true, hl.entry, hdec, Option.map_some]
    refine ⟨_, some p, rfl, .old ⟨_, hlt, hp⟩ (hpe.symm.trans hl.data) hek, ?_⟩
    refine hinv.insertedOver hnew hlt hp hinv' (fun q => ?_) hcore
    rw [hown, hre.owns]
  · simp only [hfind, Option.bind_some, Bool.false_eq_true, if_false]
    rw [← hnew.good.hash]
    by_cases hfull : t.capacity ≤ t.size
    · -- the shard is full: an entry is evicted
      have hpos := hre.inv.positive
      rcases evict_spec hre.inv (by omega) with ⟨heap, j, p, e, hand, hj, hhand, hl, hev, hcore⟩
      rcases hold p (hl.owns hj) with ⟨hp, hpe⟩
      rcases hre.inv.evictInsert hhand hj hl hi hdead hnew.new hnew.good hidx habs hpath with
        ⟨hinv', hown⟩
      rw [if_pos hfull, hev, Option.map_some, if_pos rfl]
      refine ⟨_, some p, rfl, .evicted ⟨_, hlt, hp⟩ (hpe.symm.trans hl.data) (habsent habs)
        (hre.inv.shardOf_key hj hl) ?_, ?_⟩
      · rw [← hre.capacity, ← hre.size]
        exact hfull
      · refine hinv.insertedOver hnew hlt hp hinv' (fun q => ?_) hcore
        rw [hown, hre.owns]
    · -- there is room
      rw [if_neg hfull, Option.map_some, if_pos rfl]
      rcases hre.inv.insert hi hdead (Nat.lt_of_not_le hfull) hnew.new hnew.good hidx habs hpath
        with ⟨hinv', hown⟩
      refine ⟨_, none, rfl, .none (habsent habs), ?_⟩
      apply hinv.inserted hnew hlt _ hinv' _ rfl
      · intro q hq
        cases hq
      · intro q
        rw [hown, hre.owns]
        simp

/-! ## Clearing a shard -/

/-- Dropping the references of the first `j` slots: each entry is met once. -/
theorem refDecSlots_spec {heap : Heap} {idx : Nat} {s : Shard}
    (hinv : ShardInv (contents heap) idx s) (j : Nat) (hj : j ≤ s.bucketCount) :
    ∃ heap', refDecSlots heap s j = some heap' ∧
      (∀ i < j, liveTag (s.tags i) = true → ∀ p, s.entries i = some p →
        core heap' p = (core heap p).bind decRef) ∧
      ∀ p, (∀ i < j, liveTag (s.tags i) = true → s.entries i ≠ some p) →
        core heap' p = core heap p := by
  induction j with
  | zero => exact ⟨heap, rfl, fun _ h => absurd h (by omega), fun _ _ => rfl⟩
  | succ j ih =>
    rcases ih (by omega) with ⟨heap₁, hrun, hdec, hkeep⟩
    unfold refDecSlots
    rw [hrun, Option.bind_some]
    by_cases ht : s.tags j &&& tagControlMask = 0
    · rw [if_pos ht]
      have hlive : liveTag (s.tags j) = true := by
        unfold liveTag
        rw [ht]
        rfl
      rcases hinv.of_liveTag (show j < s.bucketCount by omega) hlive with ⟨p, d, hl, -⟩
      -- the entry of slot `j` stands in no earlier slot
      have hothers : ∀ i < j, liveTag (s.tags i) = true → s.entries i ≠ some p := by
        intro i hi hli hent
        rcases hinv.of_liveTag (show i < s.bucketCount by omega) hli with ⟨p', d', hl', -⟩
        have hpp : p' = p := by
          have := hl'.entry.symm.trans hent
          injection this
        rw [hpp] at hl'
        have := hinv.owns_unique (show i < s.bucketCount by omega) (by omega) hl' hl
        omega
      have hcore₁ := hkeep p hothers
      rcases contents_eq_some.mp hl.data with ⟨e, he, -⟩
      have hcore : core heap p = some (e.refCount, e.data) := by simp [core, he]
      have halloc : ∃ e₁, heap₁ p = some e₁ := by
        apply Option.ne_none_iff_exists'.mp
        rw [ne_eq, ← core_eq_none, hcore₁, hcore]
        exact Option.some_ne_none _
      rcases halloc with ⟨e₁, he₁⟩
      rcases entryRefDec_spec he₁ with ⟨heap', hrun', hcore'⟩
      rw [hl.entry, hrun']
      refine ⟨heap', rfl, ?_, ?_⟩
      · intro i hi hli q hq
        rw [hcore', decAt]
        by_cases hqp : q = p
        · subst hqp
          rw [Function.update_self, hcore₁]
        · rw [Function.update_of_ne hqp]
          have hij : i ≠ j := by
            intro heq
            rw [heq, hl.entry] at hq
            injection hq with hq
            exact hqp hq.symm
          exact hdec i (by omega) hli q hq
      · intro q hq
        have hqp : q ≠ p := by
          intro heq
          rw [heq] at hq
          exact hq j (by omega) hlive hl.entry
        rw [hcore', decAt, Function.update_of_ne hqp]
        exact hkeep q (fun i hi => hq i (by omega))
    · rw [if_neg ht]
      have hdead : ¬ liveTag (s.tags j) = true := by simpa [liveTag] using ht
      refine ⟨heap₁, rfl, ?_, ?_⟩
      · intro i hi hli q hq
        rcases Nat.lt_succ_iff_lt_or_eq.mp hi with hlt | heq
        · exact hdec i hlt hli q hq
        · rw [heq] at hli
          exact absurd hli hdead
      · intro q hq
        exact hkeep q (fun i hi => hq i (by omega))

/-- A shard without entries satisfies the invariant. -/
theorem ShardInv.blank (f : Ptr → Option EntryData) (idx : Nat) {s : Shard}
    (hpow : IsPow2 s.bucketCount) (hroom : 2 * s.capacity ≤ s.bucketCount)
    (hpos : 1 ≤ s.capacity) : ShardInv f idx s.blank ∧ ∀ p, ¬ Owns s.blank p := by
  refine ⟨⟨hpow, hroom, hpos, hpow.pos, fun _ _ => .inl rfl, ?_, ?_, Nat.zero_le _, ?_⟩, ?_⟩
  · apply chained_of_no_live
    intro i _ k hk
    simp [Shard.view, Shard.blank] at hk
  · exact (slotCount_eq_zero (fun _ _ => liveTag_tagEmpty)).symm
  · exact (slotCount_eq_zero (fun _ _ => rfl)).symm
  · intro p h
    rcases h with ⟨i, -, hlive, -⟩
    rw [show s.blank.tags i = tagEmpty from rfl, liveTag_tagEmpty] at hlive
    cases hlive

/-- The section has emptied shard `i`. -/
structure Cleared (c c' : CacheS) (i : Nat) : Prop where
  inv : CacheInv c'
  dropped : ∀ p, Owns (c.shards i) p → core c'.heap p = (core c.heap p).bind decRef
  kept : ∀ p, ¬ Owns (c.shards i) p → core c'.heap p = core c.heap p
  owned : ∀ p, Owned c' p ↔ Owned c p ∧ ¬ Owns (c.shards i) p
  empty : ∀ p, ¬ Owns (c'.shards i) p
  others : ∀ j ≠ i, c'.shards j = c.shards j
  next : c'.next = c.next
  ttl : c'.ttl = c.ttl

/-- The references of a whole shard. -/
theorem refDecAll_spec {heap : Heap} {idx : Nat} {s : Shard}
    (hinv : ShardInv (contents heap) idx s) :
    ∃ heap', refDecSlots heap s s.bucketCount = some heap' ∧
      (∀ p, Owns s p → core heap' p = (core heap p).bind decRef) ∧
      ∀ p, ¬ Owns s p → core heap' p = core heap p := by
  rcases refDecSlots_spec hinv s.bucketCount (Nat.le_refl _) with ⟨heap', hrun, hdec, hkeep⟩
  refine ⟨heap', hrun, ?_, ?_⟩
  · intro p hp
    rcases hp with ⟨i, hi, hli, hent⟩
    exact hdec i hi hli p hent
  · intro p hp
    apply hkeep
    intro i hi hli hent
    exact hp ⟨i, hi, hli, hent⟩

theorem clearSection_spec (hinv : CacheInv c) {i : Nat} (hi : i < shardCount) :
    ∃ c', clearSection c i = some c' ∧ Cleared c c' i := by
  have hs := hinv.shard i hi
  rcases refDecAll_spec hs with ⟨heap', hrun, hdrop, hkeep⟩
  rcases ShardInv.blank (contents heap') i hs.pow2 hs.room hs.positive with
    ⟨hblank, hnone⟩
  have hother : ∀ j < shardCount, j ≠ i → ∀ p, Owns (c.shards j) p → ¬ Owns (c.shards i) p := by
    intro j hj hji p hp hp'
    exact hji (hinv.owner_unique hj hi hp hp')
  unfold clearSection
  rw [hrun, Option.map_some]
  refine ⟨_, rfl, hinv.put hblank ?_ ?_, hdrop, hkeep, ?_, ?_, ?_, rfl, rfl⟩
  · intro j hj hji p hp
    exact contents_congr (hkeep p (hother j hj hji p hp))
  · intro p hp
    have hnot : ¬ Owns (c.shards i) p := by
      intro hown
      exact absurd (hinv.owned_lt ⟨i, hi, hown⟩) (Nat.not_lt.mpr hp)
    rw [← core_eq_none, hkeep p hnot, core_eq_none]
    exact hinv.fresh p hp
  · exact owned_put_none hi heap' hnone hother
  · intro p hp
    apply hnone p
    simpa [CacheS.put] using hp
  · intro j hj
    simp [CacheS.put, hj]

/-- What storing a new entry does to the contents, when the victim is the key's own entry
or none. -/
theorem Inserted.stored (hinv : CacheInv c) {d : EntryData} {victim : Option Ptr}
    (h : Inserted c c' d victim) {v : Key}
    (hv : ∀ p, victim = some p → Owned c p ∧ ∃ e, contents c.heap p = some e ∧ e.key = v)
    (hnone : victim = none → ∀ e, Stored c e → e.key ≠ v) (e : EntryData) :
    Stored c' e ↔ e = d ∨ (Stored c e ∧ e.key ≠ v) := by
  have hnext : victim ≠ some c.next := by
    intro heq
    exact absurd (hinv.owned_lt (hv _ heq).1) (Nat.lt_irrefl _)
  have hnew : contents c'.heap c.next = some d := by
    rw [contents_eq_core, h.core, dropVictim_of_ne hnext, Function.update_self]
    rfl
  have hold : ∀ q, q ≠ c.next → victim ≠ some q → contents c'.heap q = contents c.heap q := by
    intro q hq hvq
    apply contents_congr
    rw [h.core, dropVictim_of_ne hvq, Function.update_of_ne hq]
  constructor
  · intro hs
    rcases hs with ⟨q, hq, he⟩
    rcases (h.owned q).mp hq with hqn | ⟨hq', hvq⟩
    · left
      rw [hqn, hnew] at he
      injection he with he
      exact he.symm
    · right
      have hqn : q ≠ c.next := Nat.ne_of_lt (hinv.owned_lt hq')
      rw [hold q hqn hvq] at he
      refine ⟨⟨q, hq', he⟩, ?_⟩
      intro hkey
      cases hvic : victim with
      | none => exact hnone hvic e ⟨q, hq', he⟩ hkey
      | some p =>
        rcases hv p hvic with ⟨hp, f, hf, hfk⟩
        apply hvq
        rw [hvic, hinv.owned_unique hq' hp he hf (by rw [hkey, hfk])]
  · intro hs
    rcases hs with hed | ⟨⟨q, hq, he⟩, hkey⟩
    · exact ⟨c.next, (h.owned _).mpr (.inl rfl), by rw [hed]; exact hnew⟩
    · have hqn : q ≠ c.next := Nat.ne_of_lt (hinv.owned_lt hq)
      have hvq : victim ≠ some q := by
        intro heq
        rcases hv q heq with ⟨-, f, hf, hfk⟩
        rw [he] at hf
        cases hf
        exact hkey hfk
      exact ⟨q, (h.owned q).mpr (.inr ⟨hq, hvq⟩), by rw [hold q hqn hvq]; exact he⟩

end Solidc.Cache
