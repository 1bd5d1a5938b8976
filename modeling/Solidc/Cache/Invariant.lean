import Solidc.Cache.Table
import Solidc.Lib.Probe

/-! # The representation invariant of a cache shard

`ShardInv` says what every reachable shard looks like, given what the heap holds at each
pointer (`contents`). It is stated over the immutable part of the entries, so that
reference counts and clock bits may change freely (`ShardInv.frame`).

* `find_spec` — what `find_slot` returns;
* `ShardInv.tombstone`, `ShardInv.replace`, `ShardInv.insert` — the writes to a slot,
  which also say which pointers the shard still refers to (`Owns`).
-/

namespace Solidc.Cache

open CLib

/-! ## Tags, hashes and metadata words -/

theorem makeTag_lt (hash : Nat) : makeTag hash < 64 := by
  unfold makeTag
  rw [show (0x3F : Nat) = 2 ^ 6 - 1 from rfl, and_mask]
  exact Nat.mod_lt _ (by decide)

theorem fragment_control : ∀ t < 64, t &&& tagControlMask = 0 := by decide +kernel

theorem fragment_empty : ∀ t < 64, t &&& tagEmpty = 0 := by decide +kernel

theorem fragment_deleted : ∀ t < 64, t &&& tagDeleted = 0 := by decide +kernel

theorem hashKey_lt (key : Key) : hashKey key < 2 ^ 32 := by
  have hfold : ∀ (l : Key) (h : Nat), h < 2 ^ 32 →
      l.foldl (fun hash b => (hash ^^^ b.toNat) * 16777619 % 2 ^ 32) h < 2 ^ 32 := by
    intro l
    induction l with
    | nil => exact fun _ h => h
    | cons b l ih => exact fun _ _ => ih _ (Nat.mod_lt _ (by decide))
  have h := hfold key 2166136261 (by decide)
  unfold hashKey
  simp only
  split_ifs with h2
  · omega
  · exact h

theorem shardOf_lt (key : Key) : shardOf key < shardCount := by
  unfold shardOf getShardIdx
  rw [show shardCount - 1 = 2 ^ 5 - 1 from rfl, and_mask]
  exact Nat.mod_lt _ (by decide)

/-- What `cache_set` writes into an entry. -/
structure EntryData.Good (d : EntryData) : Prop where
  hash : d.hash = hashKey d.key
  keyLen : d.keyLen = d.key.length
  short : d.key.length < 2 ^ 32

/-- The metadata words and the key bytes agree exactly for the entry's own key. -/
theorem EntryData.Good.match_iff {d : EntryData} (h : d.Good) {key : Key}
    (hkey : key.length < 2 ^ 32) :
    (entryMeta d = targetMeta (hashKey key) key.length ∧ keysEqual d.key key key.length = true) ↔
      d.key = key := by
  have h1 := hashKey_lt d.key
  have h2 := hashKey_lt key
  unfold entryMeta targetMeta keysEqual
  rw [h.hash, h.keyLen, Nat.shiftLeft_eq key.length, Nat.mod_eq_of_lt (by omega),
    ← Nat.shiftLeft_eq, shl_or _ _ _ h1, shl_or _ _ _ h2]
  constructor
  · intro heq
    have hlen : d.key.length = key.length := by omega
    have htake := beq_iff_eq.mp heq.2
    rw [List.take_length, ← hlen, List.take_length] at htake
    exact htake
  · intro heq
    rw [heq]
    simp

/-! ## The heap -/

/-- The immutable part of what the heap holds. -/
def contents (heap : Heap) (p : Ptr) : Option EntryData := (heap p).map Entry.data

theorem contents_eq_some {heap : Heap} {p : Ptr} {d : EntryData} :
    contents heap p = some d ↔ ∃ e, heap p = some e ∧ e.data = d := by
  simp [contents]

/-- What the heap holds, less the clock bits. -/
def core (heap : Heap) (p : Ptr) : Option (Nat × EntryData) :=
  (heap p).map fun e => (e.refCount, e.data)

theorem contents_eq_core (heap : Heap) (p : Ptr) :
    contents heap p = (core heap p).map Prod.snd := by
  unfold contents core
  rw [Option.map_map]
  rfl

theorem contents_congr {heap heap' : Heap} {p : Ptr} (h : core heap' p = core heap p) :
    contents heap' p = contents heap p := by
  rw [contents_eq_core, contents_eq_core, h]

/-- The effect of `entry_ref_dec` on one entry. -/
def decRef (x : Nat × EntryData) : Option (Nat × EntryData) :=
  if x.1 = 1 then none else some ((x.1 + 2 ^ 32 - 1) % 2 ^ 32, x.2)

/-- The effect of `entry_ref_dec` on the heap. -/
def decAt (k : Ptr → Option (Nat × EntryData)) (p : Ptr) : Ptr → Option (Nat × EntryData) :=
  Function.update k p ((k p).bind decRef)

/-- The effect of `entry_ref_inc` on the heap. -/
def incAt (k : Ptr → Option (Nat × EntryData)) (p : Ptr) : Ptr → Option (Nat × EntryData) :=
  Function.update k p ((k p).map fun x => ((x.1 + 1) % 2 ^ 32, x.2))

theorem core_update (heap : Heap) (p : Ptr) (e : Option Entry) :
    core (Function.update heap p e) =
      Function.update (core heap) p (e.map fun e => (e.refCount, e.data)) := by
  funext q
  by_cases hq : q = p
  · subst hq
    simp [core]
  · simp [core, hq]

/-- `entry_ref_dec` on an allocated entry. -/
theorem entryRefDec_spec {heap : Heap} {p : Ptr} {e : Entry} (h : heap p = some e) :
    ∃ heap', entryRefDec heap (some p) = some heap' ∧ core heap' = decAt (core heap) p := by
  have hcore : core heap p = some (e.refCount, e.data) := by
    unfold core
    rw [h]
    rfl
  unfold entryRefDec
  simp only [h, Option.map_some]
  refine ⟨_, rfl, ?_⟩
  unfold decAt
  rw [hcore, Option.bind_some, decRef]
  split_ifs
  · exact core_update heap p none
  · exact core_update heap p _

/-- `entry_ref_inc` on an allocated entry. -/
theorem entryRefInc_spec {heap : Heap} {p : Ptr} {e : Entry} (h : heap p = some e) :
    ∃ heap', entryRefInc heap (some p) = some heap' ∧ core heap' = incAt (core heap) p := by
  have hcore : core heap p = some (e.refCount, e.data) := by
    unfold core
    rw [h]
    rfl
  unfold entryRefInc
  simp only [h, Option.map_some]
  refine ⟨_, rfl, ?_⟩
  unfold incAt
  rw [hcore]
  exact core_update heap p _

/-- A store to a clock bit changes nothing else. -/
theorem setClockBit_spec {heap : Heap} {p : Ptr} {e : Entry} (h : heap p = some e) (bit : Nat) :
    ∃ heap', setClockBit heap (some p) bit = some heap' ∧ core heap' = core heap := by
  have hcore : core heap p = some (e.refCount, e.data) := by
    unfold core
    rw [h]
    rfl
  unfold setClockBit
  simp only [h, Option.map_some]
  refine ⟨_, rfl, ?_⟩
  rw [core_update, Option.map_some, ← hcore]
  exact Function.update_eq_self p (core heap)

theorem contents_decAt {heap heap' : Heap} {p q : Ptr} (h : core heap' = decAt (core heap) p)
    (hq : q ≠ p) : contents heap' q = contents heap q := by
  apply contents_congr
  rw [h, decAt, Function.update_of_ne hq]

theorem contents_incAt {heap heap' : Heap} {p : Ptr} (h : core heap' = incAt (core heap) p) :
    contents heap' = contents heap := by
  funext q
  rw [contents_eq_core, contents_eq_core, h, incAt]
  by_cases hq : q = p
  · subst hq
    rw [Function.update_self, Option.map_map]
    rfl
  · rw [Function.update_of_ne hq]

/-! ## The invariant -/

/-- A tag byte without control bits. -/
def liveTag (tag : Nat) : Bool := tag &&& tagControlMask == 0

theorem liveTag_tagEmpty : liveTag tagEmpty = false := by decide

theorem liveTag_tagDeleted : liveTag tagDeleted = false := by decide

theorem liveTag_makeTag (hash : Nat) : liveTag (makeTag hash) = true := by
  unfold liveTag
  rw [fragment_control _ (makeTag_lt hash)]
  rfl

/-- What a slot holds, as the library sees it. -/
def Shard.view (s : Shard) (c : Ptr → Option EntryData) (i : Nat) : Slot Key :=
  if s.tags i = tagEmpty then .empty
  else if s.tags i = tagDeleted then .dead
  else match (s.entries i).bind c with
    | some d => .live d.key
    | none => .dead

/-- The home slot of a key among `n`. -/
def home (n : Nat) (key : Key) : Nat := hashKey key % n

/-- Slot `i` holds the entry at `p`. -/
structure LiveAt (c : Ptr → Option EntryData) (s : Shard) (i : Nat) (p : Ptr) (d : EntryData) :
    Prop where
  entry : s.entries i = some p
  data : c p = some d
  good : d.Good
  tag : s.tags i = makeTag d.hash

/-- The representation invariant of shard `idx`. -/
structure ShardInv (c : Ptr → Option EntryData) (idx : Nat) (s : Shard) : Prop where
  pow2 : IsPow2 s.bucketCount
  room : 2 * s.capacity ≤ s.bucketCount
  positive : 1 ≤ s.capacity
  hand : s.clockHand < s.bucketCount
  slot : ∀ i < s.bucketCount, s.tags i = tagEmpty ∨ s.tags i = tagDeleted ∨
    ∃ p d, LiveAt c s i p d ∧ getShardIdx d.hash = idx
  chained : Chained s.bucketCount (home s.bucketCount) Eq (s.view c)
  size : s.size = slotCount s.bucketCount s.tags liveTag
  bounded : s.size ≤ s.capacity
  tombstones : s.tombstoneCount = slotCount s.bucketCount s.tags (· == tagDeleted)

/-- A live slot of the shard points to `p`. -/
def Owns (s : Shard) (p : Ptr) : Prop :=
  ∃ i < s.bucketCount, liveTag (s.tags i) = true ∧ s.entries i = some p

variable {c c' : Ptr → Option EntryData} {idx : Nat} {s : Shard} {heap : Heap}

section Slots

variable {i : Nat} {p : Ptr} {d : EntryData}

theorem LiveAt.tag_lt (h : LiveAt c s i p d) : s.tags i < 64 := by
  rw [h.tag]
  exact makeTag_lt _

theorem LiveAt.live (h : LiveAt c s i p d) : liveTag (s.tags i) = true := by
  rw [h.tag]
  exact liveTag_makeTag _

theorem LiveAt.ne_empty (h : LiveAt c s i p d) : s.tags i ≠ tagEmpty := by
  have := h.tag_lt
  unfold tagEmpty
  omega

theorem LiveAt.ne_deleted (h : LiveAt c s i p d) : s.tags i ≠ tagDeleted := by
  have := h.tag_lt
  unfold tagDeleted
  omega

theorem LiveAt.view_eq (h : LiveAt c s i p d) : s.view c i = .live d.key := by
  unfold Shard.view
  rw [if_neg h.ne_empty, if_neg h.ne_deleted, h.entry]
  simp [h.data]

theorem LiveAt.owns (h : LiveAt c s i p d) (hi : i < s.bucketCount) : Owns s p :=
  ⟨i, hi, h.live, h.entry⟩

/-- The three kinds of slots. -/
theorem ShardInv.cases (hinv : ShardInv c idx s) (hi : i < s.bucketCount) :
    (s.tags i = tagEmpty ∧ s.view c i = .empty) ∨ (s.tags i = tagDeleted ∧ s.view c i = .dead) ∨
    ∃ p d, LiveAt c s i p d ∧ getShardIdx d.hash = idx := by
  rcases hinv.slot i hi with h | h | h
  · left
    refine ⟨h, ?_⟩
    unfold Shard.view
    rw [if_pos h]
  · right
    left
    refine ⟨h, ?_⟩
    unfold Shard.view
    rw [if_neg (by rw [h]; decide), if_pos h]
  · exact .inr (.inr h)

/-- A slot whose tag has no control bit is live. -/
theorem ShardInv.of_liveTag (hinv : ShardInv c idx s) (hi : i < s.bucketCount)
    (h : liveTag (s.tags i) = true) : ∃ p d, LiveAt c s i p d ∧ getShardIdx d.hash = idx := by
  rcases hinv.slot i hi with ht | ht | hl
  · rw [ht, liveTag_tagEmpty] at h
    cases h
  · rw [ht, liveTag_tagDeleted] at h
    cases h
  · exact hl

theorem ShardInv.of_view (hinv : ShardInv c idx s) (hi : i < s.bucketCount) {k : Key}
    (h : s.view c i = .live k) : ∃ p d, LiveAt c s i p d ∧ d.key = k := by
  rcases hinv.cases hi with ⟨-, hv⟩ | ⟨-, hv⟩ | ⟨p, d, hl, -⟩
  · rw [hv] at h
    cases h
  · rw [hv] at h
    cases h
  · rw [hl.view_eq] at h
    cases h
    exact ⟨p, d, hl, rfl⟩

/-- The slot of an owned pointer. -/
theorem ShardInv.of_owns (hinv : ShardInv c idx s) (h : Owns s p) :
    ∃ i < s.bucketCount, ∃ d, LiveAt c s i p d ∧ getShardIdx d.hash = idx := by
  rcases h with ⟨i, hi, hlive, hent⟩
  rcases hinv.of_liveTag hi hlive with ⟨q, d, hl, hidx⟩
  have hqp : q = p := by
    have := hl.entry.symm.trans hent
    injection this
  rw [hqp] at hl
  exact ⟨i, hi, d, hl, hidx⟩

/-- Two live slots with the same key are one slot. -/
theorem ShardInv.slot_unique (hinv : ShardInv c idx s) (hi : i < s.bucketCount) {j : Nat}
    (hj : j < s.bucketCount) {q : Ptr} {e : EntryData} (hl : LiveAt c s i p d)
    (hl' : LiveAt c s j q e) (h : d.key = e.key) : i = j :=
  hinv.chained.uniq i hi j hj d.key e.key hl.view_eq hl'.view_eq h

/-- A pointer stands in one slot only. -/
theorem ShardInv.owns_unique (hinv : ShardInv c idx s) (hi : i < s.bucketCount) {j : Nat}
    (hj : j < s.bucketCount) {e : EntryData} (hl : LiveAt c s i p d)
    (hl' : LiveAt c s j p e) : i = j := by
  have hde : d = e := by
    have := hl.data.symm.trans hl'.data
    injection this
  exact hinv.slot_unique hi hj hl hl' (by rw [hde])

/-- The key is held by a live slot of the shard. -/
def Present (c : Ptr → Option EntryData) (s : Shard) (key : Key) : Prop :=
  Holds s.bucketCount Eq (s.view c) key

theorem ShardInv.present_iff (hinv : ShardInv c idx s) (key : Key) :
    Present c s key ↔ ∃ p d, Owns s p ∧ c p = some d ∧ d.key = key := by
  constructor
  · intro h
    rcases h with ⟨i, hi, a, ha, hak⟩
    rcases hinv.of_view hi ha with ⟨p, d, hl, hk⟩
    exact ⟨p, d, hl.owns hi, hl.data, hk.trans hak⟩
  · intro h
    rcases h with ⟨p, d, hown, hc, hk⟩
    rcases hinv.of_owns hown with ⟨i, hi, e, hl, -⟩
    have hed : e = d := by
      have := hl.data.symm.trans hc
      injection this
    rw [hed] at hl
    exact ⟨i, hi, d.key, hl.view_eq, hk⟩

end Slots

theorem eq_equiv : Equivalence (Eq : Key → Key → Prop) := ⟨fun _ => rfl, Eq.symm, Eq.trans⟩

/-- The invariant looks at the heap only through the shard's own pointers. -/
theorem ShardInv.frame (hinv : ShardInv c idx s) (h : ∀ p, Owns s p → c' p = c p) :
    ShardInv c' idx s := by
  have hlive : ∀ i < s.bucketCount, ∀ p d, LiveAt c s i p d → LiveAt c' s i p d := by
    intro i hi p d hl
    exact ⟨hl.entry, by rw [h p (hl.owns hi)]; exact hl.data, hl.good, hl.tag⟩
  have hview : ∀ i < s.bucketCount, s.view c' i = s.view c i := by
    intro i hi
    rcases hinv.cases hi with ⟨ht, hv⟩ | ⟨ht, hv⟩ | ⟨p, d, hl, -⟩
    · rw [hv]
      unfold Shard.view
      rw [if_pos ht]
    · rw [hv]
      unfold Shard.view
      rw [if_neg (by rw [ht]; decide), if_pos ht]
    · rw [hl.view_eq, (hlive i hi p d hl).view_eq]
  have hpos := hinv.pow2.pos
  refine ⟨hinv.pow2, hinv.room, hinv.positive, hinv.hand, ?_, ⟨?_, ?_⟩, hinv.size,
    hinv.bounded, hinv.tombstones⟩
  · intro i hi
    rcases hinv.slot i hi with ht | ht | ⟨p, d, hl, hidx⟩
    · exact .inl ht
    · exact .inr (.inl ht)
    · exact .inr (.inr ⟨p, d, hlive i hi p d hl, hidx⟩)
  · intro i hi k hk e he
    rw [hview i hi] at hk
    rw [hview _ (Nat.mod_lt _ hpos)]
    exact hinv.chained.path i hi k hk e he
  · intro i hi j hj a b ha hb hab
    rw [hview i hi] at ha
    rw [hview j hj] at hb
    exact hinv.chained.uniq i hi j hj a b ha hb hab

/-! ## Searching -/

/-- Somewhere in the table a slot is not live. -/
theorem ShardInv.exists_not_live (hinv : ShardInv c idx s) :
    ∃ i < s.bucketCount, ∀ k, s.view c i ≠ .live k := by
  have hpos := hinv.positive
  have hroom := hinv.room
  have hsize := hinv.size
  have hbound := hinv.bounded
  rcases exists_of_slotCount_lt (n := s.bucketCount) (f := s.tags) (q := liveTag) (by omega)
    with ⟨i, hi, hdead⟩
  refine ⟨i, hi, ?_⟩
  intro k hk
  rcases hinv.of_view hi hk with ⟨p, d, hl, -⟩
  rw [hl.live] at hdead
  cases hdead

/-- What `find_slot` returns: the slot of the key, or a slot that is not live and that a
search for the key reaches. -/
def FindResult (c : Ptr → Option EntryData) (s : Shard) (key : Key) (r : Option (Nat × Bool)) :
    Prop :=
  (∃ i < s.bucketCount, ∃ p d, r = some (i, true) ∧ LiveAt c s i p d ∧ d.key = key) ∨
  (∃ i < s.bucketCount, r = some (i, false) ∧ ¬ Present c s key ∧ (∀ k, s.view c i ≠ .live k) ∧
    ∀ e < cdist s.bucketCount (home s.bucketCount key) i,
      s.view c ((home s.bucketCount key + e) % s.bucketCount) ≠ .empty)

/-- The state of the loop of `find_slot` after `d` probes. -/
structure Probed (c : Ptr → Option EntryData) (s : Shard) (key : Key) (d : Nat)
    (firstTombstone : Option Nat) : Prop where
  nonempty : ∀ e < d, s.view c ((home s.bucketCount key + e) % s.bucketCount) ≠ .empty
  absent : ∀ e < d, s.view c ((home s.bucketCount key + e) % s.bucketCount) ≠ .live key
  none_seen : firstTombstone = none →
    ∀ e < d, s.view c ((home s.bucketCount key + e) % s.bucketCount) ≠ .dead
  seen : ∀ t, firstTombstone = some t →
    ∃ e < d, t = (home s.bucketCount key + e) % s.bucketCount ∧ s.view c t = .dead

/-- One more slot that holds another key or a tombstone. -/
theorem Probed.step {key : Key} {d : Nat} {firstTombstone tomb : Option Nat}
    (h : Probed c s key d firstTombstone)
    (hne : s.view c ((home s.bucketCount key + d) % s.bucketCount) ≠ .empty)
    (hno : s.view c ((home s.bucketCount key + d) % s.bucketCount) ≠ .live key)
    (htomb : tomb = firstTombstone ∧
        s.view c ((home s.bucketCount key + d) % s.bucketCount) ≠ .dead ∨
      tomb = firstTombstone.or (some ((home s.bucketCount key + d) % s.bucketCount)) ∧
        s.view c ((home s.bucketCount key + d) % s.bucketCount) = .dead) :
    Probed c s key (d + 1) tomb := by
  refine ⟨?_, ?_, ?_, ?_⟩
  · intro e he
    rcases Nat.lt_succ_iff_lt_or_eq.mp he with hlt | heq
    · exact h.nonempty e hlt
    · rw [heq]
      exact hne
  · intro e he
    rcases Nat.lt_succ_iff_lt_or_eq.mp he with hlt | heq
    · exact h.absent e hlt
    · rw [heq]
      exact hno
  · intro hnone e he
    rcases htomb with ⟨ht, hlive⟩ | ⟨ht, -⟩
    · rcases Nat.lt_succ_iff_lt_or_eq.mp he with hlt | heq
      · exact h.none_seen (by rw [← ht]; exact hnone) e hlt
      · rw [heq]
        exact hlive
    · rw [ht] at hnone
      cases firstTombstone <;> simp at hnone
  · intro t ht'
    rcases htomb with ⟨ht, -⟩ | ⟨ht, hdead⟩
    · rcases h.seen t (by rw [← ht]; exact ht') with ⟨e, he, hrest⟩
      exact ⟨e, by omega, hrest⟩
    · cases hf : firstTombstone with
      | some u =>
        rw [ht, hf] at ht'
        cases ht'
        rcases h.seen t hf with ⟨e, he, hrest⟩
        exact ⟨e, by omega, hrest⟩
      | none =>
        rw [ht, hf] at ht'
        cases ht'
        exact ⟨d, by omega, rfl, hdead⟩

/-- The slot the loop falls back on. -/
theorem Probed.fallback (hinv : ShardInv c idx s) {key : Key} {d : Nat}
    {firstTombstone : Option Nat} (h : Probed c s key d firstTombstone) (hd : d ≤ s.bucketCount)
    (hno : ¬ Present c s key)
    (hend : firstTombstone = none → d < s.bucketCount ∧
      s.view c ((home s.bucketCount key + d) % s.bucketCount) = .empty) :
    FindResult c s key
      (some (firstTombstone.getD ((home s.bucketCount key + d) % s.bucketCount), false)) := by
  have hpos := hinv.pow2.pos
  have hhome : home s.bucketCount key < s.bucketCount := Nat.mod_lt _ hpos
  right
  cases hf : firstTombstone with
  | none =>
    rcases hend hf with ⟨hlt, hempty⟩
    refine ⟨_, Nat.mod_lt _ hpos, rfl, hno, ?_, ?_⟩
    · intro k hk
      rw [hempty] at hk
      cases hk
    · rw [cdist_add hhome hlt]
      exact h.nonempty
  | some t =>
    rcases h.seen t hf with ⟨e, he, ht, hdead⟩
    refine ⟨t, by rw [ht]; exact Nat.mod_lt _ hpos, rfl, hno, ?_, ?_⟩
    · intro k hk
      rw [hdead] at hk
      cases hk
    · rw [ht, cdist_add hhome (by omega)]
      intro e' he'
      exact h.nonempty e' (by omega)

/-- A key that the walk has not met is nowhere, once the walk meets an empty slot or has
gone round. -/
theorem Probed.not_present (hinv : ShardInv c idx s) {key : Key} {d : Nat}
    {firstTombstone : Option Nat} (h : Probed c s key d firstTombstone)
    (hend : d = s.bucketCount ∨
      s.view c ((home s.bucketCount key + d) % s.bucketCount) = .empty) :
    ¬ Present c s key := by
  have hpos := hinv.pow2.pos
  have hhome : home s.bucketCount key < s.bucketCount := Nat.mod_lt _ hpos
  intro hp
  rcases hp with ⟨i, hi, a, ha, hak⟩
  rw [hak] at ha
  have hdist := cdist_lt hhome hi
  have hnot : ¬ cdist s.bucketCount (home s.bucketCount key) i < d := by
    intro hlt
    apply h.absent _ hlt
    rw [add_cdist hhome hi]
    exact ha
  rcases hend with heq | hempty
  · omega
  · rcases Nat.lt_or_eq_of_le (Nat.le_of_not_lt hnot) with hlt | heq
    · exact hinv.chained.path i hi key ha d hlt hempty
    · rw [heq, add_cdist hhome hi, ha] at hempty
      cases hempty

/-- The loop of `find_slot`, by induction on the probes left. -/
theorem findSlotLoop_spec (hinv : ShardInv (contents heap) idx s) {key : Key}
    (hkey : key.length < 2 ^ 32) (fuel d : Nat) (hd : d + fuel = s.bucketCount)
    {firstTombstone : Option Nat} (h : Probed (contents heap) s key d firstTombstone) :
    FindResult (contents heap) s key
      (findSlotLoop heap s (hashKey key) key (makeTag (hashKey key)) fuel
        ((home s.bucketCount key + d) % s.bucketCount) firstTombstone) := by
  have hpos := hinv.pow2.pos
  have hhome : home s.bucketCount key < s.bucketCount := Nat.mod_lt _ hpos
  induction fuel generalizing d firstTombstone with
  | zero =>
    have hall : d = s.bucketCount := by omega
    apply h.fallback hinv (by omega) (h.not_present hinv (.inl hall))
    intro hnone
    -- all slots were live, which the load forbids
    rcases hinv.exists_not_live with ⟨i, hi, hdead⟩
    have hdist := cdist_lt hhome hi
    have h1 := h.nonempty _ (show cdist s.bucketCount (home s.bucketCount key) i < d by omega)
    have h2 := h.none_seen hnone _
      (show cdist s.bucketCount (home s.bucketCount key) i < d by omega)
    rw [add_cdist hhome hi] at h1 h2
    cases hv : s.view (contents heap) i with
    | empty => exact absurd hv h1
    | dead => exact absurd hv h2
    | live k => exact absurd hv (hdead k)
  | succ fuel ih =>
    have hi : (home s.bucketCount key + d) % s.bucketCount < s.bucketCount := Nat.mod_lt _ hpos
    have hnext : ((home s.bucketCount key + d) % s.bucketCount + 1) &&& (s.bucketCount - 1) =
        (home s.bucketCount key + (d + 1)) % s.bucketCount := by
      rw [hinv.pow2.and_pred, Nat.mod_add_mod, Nat.add_assoc]
    have htag := makeTag_lt (hashKey key)
    unfold findSlotLoop
    rw [hnext]
    rcases hinv.cases hi with ⟨ht, hv⟩ | ⟨ht, hv⟩ | ⟨p, e, hl, -⟩
    · rw [if_neg (by rw [ht]; unfold tagEmpty; omega), if_pos (by rw [ht]; decide)]
      exact h.fallback hinv (by omega) (h.not_present hinv (.inr hv)) (fun _ => ⟨by omega, hv⟩)
    · rw [if_neg (by rw [ht]; unfold tagDeleted; omega), if_neg (by rw [ht]; decide),
        if_pos (by rw [ht]; decide)]
      apply ih (d + 1) (by omega)
      apply h.step
      · rw [hv]
        exact nofun
      · rw [hv]
        exact nofun
      · exact .inr ⟨rfl, hv⟩
    · have hpass : e.key ≠ key → Probed (contents heap) s key (d + 1) firstTombstone := by
        intro hne
        apply h.step
        · rw [hl.view_eq]
          exact nofun
        · rw [hl.view_eq]
          intro heq
          injection heq with heq
          exact hne heq
        · left
          rw [hl.view_eq]
          exact ⟨rfl, nofun⟩
      by_cases hmatch : s.tags ((home s.bucketCount key + d) % s.bucketCount) =
          makeTag (hashKey key)
      · rw [if_pos hmatch, hl.entry]
        rcases contents_eq_some.mp hl.data with ⟨entry, hentry, hdata⟩
        simp only [deref, Option.bind_some, hentry, hdata]
        by_cases hk : e.key = key
        · rw [if_pos ((hl.good.match_iff hkey).mpr hk)]
          exact .inl ⟨_, hi, p, e, rfl, hl, hk⟩
        · rw [if_neg (fun hm => hk ((hl.good.match_iff hkey).mp hm))]
          exact ih (d + 1) (by omega) (hpass hk)
      · rw [if_neg hmatch, fragment_empty _ hl.tag_lt, fragment_deleted _ hl.tag_lt]
        simp only [ne_eq, not_true, if_false]
        apply ih (d + 1) (by omega) (hpass _)
        intro hk
        apply hmatch
        rw [hl.tag, hl.good.hash, hk]

/-- `find_slot` returns the slot of a present key, and for an absent one a slot that is
not live and that a search for the key reaches. -/
theorem find_spec (hinv : ShardInv (contents heap) idx s) {key : Key}
    (hkey : key.length < 2 ^ 32) :
    FindResult (contents heap) s key
      (findSlot heap s (hashKey key) key (makeTag (hashKey key))) := by
  have hprobed : Probed (contents heap) s key 0 none :=
    ⟨fun _ h => absurd h (by omega), fun _ h => absurd h (by omega),
      fun _ _ h => absurd h (by omega), fun _ h => by cases h⟩
  have hspec := findSlotLoop_spec hinv hkey s.bucketCount 0 (by omega) hprobed
  unfold findSlot
  rw [hinv.pow2.and_pred]
  rw [Nat.add_zero, home, Nat.mod_mod] at hspec
  exact hspec

/-! ## Writing slots -/

section Writes

variable {i : Nat} {p : Ptr} {d : EntryData}

theorem view_put_dead : (s.put i tagDeleted none).view c = Function.update (s.view c) i .dead := by
  funext j
  by_cases hj : j = i
  · subst hj
    simp [Shard.view, Shard.put, tagDeleted, tagEmpty]
  · simp [Shard.view, Shard.put, hj]

theorem view_put_live (hc : c p = some d) (hgood : d.Good) :
    (s.put i (makeTag d.hash) (some p)).view c = Function.update (s.view c) i (.live d.key) := by
  funext j
  by_cases hj : j = i
  · subst hj
    have hl : LiveAt c (s.put j (makeTag d.hash) (some p)) j p d :=
      ⟨by simp [Shard.put], hc, hgood, by simp [Shard.put]⟩
    rw [hl.view_eq, Function.update_self]
  · simp [Shard.view, Shard.put, hj]

theorem LiveAt.put_of_ne {j tag : Nat} {q : Option Ptr} (h : LiveAt c s j p d) (hj : j ≠ i) :
    LiveAt c (s.put i tag q) j p d :=
  ⟨by simpa [Shard.put, hj] using h.entry, h.data, h.good, by simpa [Shard.put, hj] using h.tag⟩

/-- The pointers of a shard after a write to a slot that was live with `p`. -/
theorem ShardInv.owns_put (hinv : ShardInv c idx s) (hi : i < s.bucketCount)
    (hl : LiveAt c s i p d) {tag : Nat} {q : Option Ptr} (r : Ptr) :
    Owns (s.put i tag q) r ↔ (liveTag tag = true ∧ q = some r) ∨ (Owns s r ∧ r ≠ p) := by
  constructor
  · intro h
    rcases h with ⟨j, hj, hlive, hent⟩
    by_cases hji : j = i
    · left
      subst hji
      exact ⟨by simpa [Shard.put] using hlive, by simpa [Shard.put] using hent⟩
    · right
      have hlive' : liveTag (s.tags j) = true := by simpa [Shard.put, hji] using hlive
      have hent' : s.entries j = some r := by simpa [Shard.put, hji] using hent
      refine ⟨⟨j, hj, hlive', hent'⟩, ?_⟩
      intro hrp
      rcases hinv.of_liveTag hj hlive' with ⟨q', e, hl', -⟩
      have hq : q' = p := by
        have := hl'.entry.symm.trans hent'
        rw [hrp] at this
        injection this
      rw [hq] at hl'
      exact hji (hinv.owns_unique hj hi hl' hl)
  · intro h
    rcases h with ⟨hlive, hq⟩ | ⟨⟨j, hj, hlive, hent⟩, hne⟩
    · exact ⟨i, hi, by simpa [Shard.put] using hlive, by simpa [Shard.put] using hq⟩
    · have hji : j ≠ i := by
        intro e
        rw [e, hl.entry] at hent
        injection hent with hent
        exact hne hent.symm
      exact ⟨j, hj, by simpa [Shard.put, hji] using hlive, by simpa [Shard.put, hji] using hent⟩

/-- The pointers of a shard after a write to a slot that was not live. -/
theorem owns_put_dead (hi : i < s.bucketCount) (hdead : liveTag (s.tags i) = false) {tag : Nat}
    (htag : liveTag tag = true) {q : Ptr} (r : Ptr) :
    Owns (s.put i tag (some q)) r ↔ r = q ∨ Owns s r := by
  constructor
  · rintro ⟨j, hj, hlive, hent⟩
    by_cases hji : j = i
    · left
      have hqr : some q = some r := by simpa [Shard.put, hji] using hent
      exact (Option.some.inj hqr).symm
    · exact .inr ⟨j, hj, by simpa [Shard.put, hji] using hlive,
        by simpa [Shard.put, hji] using hent⟩
  · rintro (rfl | ⟨j, hj, hlive, hent⟩)
    · exact ⟨i, hi, by simpa [Shard.put] using htag, by simp [Shard.put]⟩
    · have hji : j ≠ i := by
        rintro rfl
        rw [hdead] at hlive
        cases hlive
      exact ⟨j, hj, by simpa [Shard.put, hji] using hlive, by simpa [Shard.put, hji] using hent⟩

/-- Turning a live slot into a tombstone. -/
theorem ShardInv.tombstone (hinv : ShardInv c idx s) (hi : i < s.bucketCount)
    (hl : LiveAt c s i p d) :
    ShardInv c idx (s.tombstone i) ∧ ∀ q, Owns (s.tombstone i) q ↔ Owns s q ∧ q ≠ p := by
  have hview : (s.tombstone i).view c = Function.update (s.view c) i .dead := view_put_dead
  have hlive : slotCount s.bucketCount (Function.update s.tags i tagDeleted) liveTag + 1 =
      slotCount s.bucketCount s.tags liveTag := by
    have h := slotCount_update (f := s.tags) (q := liveTag) hi tagDeleted
    rw [hl.live, liveTag_tagDeleted] at h
    exact h
  have hdead : slotCount s.bucketCount (Function.update s.tags i tagDeleted) (· == tagDeleted) =
      slotCount s.bucketCount s.tags (· == tagDeleted) + 1 := by
    have h := slotCount_update (f := s.tags) (q := (· == tagDeleted)) hi tagDeleted
    simpa [hl.ne_deleted] using h
  refine ⟨⟨hinv.pow2, hinv.room, hinv.positive, hinv.hand, ?_, ?_, ?_, ?_, ?_⟩, ?_⟩
  · intro j hj
    by_cases hji : j = i
    · right
      left
      simp [Shard.tombstone, Shard.put, hji]
    · rcases hinv.slot j hj with ht | ht | ⟨q, e, hl', hidx⟩
      · exact .inl (by simpa [Shard.tombstone, Shard.put, hji] using ht)
      · exact .inr (.inl (by simpa [Shard.tombstone, Shard.put, hji] using ht))
      · have h : LiveAt c (s.put i tagDeleted none) j q e := hl'.put_of_ne hji
        exact .inr (.inr ⟨q, e, ⟨h.entry, h.data, h.good, h.tag⟩, hidx⟩)
  · rw [hview]
    exact hinv.chained.kill i
  · show s.size - 1 = slotCount s.bucketCount (Function.update s.tags i tagDeleted) liveTag
    have := hinv.size
    omega
  · show s.size - 1 ≤ s.capacity
    have := hinv.bounded
    omega
  · show s.tombstoneCount + 1 = slotCount s.bucketCount _ _
    rw [hinv.tombstones]
    exact hdead.symm
  · intro q
    show Owns (s.put i tagDeleted none) q ↔ _
    rw [hinv.owns_put hi hl]
    simp

/-- Replacing the entry of a live slot by another one of the same key. -/
theorem ShardInv.replace (hinv : ShardInv c idx s) (hi : i < s.bucketCount)
    (hl : LiveAt c s i p d) {q : Ptr} {e : EntryData} (hq : c q = some e) (hgood : e.Good)
    (hkey : e.key = d.key) :
    ShardInv c idx { s with entries := Function.update s.entries i (some q) } ∧
    ∀ r, Owns { s with entries := Function.update s.entries i (some q) } r ↔
      r = q ∨ (Owns s r ∧ r ≠ p) := by
  have hhash : e.hash = d.hash := by rw [hgood.hash, hl.good.hash, hkey]
  -- the tag does not change, so this is a write of both
  have hput : ({ s with entries := Function.update s.entries i (some q) } : Shard) =
      s.put i (makeTag e.hash) (some q) := by
    have htags : Function.update s.tags i (makeTag e.hash) = s.tags := by
      rw [hhash, ← hl.tag]
      exact Function.update_eq_self i s.tags
    unfold Shard.put
    rw [htags]
  have hview : (s.put i (makeTag e.hash) (some q)).view c = s.view c := by
    rw [view_put_live hq hgood, hkey, ← hl.view_eq]
    exact Function.update_eq_self i (s.view c)
  rw [hput]
  have htags : (s.put i (makeTag e.hash) (some q)).tags = s.tags := by rw [← hput]
  refine ⟨⟨hinv.pow2, hinv.room, hinv.positive, hinv.hand, ?_, ?_, ?_, hinv.bounded, ?_⟩, ?_⟩
  · intro j hj
    by_cases hji : j = i
    · right
      right
      subst hji
      refine ⟨q, e, ⟨by simp [Shard.put], hq, hgood, by simp [Shard.put]⟩, ?_⟩
      rcases hinv.of_liveTag hj hl.live with ⟨p', d', hl', hidx⟩
      have hpp : p' = p := by
        have := hl'.entry.symm.trans hl.entry
        injection this
      rw [hpp] at hl'
      have hdd : d' = d := by
        have := hl'.data.symm.trans hl.data
        injection this
      rw [hhash, ← hdd]
      exact hidx
    · rcases hinv.slot j hj with ht | ht | ⟨q', e', hl', hidx⟩
      · exact .inl (by rw [htags]; exact ht)
      · exact .inr (.inl (by rw [htags]; exact ht))
      · exact .inr (.inr ⟨q', e', hl'.put_of_ne hji, hidx⟩)
  · rw [hview]
    exact hinv.chained
  · rw [htags]
    exact hinv.size
  · rw [htags]
    exact hinv.tombstones
  · intro r
    have h : Owns (s.put i (makeTag e.hash) (some q)) r ↔ _ := hinv.owns_put hi hl r
    simpa [liveTag_makeTag, eq_comm] using h

/-- Storing a new key in a slot that is not live. -/
theorem ShardInv.insert (hinv : ShardInv c idx s) (hi : i < s.bucketCount)
    (hdead : ∀ k, s.view c i ≠ .live k) (hroom : s.size < s.capacity) {q : Ptr} {e : EntryData}
    (hq : c q = some e) (hgood : e.Good) (hidx : getShardIdx e.hash = idx)
    (habsent : ¬ Present c s e.key)
    (hpath : ∀ f < cdist s.bucketCount (home s.bucketCount e.key) i,
      s.view c ((home s.bucketCount e.key + f) % s.bucketCount) ≠ .empty) :
    ShardInv c idx (s.insert i (makeTag e.hash) q) ∧
    ∀ r, Owns (s.insert i (makeTag e.hash) q) r ↔ r = q ∨ Owns s r := by
  have hlt := makeTag_lt e.hash
  have hlive := liveTag_makeTag e.hash
  have hne : makeTag e.hash ≠ tagDeleted := by
    unfold tagDeleted
    omega
  have hview : (s.insert i (makeTag e.hash) q).view c =
      Function.update (s.view c) i (.live e.key) := view_put_live hq hgood
  have hold : liveTag (s.tags i) = false := by
    cases h : liveTag (s.tags i) with
    | false => rfl
    | true =>
      rcases hinv.of_liveTag hi h with ⟨p', d', hl', -⟩
      exact absurd hl'.view_eq (hdead _)
  have hcount : slotCount s.bucketCount (Function.update s.tags i (makeTag e.hash)) liveTag =
      slotCount s.bucketCount s.tags liveTag + 1 := by
    have h := slotCount_update (f := s.tags) (q := liveTag) hi (makeTag e.hash)
    simpa [hold, hlive] using h
  have htombs := slotCount_update (f := s.tags) (q := (· == tagDeleted)) hi (makeTag e.hash)
  refine ⟨⟨hinv.pow2, hinv.room, hinv.positive, hinv.hand, ?_, ?_, ?_, ?_, ?_⟩, ?_⟩
  · intro j hj
    by_cases hji : j = i
    · right
      right
      refine ⟨q, e, ⟨?_, hq, hgood, ?_⟩, hidx⟩
      · simp [Shard.insert, Shard.put, hji]
      · simp [Shard.insert, Shard.put, hji]
    · rcases hinv.slot j hj with ht | ht | ⟨q', e', hl', hidx'⟩
      · exact .inl (by simpa [Shard.insert, Shard.put, hji] using ht)
      · exact .inr (.inl (by simpa [Shard.insert, Shard.put, hji] using ht))
      · have h : LiveAt c (s.put i (makeTag e.hash) (some q)) j q' e' := hl'.put_of_ne hji
        exact .inr (.inr ⟨q', e', ⟨h.entry, h.data, h.good, h.tag⟩, hidx'⟩)
  · rw [hview]
    apply hinv.chained.fill eq_equiv _ hpath
    intro j hj _ a ha hak
    exact habsent ⟨j, hj, a, ha, hak⟩
  · show s.size + 1 = slotCount s.bucketCount (Function.update s.tags i (makeTag e.hash)) liveTag
    rw [hcount, hinv.size]
  · show s.size + 1 ≤ s.capacity
    omega
  · show (if s.tags i = tagDeleted then s.tombstoneCount - 1 else s.tombstoneCount) =
      slotCount s.bucketCount (Function.update s.tags i (makeTag e.hash)) (· == tagDeleted)
    -- a reused tombstone is no longer counted as one
    have htc := hinv.tombstones
    by_cases ht : s.tags i = tagDeleted
    · rw [if_pos ht]
      simp only [beq_iff_eq, ht, if_true, if_neg hne, Nat.add_zero] at htombs
      omega
    · rw [if_neg ht]
      simp only [beq_iff_eq, if_neg ht, if_neg hne, Nat.add_zero] at htombs
      omega
  · exact owns_put_dead hi hold hlive

end Writes

end Solidc.Cache
