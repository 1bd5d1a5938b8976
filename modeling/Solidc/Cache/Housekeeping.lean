import Solidc.Cache.Invariant

/-! # Compaction and eviction

* `compact_spec` — compaction ends, and keeps the shard's entries. It may give up for want
  of memory, and then the shard may have no empty slot at all;
* `evict_spec` — eviction finds a live slot, whatever the clock bits are.
-/

namespace Solidc.Cache

open CLib

variable {c : Ptr → Option EntryData} {idx : Nat} {s : Shard} {heap : Heap}

/-! ## Compaction -/

/-- The search for an empty slot is the library's. -/
theorem probeEmpty_eq (hpow : IsPow2 s.bucketCount) (tags : Nat → Nat) (fuel i : Nat) :
    probeEmpty tags (s.bucketCount - 1) fuel i =
      scan s.bucketCount (fun j => tags j &&& tagEmpty != 0) fuel i := by
  induction fuel generalizing i with
  | zero => rfl
  | succ fuel ih =>
    unfold probeEmpty scan
    rw [ih, hpow.and_pred]
    by_cases h : tags i &&& tagEmpty = 0
    · simp [h]
    · simp [h]

/-- The new arrays of `compact_shard` after `i` old slots. -/
structure Compacted (c : Ptr → Option EntryData) (idx : Nat) (s : Shard) (i : Nat) (t : Shard) :
    Prop where
  shape : t = { s with tags := t.tags, entries := t.entries }
  slot : ∀ j < s.bucketCount, t.tags j = tagEmpty ∨
    ∃ p d, LiveAt c t j p d ∧ getShardIdx d.hash = idx
  chained : Chained s.bucketCount (home s.bucketCount) Eq (t.view c)
  count : slotCount s.bucketCount t.tags liveTag = slotCount i s.tags liveTag
  owns : ∀ p, Owns t p ↔ ∃ j < i, liveTag (s.tags j) = true ∧ s.entries j = some p

theorem compacted_zero :
    Compacted c idx s 0 { s with tags := fun _ => tagEmpty, entries := fun _ => none } := by
  refine ⟨rfl, fun _ _ => .inl rfl, ?_, ?_, ?_⟩
  · apply chained_of_no_live
    intro i _ k hk
    simp [Shard.view] at hk
  · rw [slotCount_zero]
    exact slotCount_eq_zero (fun _ _ => liveTag_tagEmpty)
  · intro p
    constructor
    · intro h
      rcases h with ⟨j, -, hlive, -⟩
      rw [liveTag_tagEmpty] at hlive
      cases hlive
    · intro h
      rcases h with ⟨j, hj, -⟩
      omega

/-- A key in the new arrays comes from a slot of the old ones that was passed before slot `i`. -/
theorem Compacted.key_ne (hinv : ShardInv c idx s) {i : Nat} {t : Shard}
    (h : Compacted c idx s i t) (hi : i < s.bucketCount) {p : Ptr} {d : EntryData}
    (hl : LiveAt c s i p d) {l : Nat} (hln : l < s.bucketCount) {a : Key}
    (ha : t.view c l = .live a) : a ≠ d.key := by
  have hbc : t.bucketCount = s.bucketCount := by rw [h.shape]
  obtain ⟨q, d', hl', hka⟩ : ∃ q d', LiveAt c t l q d' ∧ d'.key = a := by
    rcases h.slot l hln with ht | ⟨q, d', hl', -⟩
    · unfold Shard.view at ha
      rw [if_pos ht] at ha
      cases ha
    · rw [hl'.view_eq] at ha
      cases ha
      exact ⟨q, d', hl', rfl⟩
  rcases (h.owns q).mp (hl'.owns (by rw [hbc]; exact hln)) with ⟨m, hm, hmlive, hment⟩
  have hmn : m < s.bucketCount := Nat.lt_trans hm hi
  rcases hinv.of_liveTag hmn hmlive with ⟨q', d'', hlm, -⟩
  have hq : q' = q := Option.some.inj (hlm.entry.symm.trans hment)
  rw [hq] at hlm
  have hd : d'' = d' := Option.some.inj (hlm.data.symm.trans hl'.data)
  -- one key at the slots `m` and `i` makes them one slot
  intro hak
  have hmi := hinv.slot_unique hmn hi hlm hl (by rw [hd, hka, hak])
  omega

/-- Moving one live entry into the new arrays. -/
theorem Compacted.move (hinv : ShardInv c idx s) {i : Nat} {t : Shard} (h : Compacted c idx s i t)
    (hi : i < s.bucketCount) {p : Ptr} {d : EntryData} (hl : LiveAt c s i p d)
    (hidx : getShardIdx d.hash = idx) :
    ∃ j, scan s.bucketCount (fun j => t.tags j &&& tagEmpty != 0) s.bucketCount
        (home s.bucketCount d.key) = some j ∧
      Compacted c idx s (i + 1) (t.put j (makeTag d.hash) (some p)) := by
  have hpos := hinv.pow2.pos
  have hhome : home s.bucketCount d.key < s.bucketCount := Nat.mod_lt _ hpos
  have hbc : t.bucketCount = s.bucketCount := by rw [h.shape]
  have hlive := liveTag_makeTag d.hash
  -- fewer than half of the new slots are taken
  have hfree : slotCount s.bucketCount t.tags liveTag < s.bucketCount := by
    have := slotCount_le (n := i) (f := s.tags) (q := liveTag)
    rw [h.count]
    omega
  rcases exists_of_slotCount_lt hfree with ⟨e, he, hdead⟩
  have hempty : t.tags e &&& tagEmpty ≠ 0 := by
    rcases h.slot e he with ht | ⟨q, d', hl', -⟩
    · rw [ht]
      decide
    · rw [hl'.live] at hdead
      cases hdead
  rcases scan_isSome (fun j => t.tags j &&& tagEmpty != 0) hhome he (by simpa using hempty)
    with ⟨j, hj⟩
  rcases scan_some_cdist hhome hj with ⟨hjn, hstop, hbefore⟩
  have hjempty : t.tags j = tagEmpty := by
    rcases h.slot j hjn with ht | ⟨q, d', hl', -⟩
    · exact ht
    · have := fragment_empty _ hl'.tag_lt
      simp [this] at hstop
  have hjdead : liveTag (t.tags j) = false := by
    rw [hjempty]
    decide
  have hview : (t.put j (makeTag d.hash) (some p)).view c =
      Function.update (t.view c) j (.live d.key) := view_put_live hl.data hl.good
  refine ⟨j, hj, ?_, ?_, ?_, ?_, ?_⟩
  · unfold Shard.put
    rw [h.shape]
  · intro l hln
    by_cases hlj : l = j
    · right
      refine ⟨p, d, ⟨?_, hl.data, hl.good, ?_⟩, hidx⟩
      · simp [Shard.put, hlj]
      · simp [Shard.put, hlj]
    · rcases h.slot l hln with ht | ⟨q, d', hl', hidx'⟩
      · exact .inl (by simpa [Shard.put, hlj] using ht)
      · exact .inr ⟨q, d', hl'.put_of_ne hlj, hidx'⟩
  · rw [hview]
    apply h.chained.fill eq_equiv
    · exact fun l hln _ a ha hak => h.key_ne hinv hi hl hln ha hak
    · intro f hf hemp
      have hstop' := hbefore f hf
      have hfn : (home s.bucketCount d.key + f) % s.bucketCount < s.bucketCount :=
        Nat.mod_lt _ hpos
      rcases h.slot _ hfn with ht | ⟨q, d', hl', -⟩
      · rw [ht] at hstop'
        exact absurd hstop' (by decide)
      · rw [hl'.view_eq] at hemp
        cases hemp
  · have hc := slotCount_update (f := t.tags) (q := liveTag) hjn (makeTag d.hash)
    rw [hjdead, hlive] at hc
    rw [slotCount_succ, ← h.count, hl.live]
    exact hc
  · intro q
    rw [owns_put_dead (by rw [hbc]; exact hjn) hjdead hlive, h.owns]
    constructor
    · rintro (rfl | ⟨m, hm, hrest⟩)
      · exact ⟨i, Nat.lt_succ_self i, hl.live, hl.entry⟩
      · exact ⟨m, Nat.lt_succ_of_lt hm, hrest⟩
    · rintro ⟨m, hm, hmlive, hment⟩
      rcases Nat.lt_succ_iff_lt_or_eq.mp hm with hlt | rfl
      · exact .inr ⟨m, hlt, hmlive, hment⟩
      · exact .inl (Option.some.inj (hment.symm.trans hl.entry))

/-- The loop of `compact_shard` always ends, by induction on the old slots. -/
theorem compactLoop_spec (hinv : ShardInv (contents heap) idx s) (i : Nat)
    (hi : i ≤ s.bucketCount) :
    ∃ t, compactLoop heap s i = some t ∧ Compacted (contents heap) idx s i t := by
  induction i with
  | zero => exact ⟨_, rfl, compacted_zero⟩
  | succ i ih =>
    rcases ih (by omega) with ⟨t, ht, hcomp⟩
    unfold compactLoop
    rw [ht]
    simp only [Option.bind_some]
    by_cases hlive : s.tags i &&& tagControlMask = 0
    · rw [if_neg (by simpa using hlive)]
      rcases hinv.of_liveTag (show i < s.bucketCount by omega)
        (by unfold liveTag; rw [hlive]; rfl) with ⟨p, d, hl, hidx⟩
      rcases contents_eq_some.mp hl.data with ⟨entry, hentry, hdata⟩
      rcases hcomp.move hinv (by omega) hl hidx with ⟨j, hj, hcomp'⟩
      have hhome : entry.data.hash &&& (s.bucketCount - 1) = home s.bucketCount d.key := by
        rw [hinv.pow2.and_pred, hdata, hl.good.hash]
        rfl
      refine ⟨_, ?_, hcomp'⟩
      rw [hl.entry]
      simp only [deref, Option.bind_some, hentry]
      rw [hhome, probeEmpty_eq hinv.pow2, hj, hdata]
      rfl
    · rw [if_pos (by simpa using hlive)]
      have hdead : liveTag (s.tags i) = false := by
        unfold liveTag
        simpa using hlive
      refine ⟨t, rfl, hcomp.shape, hcomp.slot, hcomp.chained, ?_, ?_⟩
      · rw [slotCount_succ, hdead, hcomp.count]
        rfl
      · intro p
        rw [hcomp.owns]
        constructor
        · intro h
          rcases h with ⟨j, hj, hrest⟩
          exact ⟨j, by omega, hrest⟩
        · intro h
          rcases h with ⟨j, hj, hlive', hrest⟩
          rcases Nat.lt_succ_iff_lt_or_eq.mp hj with hlt | heq
          · exact ⟨j, hlt, hlive', hrest⟩
          · rw [heq, hdead] at hlive'
            cases hlive'

/-- A shard with the same entries and no fewer empty slots. -/
structure Reshaped (c : Ptr → Option EntryData) (idx : Nat) (s t : Shard) : Prop where
  inv : ShardInv c idx t
  owns : ∀ p, Owns t p ↔ Owns s p
  size : t.size = s.size
  capacity : t.capacity = s.capacity
  bucketCount : t.bucketCount = s.bucketCount

/-- Compaction, which may give up, keeps the shard's entries. -/
theorem compact_spec (hinv : ShardInv (contents heap) idx s) (allocOk : Bool) :
    ∃ t, compactIfCrowded heap s allocOk = some t ∧ Reshaped (contents heap) idx s t := by
  have hsame : Reshaped (contents heap) idx s s := ⟨hinv, fun _ => Iff.rfl, rfl, rfl, rfl⟩
  unfold compactIfCrowded compactShard
  -- compaction is done when tombstones crowd the shard and the new arrays were allocated
  split_ifs
  · rcases compactLoop_spec hinv s.bucketCount (Nat.le_refl _) with ⟨t, ht, hcomp⟩
    rw [ht]
    refine ⟨_, rfl, ?_⟩
    have hbc : t.bucketCount = s.bucketCount := by rw [hcomp.shape]
    have hcap : t.capacity = s.capacity := by rw [hcomp.shape]
    have hsz : t.size = s.size := by rw [hcomp.shape]
    refine ⟨⟨?_, ?_, ?_, ?_, ?_, ?_, ?_, ?_, ?_⟩, hcomp.owns, hsz, hcap, hbc⟩
    · show IsPow2 t.bucketCount
      rw [hbc]
      exact hinv.pow2
    · show 2 * t.capacity ≤ t.bucketCount
      rw [hbc, hcap]
      exact hinv.room
    · show 1 ≤ t.capacity
      rw [hcap]
      exact hinv.positive
    · show 0 < t.bucketCount
      rw [hbc]
      exact hinv.pow2.pos
    · intro j hj
      rcases hcomp.slot j (by rw [← hbc]; exact hj) with h | ⟨p, d, hl, hidx⟩
      · exact .inl h
      · exact .inr (.inr ⟨p, d, ⟨hl.entry, hl.data, hl.good, hl.tag⟩, hidx⟩)
    · show Chained t.bucketCount (home t.bucketCount) Eq (t.view (contents heap))
      rw [hbc]
      exact hcomp.chained
    · show t.size = slotCount t.bucketCount t.tags liveTag
      rw [hsz, hbc, hcomp.count, hinv.size]
    · show t.size ≤ t.capacity
      rw [hsz, hcap]
      exact hinv.bounded
    · show 0 = slotCount t.bucketCount t.tags (· == tagDeleted)
      rw [hbc]
      symm
      apply slotCount_eq_zero
      intro j hj
      rcases hcomp.slot j hj with h | ⟨p, d, hl, -⟩
      · rw [h]
        rfl
      · simpa using hl.ne_deleted
  · exact ⟨s, rfl, hsame⟩
  · exact ⟨s, rfl, hsame⟩

/-! ## Eviction -/

theorem ShardInv.setHand (hinv : ShardInv c idx s) {hand : Nat} (h : hand < s.bucketCount) :
    ShardInv c idx { s with clockHand := hand } := by
  refine ⟨hinv.pow2, hinv.room, hinv.positive, h, ?_, hinv.chained, hinv.size, hinv.bounded,
    hinv.tombstones⟩
  intro i hi
  rcases hinv.slot i hi with ht | ht | ⟨p, d, hl, hidx⟩
  · exact .inl ht
  · exact .inr (.inl ht)
  · exact .inr (.inr ⟨p, d, ⟨hl.entry, hl.data, hl.good, hl.tag⟩, hidx⟩)

/-- What an eviction does: one live slot becomes a tombstone and its reference is dropped. -/
def Evicted (heap : Heap) (s : Shard) (r : Option (Heap × Shard × Bool)) : Prop :=
  ∃ heap' i p d hand, i < s.bucketCount ∧ hand < s.bucketCount ∧
    LiveAt (contents heap) s i p d ∧
    r = some (heap', ({ s with clockHand := hand } : Shard).tombstone i, true) ∧
    core heap' = decAt (core heap) p

theorem evicted_at (hinv : ShardInv (contents heap) idx s)
    (hlive : liveTag (s.tags s.clockHand) = true) :
    Evicted heap s ((entryRefDec heap (s.entries s.clockHand)).map fun heap =>
      (heap, s.advance.tombstone s.clockHand, true)) := by
  rcases hinv.of_liveTag hinv.hand hlive with ⟨p, d, hl, -⟩
  rcases contents_eq_some.mp hl.data with ⟨e, he, -⟩
  rcases entryRefDec_spec he with ⟨heap', hdec, hcore⟩
  refine ⟨heap', s.clockHand, p, d, (s.clockHand + 1) % s.bucketCount, hinv.hand,
    Nat.mod_lt _ hinv.pow2.pos, hl, ?_, hcore⟩
  rw [hl.entry, hdec, Option.map_some, Shard.advance, hinv.pow2.and_pred]

theorem ShardInv.advance (hinv : ShardInv c idx s) : ShardInv c idx s.advance := by
  apply hinv.setHand
  rw [hinv.pow2.and_pred]
  exact Nat.mod_lt _ hinv.pow2.pos

/-- Moving the hand does not change what an eviction does. -/
theorem Evicted.of_advance {r : Option (Heap × Shard × Bool)} (h : Evicted heap s.advance r) :
    Evicted heap s r := by
  rcases h with ⟨heap', i, p, d, hand, hi, hhand, hl, hr, hcore⟩
  exact ⟨heap', i, p, d, hand, hi, hhand, ⟨hl.entry, hl.data, hl.good, hl.tag⟩, hr, hcore⟩

/-- The second loop of `clock_evict`, with the live slot `j` ahead of the hand. -/
theorem evictAny_spec (hinv : ShardInv (contents heap) idx s) {j : Nat} (hj : j < s.bucketCount)
    (hlive : liveTag (s.tags j) = true) (fuel : Nat)
    (hfuel : cdist s.bucketCount s.clockHand j < fuel) :
    Evicted heap s (evictAny fuel heap s) := by
  induction fuel generalizing s with
  | zero => omega
  | succ fuel ih =>
    unfold evictAny
    by_cases ht : s.tags s.clockHand &&& tagControlMask = 0
    · rw [if_pos ht]
      exact evicted_at hinv (by unfold liveTag; rw [ht]; rfl)
    · rw [if_neg ht]
      have hne : s.clockHand ≠ j := by
        intro heq
        apply ht
        rw [heq]
        simpa [liveTag] using hlive
      have hstep := succ_cdist hinv.hand hj hne
      apply Evicted.of_advance
      apply ih hinv.advance hj hlive
      show cdist s.bucketCount ((s.clockHand + 1) &&& (s.bucketCount - 1)) j < fuel
      rw [hinv.pow2.and_pred]
      omega

/-- The first loop of `clock_evict`, and what follows it. -/
theorem evictScan_spec (hinv : ShardInv (contents heap) idx s) {j : Nat} (hj : j < s.bucketCount)
    (hlive : liveTag (s.tags j) = true) (fuel : Nat) :
    Evicted heap s (evictScan fuel heap s) := by
  induction fuel generalizing heap s with
  | zero => exact evictAny_spec hinv hj hlive _ (cdist_lt hinv.hand hj)
  | succ fuel ih =>
    unfold evictScan
    by_cases ht : s.tags s.clockHand &&& tagControlMask = 0
    · rw [if_neg (by simpa using ht)]
      have hhand : liveTag (s.tags s.clockHand) = true := by
        unfold liveTag
        rw [ht]
        rfl
      rcases hinv.of_liveTag hinv.hand hhand with ⟨p, d, hl, -⟩
      rcases contents_eq_some.mp hl.data with ⟨e, he, -⟩
      have hderef : deref heap (s.entries s.clockHand) = some e := by
        rw [hl.entry]
        exact he
      rw [hderef, Option.bind_some]
      by_cases hbit : e.clockBit = 0
      · rw [if_pos hbit]
        exact evicted_at hinv hhand
      · rw [if_neg hbit, hl.entry]
        rcases setClockBit_spec he 0 with ⟨heap', hset, hcore⟩
        rw [hset, Option.bind_some]
        have hcont : contents heap' = contents heap := by
          funext q
          exact contents_congr (by rw [hcore])
        have hadvance : ShardInv (contents heap') idx s.advance := by
          rw [hcont]
          exact hinv.advance
        have hrec := ih hadvance hj hlive
        unfold Evicted at hrec
        rw [hcont, hcore] at hrec
        exact Evicted.of_advance hrec
    · rw [if_pos (by simpa using ht)]
      exact Evicted.of_advance (ih hinv.advance hj hlive)

/-- `clock_evict` on a shard with a live entry. -/
theorem evict_spec (hinv : ShardInv (contents heap) idx s) (hsize : 0 < s.size) :
    Evicted heap s (clockEvict heap s) := by
  rw [hinv.size] at hsize
  rcases exists_of_slotCount_pos hsize with ⟨j, hj, hlive⟩
  exact evictScan_spec hinv hj hlive _

end Solidc.Cache
