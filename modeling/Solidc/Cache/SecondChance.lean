import Solidc.Cache.Sections

/-! # Second chance

Which entry `clock_evict` removes, and what becomes of the clock bits.

* `Chosen` — the choice: the first live slot from the hand whose bit is clear, or the first
  live slot if no bit is;
* `BitsCleared` — the entries whose bits are cleared;
* `clockEvict_secondChance` — the two loops make this choice.
-/

namespace Solidc.Cache

open CLib

variable {heap cleared : Heap} {idx : Nat} {s : Shard} {i j k d passed : Nat} {p : Ptr}

/-- A slot that holds an entry. -/
def Shard.Live (s : Shard) (i : Nat) : Prop := liveTag (s.tags i) = true

/-- A live slot whose entry has its clock bit clear. -/
def Spent (heap : Heap) (s : Shard) (i : Nat) : Prop :=
  s.Live i ∧ ∃ e, deref heap (s.entries i) = some e ∧ e.clockBit = 0

/-- The slot that the hand meets after `k` slots. -/
def Shard.ahead (s : Shard) (k : Nat) : Nat := (s.clockHand + k) % s.bucketCount

/-- The shard when the hand has passed `k` slots. -/
def Shard.turn (s : Shard) (k : Nat) : Shard := { s with clockHand := s.ahead k }

/-- The victim is `d` slots ahead, and the bits in the first `passed` slots are cleared. -/
inductive Chosen (heap : Heap) (s : Shard) : Nat → Nat → Prop
  | spent {d : Nat} : d < s.bucketCount → Spent heap s (s.ahead d) →
    (∀ k < d, ¬ Spent heap s (s.ahead k)) → Chosen heap s d d
  | fullTurn {d : Nat} : d < s.bucketCount → (∀ k < s.bucketCount, ¬ Spent heap s (s.ahead k)) →
    s.Live (s.ahead d) → (∀ k < d, ¬ s.Live (s.ahead k)) → Chosen heap s d s.bucketCount

/-- The entries of the first `passed` slots have their bits cleared, and nothing else is
changed. -/
structure BitsCleared (heap : Heap) (s : Shard) (passed : Nat) (cleared : Heap) : Prop where
  here : ∀ k < passed, s.Live (s.ahead k) → ∀ p, s.entries (s.ahead k) = some p →
    cleared p = (heap p).map fun e => { e with clockBit := 0 }
  elsewhere : ∀ p, (∀ k < passed, s.Live (s.ahead k) → s.entries (s.ahead k) ≠ some p) →
    cleared p = heap p

/-- What `clock_evict` does: nothing if no slot is live, and else the chosen entry is removed
and the hand stands behind it. -/
def EvictsChosen (heap : Heap) (s : Shard) (r : Option (Heap × Shard × Bool)) : Prop :=
  ((∀ i < s.bucketCount, ¬ s.Live i) ∧ r = some (heap, s, false)) ∨
    ∃ d passed cleared heap' p, Chosen heap s d passed ∧ BitsCleared heap s passed cleared ∧
      s.Live (s.ahead d) ∧ s.entries (s.ahead d) = some p ∧
      entryRefDec cleared (some p) = some heap' ∧
      r = some (heap', (s.turn (d + 1)).tombstone (s.ahead d), true)

/-! ## The hand -/

theorem ahead_lt (hpos : 0 < s.bucketCount) : s.ahead k < s.bucketCount := Nat.mod_lt _ hpos

/-- Every slot is met in one turn. -/
theorem exists_ahead (hhand : s.clockHand < s.bucketCount) (hi : i < s.bucketCount) :
    ∃ k < s.bucketCount, s.ahead k = i :=
  ⟨cdist s.bucketCount s.clockHand i, cdist_lt hhand hi, add_cdist hhand hi⟩

theorem ahead_inj (hhand : s.clockHand < s.bucketCount) (hj : j < s.bucketCount)
    (hk : k < s.bucketCount) (h : s.ahead j = s.ahead k) : j = k := by
  rw [← cdist_add hhand hj, ← cdist_add hhand hk]
  exact congrArg _ h

theorem turn_zero (hhand : s.clockHand < s.bucketCount) : s.turn 0 = s := by
  rw [Shard.turn, Shard.ahead, Nat.add_zero, Nat.mod_eq_of_lt hhand]

theorem turn_full (hhand : s.clockHand < s.bucketCount) : s.turn s.bucketCount = s := by
  rw [Shard.turn, Shard.ahead, Nat.add_mod_right, Nat.mod_eq_of_lt hhand]

theorem advance_turn (hpow : IsPow2 s.bucketCount) : (s.turn k).advance = s.turn (k + 1) := by
  rw [Shard.advance, Shard.turn, Shard.turn, Shard.ahead, Shard.ahead, hpow.and_pred,
    Nat.mod_add_mod, Nat.add_assoc]

/-! ## The clock bits -/

theorem cleared_zero : BitsCleared heap s 0 heap := ⟨nofun, fun _ _ => rfl⟩

/-- Passing a slot without an entry clears nothing. -/
theorem BitsCleared.pass (h : BitsCleared heap s k cleared) (hdead : ¬ s.Live (s.ahead k)) :
    BitsCleared heap s (k + 1) cleared := by
  refine ⟨fun j hj hlive p hp => ?_, fun p hp => h.elsewhere p fun j hj => hp j (by omega)⟩
  rcases Nat.lt_succ_iff_lt_or_eq.mp hj with hj | rfl
  · exact h.here j hj hlive p hp
  · exact absurd hlive hdead

/-- Without a live slot nothing is cleared. -/
theorem BitsCleared.eq_of_dead (h : BitsCleared heap s passed cleared)
    (hdead : ∀ k < passed, ¬ s.Live (s.ahead k)) : cleared = heap :=
  funext fun p => h.elsewhere p fun k hk hlive => absurd hlive (hdead k hk)

/-- No slot passed before points to the entry of this one. -/
theorem entries_ne (hinv : ShardInv (contents heap) idx s) (hk : k < s.bucketCount)
    (hlive : s.Live (s.ahead k)) (hp : s.entries (s.ahead k) = some p) (hj : j < k)
    (hlive' : s.Live (s.ahead j)) : s.entries (s.ahead j) ≠ some p := by
  have hpos := hinv.pow2.pos
  obtain ⟨q, _, hl, -⟩ := hinv.of_liveTag (ahead_lt hpos) hlive
  obtain ⟨q', _, hl', -⟩ := hinv.of_liveTag (ahead_lt hpos) hlive'
  intro hj'
  rw [hl.entry] at hp
  rw [hl'.entry] at hj'
  cases hp
  cases hj'
  have heq := hinv.owns_unique (ahead_lt hpos) (ahead_lt hpos) hl' hl
  have := ahead_inj hinv.hand (by omega) hk heq
  omega

/-- Clearing the bit of the next slot. -/
theorem BitsCleared.clear (h : BitsCleared heap s k cleared) (hinv : ShardInv (contents heap) idx s)
    (hk : k < s.bucketCount) (hlive : s.Live (s.ahead k))
    (hp : s.entries (s.ahead k) = some p) {e : Entry} (he : heap p = some e) :
    BitsCleared heap s (k + 1)
      (Function.update cleared p (some { e with clockBit := 0 })) := by
  refine ⟨fun j hj hlive' q hq => ?_, fun q hq => ?_⟩
  · rcases Nat.lt_succ_iff_lt_or_eq.mp hj with hj | rfl
    · have hne : q ≠ p := fun heq => entries_ne hinv hk hlive hp hj hlive' (heq ▸ hq)
      rw [Function.update_of_ne hne]
      exact h.here j hj hlive' q hq
    · rw [hp] at hq
      cases hq
      rw [Function.update_self, he]
      rfl
  · have hne : q ≠ p := fun heq => hq k (Nat.lt_succ_self k) hlive (heq ▸ hp)
    rw [Function.update_of_ne hne]
    exact h.elsewhere q fun j hj => hq j (by omega)

/-! ## The loops -/

/-- The victim is removed by either loop in the same way. -/
theorem evicts_at (hinv : ShardInv (contents heap) idx s) (hchosen : Chosen heap s d passed)
    (hcl : BitsCleared heap s passed cleared) (hlive : s.Live (s.ahead d)) :
    EvictsChosen heap s ((entryRefDec cleared (s.entries (s.ahead d))).map fun heap' =>
      (heap', ((s.turn d).advance).tombstone (s.ahead d), true)) := by
  obtain ⟨p, data, hl, -⟩ := hinv.of_liveTag (ahead_lt hinv.pow2.pos) hlive
  obtain ⟨e, he, -⟩ := contents_eq_some.mp hl.data
  -- the entry is there, whether or not its bit was cleared
  have hthere : ∃ e', cleared p = some e' := by
    by_cases hmem : ∃ k < passed, s.Live (s.ahead k) ∧ s.entries (s.ahead k) = some p
    · obtain ⟨k, hk, hlive', hp⟩ := hmem
      exact ⟨_, by rw [hcl.here k hk hlive' p hp, he]; rfl⟩
    · exact ⟨e, by rw [hcl.elsewhere p fun k hk hl' hp => hmem ⟨k, hk, hl', hp⟩, he]⟩
  obtain ⟨e', he'⟩ := hthere
  obtain ⟨heap', hdec, -⟩ := entryRefDec_spec he'
  refine .inr ⟨d, passed, cleared, heap', p, hchosen, hcl, hlive, hl.entry, hdec, ?_⟩
  rw [hl.entry, hdec, Option.map_some, advance_turn hinv.pow2]

theorem control_iff : s.tags i &&& tagControlMask = 0 ↔ s.Live i := by
  unfold Shard.Live liveTag
  simp

/-- The second loop, after `k` slots without an entry. No bit of the shard was clear. -/
theorem evictAny_chosen (hinv : ShardInv (contents heap) idx s)
    (hbits : ∀ k < s.bucketCount, ¬ Spent heap s (s.ahead k))
    (hcl : BitsCleared heap s s.bucketCount cleared) {fuel : Nat} (hk : k + fuel = s.bucketCount)
    (hdead : ∀ j < k, ¬ s.Live (s.ahead j)) :
    EvictsChosen heap s (evictAny fuel cleared (s.turn k)) := by
  induction fuel generalizing k with
  | zero =>
    rw [Nat.add_zero] at hk
    subst hk
    rw [evictAny, turn_full hinv.hand, hcl.eq_of_dead hdead]
    refine .inl ⟨fun i hi hlive => ?_, rfl⟩
    obtain ⟨k, hk, rfl⟩ := exists_ahead hinv.hand hi
    exact hdead k hk hlive
  | succ fuel ih =>
    rw [evictAny]
    by_cases ht : (s.turn k).tags (s.turn k).clockHand &&& tagControlMask = 0
    · rw [if_pos ht]
      have hlive : s.Live (s.ahead k) := control_iff.mp ht
      exact evicts_at hinv (.fullTurn (by omega) hbits hlive hdead) hcl hlive
    · rw [if_neg ht, advance_turn hinv.pow2]
      refine ih (by omega) fun j hj => ?_
      rcases Nat.lt_succ_iff_lt_or_eq.mp hj with hj | rfl
      · exact hdead j hj
      · exact fun hlive => ht (control_iff.mpr hlive)

/-- The first loop, after `k` slots whose bits were not clear. -/
theorem evictScan_chosen (hinv : ShardInv (contents heap) idx s)
    (hcl : BitsCleared heap s k cleared) {fuel : Nat} (hk : k + fuel = s.bucketCount)
    (hbits : ∀ j < k, ¬ Spent heap s (s.ahead j)) :
    EvictsChosen heap s (evictScan fuel cleared (s.turn k)) := by
  induction fuel generalizing k cleared with
  | zero =>
    rw [Nat.add_zero] at hk
    subst hk
    -- once around: the hand is back where it was
    rw [evictScan, turn_full hinv.hand]
    have hany := evictAny_chosen hinv hbits hcl (Nat.zero_add _) nofun
    rwa [turn_zero hinv.hand] at hany
  | succ fuel ih =>
    have hlt : k < s.bucketCount := by omega
    have hstep : ¬ Spent heap s (s.ahead k) → ∀ j < k + 1, ¬ Spent heap s (s.ahead j) := by
      intro hnot j hj
      rcases Nat.lt_succ_iff_lt_or_eq.mp hj with hj | rfl
      · exact hbits j hj
      · exact hnot
    rw [evictScan]
    by_cases ht : (s.turn k).tags (s.turn k).clockHand &&& tagControlMask ≠ 0
    · have hdead : ¬ s.Live (s.ahead k) := fun hlive => ht (control_iff.mpr hlive)
      rw [if_pos ht, advance_turn hinv.pow2]
      exact ih (hcl.pass hdead) (by omega) (hstep fun hspent => hdead hspent.1)
    · have hlive : s.Live (s.ahead k) := control_iff.mp (not_not.mp ht)
      obtain ⟨p, data, hl, -⟩ := hinv.of_liveTag (ahead_lt hinv.pow2.pos) hlive
      obtain ⟨e, he, -⟩ := contents_eq_some.mp hl.data
      -- no slot passed before has cleared the bit of this entry
      have hsame : cleared p = some e := by
        rw [hcl.elsewhere p fun j hj hlive' => entries_ne hinv hlt hlive hl.entry hj hlive', he]
      have hentry : (s.turn k).entries (s.turn k).clockHand = some p := hl.entry
      rw [if_neg ht, hentry]
      simp only [deref, Option.bind_some, hsame]
      by_cases hbit : e.clockBit = 0
      · have hspent : Spent heap s (s.ahead k) := ⟨hlive, e, by rw [hl.entry]; exact he, hbit⟩
        rw [if_pos hbit]
        have hat := evicts_at hinv (.spent hlt hspent hbits) hcl hlive
        rw [hl.entry] at hat
        exact hat
      · rw [if_neg hbit, setClockBit, hsame, advance_turn hinv.pow2]
        refine ih (hcl.clear hinv hlt hlive hl.entry he) (by omega) (hstep ?_)
        rintro ⟨-, e', he', hbit'⟩
        rw [hl.entry] at he'
        have heq : heap p = some e' := he'
        rw [he] at heq
        cases heq
        exact hbit hbit'

/-- `clock_evict` on a shard with its invariant is second chance. -/
theorem clockEvict_secondChance (hinv : ShardInv (contents heap) idx s) :
    EvictsChosen heap s (clockEvict heap s) := by
  have hscan := evictScan_chosen hinv cleared_zero (Nat.zero_add _) nofun
  rwa [turn_zero hinv.hand] at hscan

/-- A shard with the one key "a", whose bit is set. -/
theorem clockEvict_secondChance_one :
    ∃ (heap : Heap) (idx : Nat) (s : Shard), ShardInv (contents heap) idx s ∧ s.size = 1 ∧
      EvictsChosen heap s (clockEvict heap s) := by
  let d : EntryData := ⟨hashKey [97], 1, 0, [97], []⟩
  let heap : Heap := fun p => if p = 0 then some ⟨1, 1, d⟩ else none
  let s : Shard := ⟨fun _ => 0, fun _ => none, 2, 0, 1, 0, 0⟩
  obtain ⟨hblank, hnone⟩ := ShardInv.blank (contents heap) (shardOf [97]) (s := s) ⟨1, rfl⟩
    (Nat.le_refl 2) (Nat.le_refl 1)
  have hgood : d.Good := ⟨by simp only [d], by simp [d], by simp [d]⟩
  have hdead : ∀ k, s.blank.view (contents heap) (home 2 [97]) ≠ .live k := by
    intro k hk
    simp [Shard.view, Shard.blank] at hk
  have habsent : ¬ Present (contents heap) s.blank d.key := by
    intro hpres
    obtain ⟨p, _, hown, -⟩ := (hblank.present_iff _).mp hpres
    exact hnone p hown
  have hpath : ∀ f < cdist 2 (home 2 [97]) (home 2 [97]),
      s.blank.view (contents heap) ((home 2 [97] + f) % 2) ≠ .empty := by
    intro f hf
    rw [cdist_self] at hf
    exact absurd hf (Nat.not_lt_zero f)
  have hslot : home 2 [97] < 2 := Nat.mod_lt _ Nat.two_pos
  have hentry : contents heap 0 = some d := by simp [contents, heap]
  have hinv := (hblank.insert hslot hdead Nat.one_pos hentry hgood (by simp only [d, shardOf])
    habsent hpath).1
  exact ⟨heap, _, _, hinv, rfl, clockEvict_secondChance hinv⟩

end Solidc.Cache
