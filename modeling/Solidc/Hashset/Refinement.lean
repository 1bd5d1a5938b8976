import Solidc.Hashset.Table

/-! # The hash set refines a finite set

`view` reads a slot of the table as the probing library sees it. The invariant
`Inv` says that the table is chained, that a metadata byte is either `_HS_EMPTY`
or the fingerprint of the slot's key (so `_HS_DELETED` never appears), that `size`
counts the occupied slots and that at most three quarters of them are occupied.

* `contains_iff` — a lookup answers whether the table holds the key;
* `add_spec`, `remove_spec`, `clear_spec` — what each call does to the invariant
  and to the keys held;
* `refines_finite_set` — over whole runs, against `model`, the finite set of the
  keys added and not removed or cleared since.
-/

namespace Solidc.Hashset

open CLib Slot

variable {K : Type*} (F : HashedKey K) (junk : Nat → K)

/-! ## The view and the invariant -/

theorem fingerprint_ge_two (h : Nat) : 2 ≤ fingerprint h := by
  have hbit : (fingerprint h).testBit 1 = true := by
    have e : fingerprint h = ((h >>> 7) ||| 2) % 2 ^ 8 := rfl
    rw [e, Nat.testBit_mod_two_pow, Nat.testBit_or]
    have h1 : Nat.testBit 2 1 = true := by decide
    simp [h1]
  exact Nat.ge_two_pow_of_testBit hbit

/-- A slot as a search sees it. -/
def HashSet.view (s : HashSet K) (i : Nat) : Slot K :=
  if s.slotMeta i = hsEmpty then .empty
  else if s.slotMeta i = hsDeleted then .dead
  else .live (s.keys i)

/-- The representation invariant. -/
structure Inv (s : HashSet K) : Prop where
  pow2 : IsPow2 s.capacity
  large : 16 ≤ s.capacity
  tag : ∀ i < s.capacity,
    s.slotMeta i = hsEmpty ∨ s.slotMeta i = fingerprint (F.hash (s.keys i))
  chained : Chained s.capacity (F.home s.capacity) F.Rel s.view
  size : s.size = slotCount s.capacity s.slotMeta (· ≠ hsEmpty)
  load : 4 * s.size ≤ 3 * s.capacity

variable {F junk} {s : HashSet K}

/-- Under the invariant a slot is empty or live. -/
theorem view_cases (htag : ∀ i < s.capacity,
    s.slotMeta i = hsEmpty ∨ s.slotMeta i = fingerprint (F.hash (s.keys i)))
    {i : Nat} (hi : i < s.capacity) :
    (s.slotMeta i = hsEmpty ∧ s.view i = .empty) ∨
      (s.slotMeta i = fingerprint (F.hash (s.keys i)) ∧ s.view i = .live (s.keys i)) := by
  rcases htag i hi with h | h
  · left
    exact ⟨h, by simp [HashSet.view, h]⟩
  · right
    have h2 := fingerprint_ge_two (F.hash (s.keys i))
    have hne : s.slotMeta i ≠ hsEmpty := by rw [h]; unfold hsEmpty; omega
    have hnd : s.slotMeta i ≠ hsDeleted := by rw [h]; unfold hsDeleted; omega
    exact ⟨h, by simp [HashSet.view, hne, hnd]⟩

theorem view_empty_iff (i : Nat) : s.view i = .empty ↔ s.slotMeta i = hsEmpty := by
  unfold HashSet.view
  split_ifs <;> simp_all

/-- Writing a slot writes the view. -/
theorem view_put (idx : Nat) (k : K) :
    (s.put idx (fingerprint (F.hash k)) k).view = Function.update s.view idx (.live k) := by
  have h2 := fingerprint_ge_two (F.hash k)
  funext i
  by_cases hi : i = idx
  · subst hi
    have hne : fingerprint (F.hash k) ≠ hsEmpty := by unfold hsEmpty; omega
    have hnd : fingerprint (F.hash k) ≠ hsDeleted := by unfold hsDeleted; omega
    simp [HashSet.view, HashSet.put, hne, hnd]
  · simp [HashSet.view, HashSet.put, hi]

/-- The live slots are the non-empty ones. -/
theorem slotCount_live (htag : ∀ i < s.capacity,
    s.slotMeta i = hsEmpty ∨ s.slotMeta i = fingerprint (F.hash (s.keys i))) :
    slotCount s.capacity s.view Slot.isLive =
      slotCount s.capacity s.slotMeta (· ≠ hsEmpty) := by
  unfold slotCount
  apply Finset.sum_congr rfl
  intro i hi
  rcases view_cases htag (Finset.mem_range.mp hi) with ⟨hm, hv⟩ | ⟨hm, hv⟩
  · simp [hm, hv, Slot.isLive]
  · have h2 := fingerprint_ge_two (F.hash (s.keys i))
    have hne : s.slotMeta i ≠ hsEmpty := by rw [hm]; unfold hsEmpty; omega
    simp [hne, hv, Slot.isLive]

/-- Some slot is empty as long as the count is below the capacity. -/
theorem exists_empty (hcount : slotCount s.capacity s.slotMeta (· ≠ hsEmpty) < s.capacity) :
    ∃ e < s.capacity, s.slotMeta e = hsEmpty := by
  rcases exists_of_slotCount_lt hcount with ⟨e, he, hm⟩
  exact ⟨e, he, by simpa using hm⟩

/-! ## The probing loops are searches -/

/-- The test at which `hashset_contains`, `hashset_add` and `hashset_remove` stop. -/
def stopAt (F : HashedKey K) (s : HashSet K) (key : K) (i : Nat) : Bool :=
  s.slotMeta i = hsEmpty ∨
    (s.slotMeta i = fingerprint (F.hash key) ∧ F.equals (s.keys i) key = true)

/-- The fingerprint filter loses nothing: equal keys have equal fingerprints. -/
theorem stopAt_iff (hinv : Inv F s) (key : K) {i : Nat} (hi : i < s.capacity) :
    stopAt F s key i = true ↔ Stops F.Rel key (s.view i) := by
  unfold stopAt
  rcases view_cases hinv.tag hi with ⟨hm, hv⟩ | ⟨hm, hv⟩
  · simp [hm, hv, Stops]
  · have h2 := fingerprint_ge_two (F.hash (s.keys i))
    have hne : s.slotMeta i ≠ hsEmpty := by rw [hm]; unfold hsEmpty; omega
    rw [hv]
    simp only [hne, false_or, decide_eq_true_eq, Stops]
    constructor
    · intro h
      exact h.2
    · intro h
      exact ⟨by rw [hm, F.compat _ _ h], h⟩

theorem hsSlot_one (hinv : Inv F s) (idx : Nat) :
    hsSlot idx 1 (s.capacity - 1) = (idx + 1) % s.capacity :=
  hinv.pow2.and_pred (idx + 1)

theorem home_mask (hinv : Inv F s) (key : K) :
    F.hash key &&& (s.capacity - 1) = F.home s.capacity key :=
  hinv.pow2.and_pred (F.hash key)

theorem locateLoop_eq_scan (hinv : Inv F s) (key : K) (fuel idx : Nat) (hidx : idx < s.capacity) :
    locateLoop F s (fingerprint (F.hash key)) key fuel idx =
      (scan s.capacity (stopAt F s key) fuel idx).filter (fun i => s.slotMeta i ≠ hsEmpty) := by
  induction fuel generalizing idx with
  | zero => rfl
  | succ fuel ih =>
    unfold locateLoop scan
    rw [hsSlot_one hinv]
    have hnext : (idx + 1) % s.capacity < s.capacity := Nat.mod_lt _ (by omega)
    have h2 := fingerprint_ge_two (F.hash key)
    by_cases hm : s.slotMeta idx = hsEmpty
    · simp [hm, stopAt, Option.filter]
    · by_cases hf : s.slotMeta idx = fingerprint (F.hash key) ∧ F.equals (s.keys idx) key = true
      · have hnd : s.slotMeta idx ≠ hsDeleted := by rw [hf.1]; unfold hsDeleted; omega
        have hstop : stopAt F s key idx = true := by simp [stopAt, hf]
        rw [if_neg hm, if_pos ⟨hnd, hf.1, hf.2⟩, if_pos hstop]
        simp [hm, Option.filter]
      · have hstop : ¬ stopAt F s key idx = true := by simp [stopAt, hm]; simpa using hf
        rw [if_neg hm, if_neg (fun h => hf h.2), if_neg hstop]
        exact ih _ hnext

theorem containsLoop_eq_locate (key : K) (fuel idx : Nat) :
    containsLoop F s (fingerprint (F.hash key)) key fuel idx =
      (locateLoop F s (fingerprint (F.hash key)) key fuel idx).isSome := by
  induction fuel generalizing idx with
  | zero => rfl
  | succ fuel ih =>
    unfold containsLoop locateLoop
    split_ifs
    · rfl
    · rfl
    · exact ih _

/-- Locating a key in the table. -/
theorem locate_spec (hinv : Inv F s) (key : K) :
    (∃ pos, locateLoop F s (fingerprint (F.hash key)) key s.capacity
        (F.hash key &&& (s.capacity - 1)) = some pos ∧ pos < s.capacity ∧
        s.view pos = .live (s.keys pos) ∧ F.Rel (s.keys pos) key) ∨
    (locateLoop F s (fingerprint (F.hash key)) key s.capacity
        (F.hash key &&& (s.capacity - 1)) = none ∧ ¬ Holds s.capacity F.Rel s.view key) := by
  have hpos := hinv.pow2.pos
  have hh := F.home_lt hpos key
  rw [home_mask hinv, locateLoop_eq_scan hinv key _ _ hh]
  rcases hinv.chained.search F.rel_equiv (F.home_congr _) (F.home_lt hpos) key
      (fun i hi => stopAt_iff hinv key hi) with
    ⟨i, hscan, hi, a, ha, hrel⟩ | ⟨i, hscan, hi, he, hno, -⟩ | ⟨hscan, hno, -⟩
  · left
    rcases view_cases hinv.tag hi with ⟨-, hv⟩ | ⟨hm, hv⟩
    · rw [hv] at ha
      cases ha
    · rw [hv] at ha
      cases ha
      have h2 := fingerprint_ge_two (F.hash (s.keys i))
      have hne : s.slotMeta i ≠ hsEmpty := by rw [hm]; unfold hsEmpty; omega
      exact ⟨i, by simp [hscan, hne, Option.filter], hi, hv, hrel⟩
  · right
    have hm := (view_empty_iff i).mp he
    exact ⟨by simp [hscan, hm, Option.filter], hno⟩
  · right
    exact ⟨by simp [hscan], hno⟩

/-- A lookup answers whether the table holds the key. -/
theorem contains_iff (hinv : Inv F s) (key : K) :
    hashsetContains F s key = true ↔ Holds s.capacity F.Rel s.view key := by
  unfold hashsetContains
  rw [containsLoop_eq_locate]
  rcases locate_spec hinv key with ⟨pos, hloc, hpos, hv, hrel⟩ | ⟨hloc, hno⟩
  · rw [hloc]
    simp only [Option.isSome_some, true_iff]
    exact ⟨pos, hpos, _, hv, hrel⟩
  · rw [hloc]
    simp [hno]

/-! ## Insertion -/

/-- Storing a key that the table does not hold in an empty slot its search
reaches. -/
theorem put_chained {t : HashSet K} {idx : Nat} {k : K} (hidx : idx < t.capacity)
    (hch : Chained t.capacity (F.home t.capacity) F.Rel t.view)
    (htag : ∀ i < t.capacity,
      t.slotMeta i = hsEmpty ∨ t.slotMeta i = fingerprint (F.hash (t.keys i)))
    (hempty : t.slotMeta idx = hsEmpty) (hno : ¬ Holds t.capacity F.Rel t.view k)
    (hpath : ∀ d < cdist t.capacity (F.home t.capacity k) idx,
      t.view ((F.home t.capacity k + d) % t.capacity) ≠ .empty) :
    let u := t.put idx (fingerprint (F.hash k)) k
    Chained u.capacity (F.home u.capacity) F.Rel u.view ∧
    (∀ i < u.capacity, u.slotMeta i = hsEmpty ∨ u.slotMeta i = fingerprint (F.hash (u.keys i))) ∧
    slotCount u.capacity u.slotMeta (· ≠ hsEmpty) =
      slotCount t.capacity t.slotMeta (· ≠ hsEmpty) + 1 ∧
    ∀ x, Holds u.capacity F.Rel u.view x ↔ Holds t.capacity F.Rel t.view x ∨ F.Rel k x := by
  intro u
  have hcap : u.capacity = t.capacity := rfl
  have hview : u.view = Function.update t.view idx (.live k) := view_put idx k
  have h2 := fingerprint_ge_two (F.hash k)
  have hdead : ∀ a, t.view idx ≠ .live a := by
    intro a ha
    rw [(view_empty_iff idx).mpr hempty] at ha
    cases ha
  rw [hcap, hview]
  refine ⟨?_, ?_, ?_, fun x => holds_fill hidx hdead k x⟩
  · apply hch.fill F.rel_equiv
    · intro j hj _ a ha hrel
      exact hno ⟨j, hj, a, ha, hrel⟩
    · exact hpath
  · intro i hi
    by_cases hii : i = idx
    · right
      subst hii
      simp [u, HashSet.put]
    · simpa [u, HashSet.put, hii] using htag i hi
  · have hc := slotCount_update (f := t.slotMeta) (q := fun m => decide (m ≠ hsEmpty)) hidx
      (fingerprint (F.hash k))
    have hne : fingerprint (F.hash k) ≠ hsEmpty := by unfold hsEmpty; omega
    simpa [u, HashSet.put, hempty, hne] using hc

theorem probeEmpty_eq_scan {slotMeta : Nat → Nat} {m : Nat} (hm : IsPow2 m) (fuel idx : Nat) :
    probeEmpty slotMeta (m - 1) fuel idx =
      scan m (fun i => slotMeta i = hsEmpty) fuel idx := by
  induction fuel generalizing idx with
  | zero => rfl
  | succ fuel ih =>
    unfold probeEmpty scan
    rw [hm.and_pred]
    by_cases h : slotMeta idx = hsEmpty
    · simp [h]
    · simp [h, ih]

/-- The table under construction in `_hs_rehash` after `i` old slots: it is
chained and holds exactly the keys of those slots. -/
structure Rehashed (F : HashedKey K) (s : HashSet K) (i : Nat) (t : HashSet K) : Prop where
  capacity : t.capacity = s.capacity * 2
  size : t.size = s.size
  tag : ∀ j < t.capacity,
    t.slotMeta j = hsEmpty ∨ t.slotMeta j = fingerprint (F.hash (t.keys j))
  chained : Chained t.capacity (F.home t.capacity) F.Rel t.view
  count : slotCount t.capacity t.slotMeta (· ≠ hsEmpty) = slotCount i s.slotMeta (· ≠ hsEmpty)
  holds : ∀ k, Holds t.capacity F.Rel t.view k ↔ Holds i F.Rel s.view k

variable (junk) in
theorem rehashed_zero : Rehashed F s 0
    { slotMeta := fun _ => hsEmpty, keys := junk, capacity := s.capacity * 2, size := s.size } := by
  refine ⟨rfl, rfl, fun j _ => .inl rfl, ?_, ?_, ?_⟩
  · exact chained_of_no_live (fun j _ k => by simp [HashSet.view])
  · rw [slotCount_zero]
    exact slotCount_eq_zero (fun j _ => by simp)
  · intro k
    constructor
    · rintro ⟨j, -, a, ha, -⟩
      simp [HashSet.view] at ha
    · rintro ⟨j, hj, -⟩
      omega

/-- Slot `i` is empty: there is nothing to move. -/
theorem Rehashed.pass {i : Nat} {t : HashSet K} (hr : Rehashed F s i t)
    (hm : s.slotMeta i = hsEmpty) (hv : s.view i = .empty) : Rehashed F s (i + 1) t := by
  refine ⟨hr.capacity, hr.size, hr.tag, hr.chained, ?_, fun k => ?_⟩
  · rw [hr.count, slotCount_succ]
    simp [hm]
  · rw [hr.holds, holds_succ]
    refine (or_iff_left ?_).symm
    rintro ⟨a, ha, -⟩
    rw [hv] at ha
    cases ha

/-- Slot `i` is live: its key goes to the first empty slot from its new home. -/
theorem Rehashed.move (hinv : Inv F s) {i : Nat} {t : HashSet K} (hr : Rehashed F s i t)
    (hi : i < s.capacity) (hm : s.slotMeta i = fingerprint (F.hash (s.keys i)))
    (hv : s.view i = .live (s.keys i)) :
    ∃ idx, scan (s.capacity * 2) (fun j => decide (t.slotMeta j = hsEmpty)) (s.capacity * 2)
        (F.hash (s.keys i) % (s.capacity * 2)) = some idx ∧
      Rehashed F s (i + 1) (t.put idx (fingerprint (F.hash (s.keys i))) (s.keys i)) := by
  have hlarge := hinv.large
  -- no more slots are taken than have been passed
  have hcount : slotCount t.capacity t.slotMeta (· ≠ hsEmpty) < t.capacity := by
    rw [hr.count, hr.capacity]
    have := slotCount_le (n := i) (f := s.slotMeta) (q := fun m => decide (m ≠ hsEmpty))
    omega
  rcases exists_empty hcount with ⟨e, he, hme⟩
  have hhome : F.hash (s.keys i) % (s.capacity * 2) < s.capacity * 2 := Nat.mod_lt _ (by omega)
  rw [hr.capacity] at he
  rcases scan_isSome (fun j => decide (t.slotMeta j = hsEmpty)) hhome he
    (by simpa using hme) with ⟨idx, hscan⟩
  rcases scan_some_cdist hhome hscan with ⟨hidx, hstop, hpath⟩
  have hno : ¬ Holds t.capacity F.Rel t.view (s.keys i) := by
    rw [hr.holds]
    rintro ⟨j, hj, a, ha, hak⟩
    have := hinv.chained.uniq j (by omega) i hi a (s.keys i) ha hv hak
    omega
  have hslot : idx < t.capacity := by
    rw [hr.capacity]
    exact hidx
  have hwalked : ∀ d < cdist t.capacity (F.home t.capacity (s.keys i)) idx,
      t.view ((F.home t.capacity (s.keys i) + d) % t.capacity) ≠ .empty := by
    rw [hr.capacity]
    intro d hd hemp
    have hfalse := hpath d hd
    rw [view_empty_iff] at hemp
    simp only [HashedKey.home] at hemp
    rw [decide_eq_false_iff_not] at hfalse
    exact hfalse hemp
  rcases put_chained hslot hr.chained hr.tag (by simpa using hstop) hno hwalked with
    ⟨hch, htag, hcnt, hholds⟩
  refine ⟨idx, hscan, hr.capacity, hr.size, htag, hch, ?_, fun k => ?_⟩
  · rw [hcnt, hr.count, slotCount_succ]
    have h2 := fingerprint_ge_two (F.hash (s.keys i))
    have hne : s.slotMeta i ≠ hsEmpty := by rw [hm]; unfold hsEmpty; omega
    simp [hne]
  · rw [hholds, hr.holds, holds_succ, hv]
    simp

variable (junk) in
/-- The rehash loop, by induction on the old slots it has passed. -/
theorem rehashLoop_spec (hinv : Inv F s) (i : Nat) (hi : i ≤ s.capacity) :
    ∃ t, rehashLoop F junk s (s.capacity * 2) i = some t ∧ Rehashed F s i t := by
  induction i with
  | zero => exact ⟨_, rfl, rehashed_zero junk⟩
  | succ i ih =>
    rcases ih (by omega) with ⟨t, ht, hr⟩
    have hilt : i < s.capacity := by omega
    have hpow : IsPow2 (s.capacity * 2) := hinv.pow2.double
    rw [rehashLoop, ht, Option.bind_some]
    rcases view_cases hinv.tag hilt with ⟨hm, hv⟩ | ⟨hm, hv⟩
    · rw [if_pos (by rw [hm]; decide)]
      exact ⟨t, rfl, hr.pass hm hv⟩
    · have h2 := fingerprint_ge_two (F.hash (s.keys i))
      rw [if_neg (by omega), probeEmpty_eq_scan hpow, hpow.and_pred]
      rcases hr.move hinv hilt hm hv with ⟨idx, hscan, hr'⟩
      rw [hscan, Option.map_some]
      exact ⟨_, rfl, hr'⟩

variable (junk) in
/-- Growing keeps the invariant and the keys, and makes room. -/
theorem rehash_spec (hinv : Inv F s) :
    ∃ t, hsRehash F junk s (s.capacity * 2) = some t ∧ Inv F t ∧ ¬ overloaded t ∧
      ∀ k, Holds t.capacity F.Rel t.view k ↔ Holds s.capacity F.Rel s.view k := by
  rcases rehashLoop_spec junk hinv s.capacity (Nat.le_refl _) with ⟨t, ht, hr⟩
  have hload := hinv.load
  have hlarge := hinv.large
  have hcap := hr.capacity
  have hsize := hr.size
  refine ⟨t, ht, ⟨?_, by omega, hr.tag, hr.chained, ?_, by omega⟩, ?_, hr.holds⟩
  · rw [hcap]
    exact hinv.pow2.double
  · rw [hsize, hr.count, hinv.size]
  · unfold overloaded
    omega

theorem addLoop_eq_scan (hinv : Inv F s) (key : K) (fuel idx : Nat) (hidx : idx < s.capacity) :
    addLoop F s (fingerprint (F.hash key)) key fuel idx none =
      match scan s.capacity (stopAt F s key) fuel idx with
      | none => (s, false)
      | some i =>
        if s.slotMeta i = hsEmpty then
          ({ s.put i (fingerprint (F.hash key)) key with size := s.size + 1 }, true)
        else (s, true) := by
  induction fuel generalizing idx with
  | zero => rfl
  | succ fuel ih =>
    unfold addLoop scan
    rw [hsSlot_one hinv]
    have hnext : (idx + 1) % s.capacity < s.capacity := Nat.mod_lt _ (by omega)
    by_cases hm : s.slotMeta idx = hsEmpty
    · simp [hm, stopAt]
    · have hnd : s.slotMeta idx ≠ hsDeleted := by
        rcases view_cases hinv.tag hidx with ⟨h, -⟩ | ⟨h, -⟩
        · exact absurd h hm
        · have h2 := fingerprint_ge_two (F.hash (s.keys idx))
          rw [h]
          unfold hsDeleted
          omega
      by_cases hf : s.slotMeta idx = fingerprint (F.hash key) ∧ F.equals (s.keys idx) key = true
      · have hstop : stopAt F s key idx = true := by simp [stopAt, hf]
        rw [if_neg hm, if_neg hnd, if_pos hf, if_pos hstop]
        simp [hm]
      · have hstop : ¬ stopAt F s key idx = true := by simp [stopAt, hm]; simpa using hf
        rw [if_neg hm, if_neg hnd, if_neg hf, if_neg hstop]
        exact ih _ hnext

/-- The loop of `hashset_add` on a table with room. -/
theorem addLoop_spec (hinv : Inv F s) (hroom : ¬ overloaded s) (key : K) :
    ∃ t, addLoop F s (fingerprint (F.hash key)) key s.capacity
        (F.hash key &&& (s.capacity - 1)) none = (t, true) ∧ Inv F t ∧
      ∀ k, Holds t.capacity F.Rel t.view k ↔
        Holds s.capacity F.Rel s.view k ∨ F.Rel key k := by
  have hpos := hinv.pow2.pos
  have hh := F.home_lt hpos key
  have hlarge := hinv.large
  have hload := hinv.load
  unfold overloaded at hroom
  rw [home_mask hinv, addLoop_eq_scan hinv key _ _ hh]
  rcases hinv.chained.search F.rel_equiv (F.home_congr _) (F.home_lt hpos) key
      (fun i hi => stopAt_iff hinv key hi) with
    ⟨i, hscan, hi, a, ha, hrel⟩ | ⟨i, hscan, hi, he, hno, hpath⟩ | ⟨-, -, hfull⟩
  · -- already present
    have hne : s.slotMeta i ≠ hsEmpty := by
      intro h
      rw [(view_empty_iff i).mpr h] at ha
      cases ha
    refine ⟨s, by simp [hscan, hne], hinv, ?_⟩
    intro k
    constructor
    · exact .inl
    · intro h
      rcases h with h | h
      · exact h
      · exact ⟨i, hi, a, ha, F.rel_equiv.trans hrel h⟩
  · -- a new key, in the empty slot that ended its search
    have hm := (view_empty_iff i).mp he
    rcases put_chained (k := key) hi hinv.chained hinv.tag hm hno hpath with
      ⟨hch, htag, hcnt, hholds⟩
    refine ⟨{ s.put i (fingerprint (F.hash key)) key with size := s.size + 1 },
      by simp [hscan, hm], ⟨hinv.pow2, hlarge, htag, hch, ?_, ?_⟩, hholds⟩
    · show s.size + 1 = _
      rw [hinv.size]
      exact hcnt.symm
    · show 4 * (s.size + 1) ≤ 3 * s.capacity
      omega
  · -- no slot is empty: the load bound excludes it
    exfalso
    have hsz := hinv.size
    rcases exists_empty (s := s) (by omega) with ⟨e, he, hme⟩
    exact hfull e he ((view_empty_iff e).mpr hme)

variable (junk) in
/-- `hashset_add` returns true, keeps the invariant and adds its key. -/
theorem add_spec (hinv : Inv F s) (key : K) :
    ∃ t, hashsetAdd F junk s key = some (t, true) ∧ Inv F t ∧
      ∀ k, Holds t.capacity F.Rel t.view k ↔
        Holds s.capacity F.Rel s.view k ∨ F.Rel key k := by
  unfold hashsetAdd
  by_cases hover : overloaded s
  · rcases rehash_spec junk hinv with ⟨u, hu, hinvu, hroom, hholds⟩
    rcases addLoop_spec hinvu hroom key with ⟨t, ht, hinvt, hadd⟩
    refine ⟨t, by rw [if_pos hover, hu, Option.map_some, ht], hinvt, ?_⟩
    intro k
    rw [hadd, hholds]
  · rcases addLoop_spec hinv hover key with ⟨t, ht, hinvt, hadd⟩
    exact ⟨t, by rw [if_neg hover, Option.map_some, ht], hinvt, hadd⟩

/-! ## Removal -/

/-- The backward shift in progress: with the hole read as vacated the table is
chained, `e` is an empty slot ahead of the cursor, and no key between the hole and
the cursor has its search pass the hole. -/
structure Shifting (F : HashedKey K) (t : HashSet K) (e hole cur : Nat) : Prop where
  hole_lt : hole < t.capacity
  cur_lt : cur < t.capacity
  e_lt : e < t.capacity
  hole_ne : t.slotMeta hole ≠ hsEmpty
  tag : ∀ i < t.capacity,
    t.slotMeta i = hsEmpty ∨ t.slotMeta i = fingerprint (F.hash (t.keys i))
  chained : Chained t.capacity (F.home t.capacity) F.Rel (Function.update t.view hole .dead)
  e_empty : t.slotMeta e = hsEmpty
  between : cdist t.capacity hole cur + cdist t.capacity cur e = cdist t.capacity hole e
  clear : ∀ j < t.capacity, cdist t.capacity hole j < cdist t.capacity hole cur →
    ∀ k, Function.update t.view hole .dead j = .live k →
      ¬ cdist t.capacity (F.home t.capacity k) hole < cdist t.capacity (F.home t.capacity k) j

/-- What the shift leaves: the table with the last hole emptied is chained, and
holds the keys it held with the first hole vacated. -/
structure Shifted (F : HashedKey K) (s : HashSet K) (hole : Nat) (t : HashSet K) (h' : Nat) :
    Prop where
  capacity : t.capacity = s.capacity
  size : t.size = s.size
  hole_lt : h' < t.capacity
  hole_ne : t.slotMeta h' ≠ hsEmpty
  tag : ∀ i < t.capacity,
    t.slotMeta i = hsEmpty ∨ t.slotMeta i = fingerprint (F.hash (t.keys i))
  chained : Chained t.capacity (F.home t.capacity) F.Rel (Function.update t.view h' .empty)
  count : slotCount t.capacity t.slotMeta (· ≠ hsEmpty) =
    slotCount s.capacity s.slotMeta (· ≠ hsEmpty)
  holds : ∀ k, Holds t.capacity F.Rel (Function.update t.view h' .empty) k ↔
    Holds s.capacity F.Rel (Function.update s.view hole .dead) k

theorem not_live_dead (v : Nat → Slot K) (i : Nat) (a : K) :
    Function.update v i .dead i ≠ .live a := by
  rw [Function.update_self]
  exact nofun

/-- Emptying the hole where the cluster ends. -/
theorem Shifting.finish {e hole cur : Nat} (hpos : 0 < s.capacity)
    (h : Shifting F s e hole cur) (hend : s.slotMeta cur = hsEmpty) :
    Shifted F s hole s hole := by
  have hne : cur ≠ hole := by
    intro heq
    rw [heq] at hend
    exact h.hole_ne hend
  have hcur : Function.update s.view hole .dead cur = .empty := by
    rw [Function.update_of_ne hne]
    exact (view_empty_iff cur).mpr hend
  have hc := h.chained.clearHole h.hole_lt h.cur_lt (F.home_lt hpos) hcur h.clear
  rw [Function.update_idem] at hc
  refine ⟨rfl, rfl, h.hole_lt, h.hole_ne, h.tag, hc, rfl, ?_⟩
  intro k
  have hh := holds_clearHole (r := F.Rel) h.hole_lt (not_live_dead s.view hole) k
  rw [Function.update_idem] at hh
  exact hh

/-- The cursor passes a key whose search does not pass the hole. -/
theorem Shifting.skip {e hole cur : Nat} (h : Shifting F s e hole cur)
    (hcur : s.slotMeta cur ≠ hsEmpty)
    (hkeep : ¬ cdist s.capacity (F.home s.capacity (s.keys cur)) hole <
      cdist s.capacity (F.home s.capacity (s.keys cur)) cur) :
    Shifting F s e hole ((cur + 1) % s.capacity) := by
  have hne : cur ≠ e := fun heq => hcur (heq ▸ h.e_empty)
  have hstep := succ_cdist h.cur_lt h.e_lt hne
  have hbet := h.between
  have hlt := cdist_lt h.hole_lt h.e_lt
  have hpos : 0 < s.capacity := by have := h.cur_lt; omega
  have hsucc := cdist_succ h.hole_lt h.cur_lt (by omega)
  refine ⟨h.hole_lt, Nat.mod_lt _ hpos, h.e_lt, h.hole_ne, h.tag, h.chained, h.e_empty,
    by omega, ?_⟩
  intro j hj hjd k hk
  rcases Nat.lt_or_ge (cdist s.capacity hole j) (cdist s.capacity hole cur) with hin | hge
  · exact h.clear j hj hin k hk
  · have hjc : j = cur := cdist_inj h.hole_lt hj h.cur_lt (by omega)
    subst hjc
    by_cases hjh : j = hole
    · rw [hjh] at hk
      exact absurd hk (not_live_dead s.view hole k)
    · rw [Function.update_of_ne hjh] at hk
      rcases view_cases h.tag hj with ⟨hm, -⟩ | ⟨-, hv⟩
      · exact absurd hm hcur
      · rw [hv] at hk
        cases hk
        exact hkeep

/-- The key at the cursor moves into the hole; the cursor becomes the hole. -/
theorem Shifting.move {e hole cur : Nat} (h : Shifting F s e hole cur)
    (hcur : s.slotMeta cur ≠ hsEmpty)
    (hback : cdist s.capacity (F.home s.capacity (s.keys cur)) hole <
      cdist s.capacity (F.home s.capacity (s.keys cur)) cur) :
    let t := s.put hole (s.slotMeta cur) (s.keys cur)
    Shifting F t e cur ((cur + 1) % s.capacity) ∧
    slotCount t.capacity t.slotMeta (· ≠ hsEmpty) =
      slotCount s.capacity s.slotMeta (· ≠ hsEmpty) ∧
    ∀ k, Holds t.capacity F.Rel (Function.update t.view cur .dead) k ↔
      Holds s.capacity F.Rel (Function.update s.view hole .dead) k := by
  intro t
  have hne : cur ≠ e := fun heq => hcur (heq ▸ h.e_empty)
  have hch : cur ≠ hole := by
    intro heq
    rw [heq] at hback
    omega
  have hhe : hole ≠ e := fun heq => h.hole_ne (heq ▸ h.e_empty)
  have hpos : 0 < s.capacity := by have := h.cur_lt; omega
  rcases view_cases h.tag h.cur_lt with ⟨hm, -⟩ | ⟨hm, hv⟩
  · exact absurd hm hcur
  have hview : t.view = Function.update s.view hole (.live (s.keys cur)) := by
    have hp := view_put (F := F) (s := s) hole (s.keys cur)
    rwa [← hm] at hp
  have hv' : Function.update s.view hole .dead cur = .live (s.keys cur) := by
    rw [Function.update_of_ne hch]
    exact hv
  -- the library moves the key with the hole read as vacated; the table still shows it twice
  have hsame : Function.update t.view cur .dead =
      Function.update (Function.update (Function.update s.view hole .dead) cur .dead) hole
        (.live (s.keys cur)) := by
    rw [hview]
    funext i
    by_cases hih : i = hole
    · subst hih
      simp [hch.symm]
    · simp [Function.update_apply, hih]
  have hshift := h.chained.shift F.rel_equiv h.cur_lt hv' hback
  have hholds := h.chained.holds_shift F.rel_equiv h.hole_lt h.cur_lt hv'
    (not_live_dead s.view hole)
  refine ⟨⟨h.cur_lt, Nat.mod_lt _ hpos, h.e_lt, ?_, ?_, ?_, ?_, ?_, ?_⟩, ?_, ?_⟩
  · simpa [t, HashSet.put, hch] using hcur
  · intro i hi
    by_cases hih : i = hole
    · right
      simp [t, HashSet.put, hih, hm]
    · simpa [t, HashSet.put, hih] using h.tag i hi
  · rw [hsame]
    exact hshift
  · simpa [t, HashSet.put, hhe.symm] using h.e_empty
  · show cdist s.capacity cur ((cur + 1) % s.capacity) +
      cdist s.capacity ((cur + 1) % s.capacity) e = cdist s.capacity cur e
    have hstep := succ_cdist h.cur_lt h.e_lt hne
    have hlt := cdist_lt h.cur_lt h.e_lt
    have hsucc := cdist_succ h.cur_lt h.cur_lt (by rw [cdist_self]; omega)
    rw [cdist_self] at hsucc
    omega
  · intro j hj hjd k hk
    have hsucc := cdist_succ h.cur_lt h.cur_lt (by
      rw [cdist_self]
      have hlt := cdist_lt h.cur_lt h.e_lt
      have := (cdist_eq_zero (b := e) h.cur_lt).not.mpr hne
      omega)
    rw [cdist_self] at hsucc
    have hz : cdist s.capacity cur j = 0 := by
      have hjd' : cdist s.capacity cur j < cdist s.capacity cur ((cur + 1) % s.capacity) := hjd
      omega
    have hjc := (cdist_eq_zero h.cur_lt).mp hz
    rw [← hjc] at hk
    exact absurd hk (not_live_dead t.view cur k)
  · have hc := slotCount_update (f := s.slotMeta) (q := fun m => decide (m ≠ hsEmpty))
      h.hole_lt (s.slotMeta cur)
    simpa [t, HashSet.put, hcur, h.hole_ne] using hc
  · intro k
    rw [hsame]
    exact hholds k

/-- The backward shift, by induction on its fuel: the empty slot `e` stays ahead
of the cursor and stops it. -/
theorem shiftLoop_spec (fuel : Nat) {e hole cur : Nat} (hpow : IsPow2 s.capacity)
    (h : Shifting F s e hole cur) (hfuel : cdist s.capacity cur e < fuel) :
    Shifted F s hole (shiftLoop F s fuel hole cur).1 (shiftLoop F s fuel hole cur).2 := by
  induction fuel generalizing s hole cur with
  | zero => omega
  | succ fuel ih =>
    have hpos := hpow.pos
    unfold shiftLoop
    rcases view_cases h.tag h.cur_lt with ⟨hm, -⟩ | ⟨hm, hv⟩
    · rw [if_pos (by rw [hm]; decide)]
      exact h.finish hpos hm
    · have h2 := fingerprint_ge_two (F.hash (s.keys cur))
      have hcur : s.slotMeta cur ≠ hsEmpty := by rw [hm]; unfold hsEmpty; omega
      have hne : cur ≠ e := fun heq => hcur (heq ▸ h.e_empty)
      have hstep := succ_cdist h.cur_lt h.e_lt hne
      have hhome := F.home_lt hpos (s.keys cur)
      have hnat : F.hash (s.keys cur) % s.capacity = F.home s.capacity (s.keys cur) := rfl
      rw [if_neg (by omega)]
      simp only [hpow.and_pred, hnat, sub_mod_eq_cdist hhome h.cur_lt,
        sub_mod_eq_cdist hhome h.hole_lt]
      by_cases hback : cdist s.capacity (F.home s.capacity (s.keys cur)) hole <
          cdist s.capacity (F.home s.capacity (s.keys cur)) cur
      · rw [if_pos hback]
        rcases h.move hcur hback with ⟨hmoved, hcnt, hholds⟩
        have hrec := ih (s := s.put hole (s.slotMeta cur) (s.keys cur)) hpow hmoved
          (by show cdist s.capacity _ e < fuel; omega)
        exact ⟨hrec.capacity, hrec.size, hrec.hole_lt, hrec.hole_ne, hrec.tag, hrec.chained,
          hrec.count.trans hcnt, fun k => (hrec.holds k).trans (hholds k)⟩
      · rw [if_neg hback]
        exact ih hpow (h.skip hcur hback) (by omega)

/-- `hashset_remove` tells whether the key was held, keeps the invariant and
removes the key and nothing else. -/
theorem remove_spec (hinv : Inv F s) (key : K) :
    Inv F (hashsetRemove F s key).1 ∧
    ((hashsetRemove F s key).2 = true ↔ Holds s.capacity F.Rel s.view key) ∧
    ∀ k, Holds (hashsetRemove F s key).1.capacity F.Rel (hashsetRemove F s key).1.view k ↔
      Holds s.capacity F.Rel s.view k ∧ ¬ F.Rel key k := by
  have hpow := hinv.pow2
  have hpos := hpow.pos
  have hlarge := hinv.large
  have hload := hinv.load
  have hsize := hinv.size
  unfold hashsetRemove
  rcases locate_spec hinv key with ⟨pos, hloc, hlt, hv, hrel⟩ | ⟨hloc, hno⟩
  · rw [hloc]
    simp only
    -- the load factor leaves an empty slot `e`, at which the back shift stops
    rcases exists_empty (s := s) (by omega) with ⟨e, he, hme⟩
    have hposne : s.slotMeta pos ≠ hsEmpty := by
      intro h
      rw [(view_empty_iff pos).mpr h] at hv
      cases hv
    have hpe : pos ≠ e := fun heq => hposne (heq ▸ hme)
    have hstep := succ_cdist hlt he hpe
    have hsucc := cdist_succ hlt hlt (by rw [cdist_self]; omega)
    rw [cdist_self] at hsucc
    have hde := cdist_lt hlt he
    have hstart : Shifting F s e pos ((pos + 1) % s.capacity) := by
      refine ⟨hlt, Nat.mod_lt _ hpos, he, hposne, hinv.tag, hinv.chained.kill pos, hme,
        by omega, ?_⟩
      intro j hj hjd k hk
      have hjp := (cdist_eq_zero hlt).mp (show cdist s.capacity pos j = 0 by omega)
      rw [← hjp] at hk
      exact absurd hk (not_live_dead s.view pos k)
    have hspec := shiftLoop_spec (s.capacity - 1) hpow hstart (by omega)
    rw [hpow.and_pred]
    generalize shiftLoop F s (s.capacity - 1) pos ((pos + 1) % s.capacity) = res at hspec
    rcases res with ⟨t, h'⟩
    simp only at hspec ⊢
    have hview : ({ t with slotMeta := Function.update t.slotMeta h' hsEmpty,
                           size := t.size - 1 } : HashSet K).view =
        Function.update t.view h' .empty := by
      funext i
      by_cases hi : i = h'
      · subst hi
        simp [HashSet.view]
      · simp [HashSet.view, hi]
    -- the last hole becomes an empty slot, which takes the removed key from the count
    have hcount : slotCount t.capacity (Function.update t.slotMeta h' hsEmpty) (· ≠ hsEmpty) + 1 =
        slotCount t.capacity t.slotMeta (· ≠ hsEmpty) := by
      have hc := slotCount_update (f := t.slotMeta) (q := fun m => decide (m ≠ hsEmpty))
        hspec.hole_lt hsEmpty
      simpa [hspec.hole_ne] using hc
    have hcnt := hspec.count
    have hcap := hspec.capacity
    have hsz := hspec.size
    refine ⟨⟨by rw [hcap]; exact hpow, by rw [hcap]; exact hlarge, ?_, ?_, ?_, ?_⟩, ?_, ?_⟩
    · intro i hi
      by_cases hih : i = h'
      · left
        simp [hih]
      · simpa [hih] using hspec.tag i hi
    · rw [hview]
      exact hspec.chained
    · show t.size - 1 = slotCount t.capacity (Function.update t.slotMeta h' hsEmpty) (· ≠ hsEmpty)
      omega
    · show 4 * (t.size - 1) ≤ 3 * t.capacity
      omega
    · simp only [true_iff]
      exact ⟨pos, hlt, _, hv, hrel⟩
    · intro k
      rw [hview]
      have hk := hspec.holds k
      rw [hinv.chained.holds_kill F.rel_equiv hlt hv] at hk
      rw [hk]
      constructor
      · intro h
        exact ⟨h.1, fun hkk => h.2 (F.rel_equiv.trans hrel hkk)⟩
      · intro h
        exact ⟨h.1, fun hkk => h.2 (F.rel_equiv.trans (F.rel_equiv.symm hrel) hkk)⟩
  · rw [hloc]
    refine ⟨hinv, by simp [hno], ?_⟩
    intro k
    constructor
    · intro h
      refine ⟨h, ?_⟩
      intro hk
      rcases h with ⟨i, hi, a, ha, hak⟩
      exact hno ⟨i, hi, a, ha, F.rel_equiv.trans hak (F.rel_equiv.symm hk)⟩
    · exact And.left

/-! ## Creation and clearing -/

/-- A table with no occupied slot. -/
theorem inv_of_empty {t : HashSet K} (hpow : IsPow2 t.capacity) (hlarge : 16 ≤ t.capacity)
    (hempty : ∀ i, t.slotMeta i = hsEmpty) (hsize : t.size = 0) :
    Inv F t ∧ ∀ k, ¬ Holds t.capacity F.Rel t.view k := by
  have hview : ∀ i k, t.view i ≠ .live k := by
    intro i k
    rw [(view_empty_iff i).mpr (hempty i)]
    exact nofun
  refine ⟨⟨hpow, hlarge, fun i _ => .inl (hempty i), ?_, ?_, by omega⟩, ?_⟩
  · exact chained_of_no_live (fun i _ k => hview i k)
  · rw [hsize, slotCount_eq_zero (fun i _ => by simp [hempty i])]
  · intro k h
    rcases h with ⟨i, -, a, ha, -⟩
    exact hview i a ha

theorem clear_spec (hinv : Inv F s) :
    Inv F (hashsetClear s) ∧
      ∀ k, ¬ Holds (hashsetClear s).capacity F.Rel (hashsetClear s).view k :=
  inv_of_empty hinv.pow2 hinv.large (fun _ => rfl) rfl

/-- A `size_t` that has been shifted out stays zero. -/
theorem roundUp_zero {initialCapacity : Nat} (h : 0 < initialCapacity) (fuel : Nat) :
    roundUp initialCapacity fuel 0 = none := by
  induction fuel with
  | zero => rfl
  | succ fuel ih =>
    rw [roundUp, if_pos h]
    exact ih

/-- The rounding loop ends at a power of two, or not at all. -/
theorem roundUp_pow2 {initialCapacity : Nat} (fuel e : Nat) (he : 4 ≤ e) (he' : e < 64) {cap : Nat}
    (h : roundUp initialCapacity fuel (2 ^ e) = some cap) : IsPow2 cap ∧ 16 ≤ cap := by
  induction fuel generalizing e with
  | zero => cases h
  | succ fuel ih =>
    rw [roundUp] at h
    split_ifs at h with hlt
    · rw [Nat.shiftLeft_eq, Nat.pow_one, ← Nat.pow_succ] at h
      rcases Nat.lt_or_ge (e + 1) 64 with hsmall | hbig
      · rw [Nat.mod_eq_of_lt (Nat.pow_lt_pow_right (by omega) hsmall)] at h
        exact ih (e + 1) (by omega) hsmall h
      · have he64 : e + 1 = 64 := by omega
        rw [Nat.succ_eq_add_one, he64, Nat.mod_self,
          roundUp_zero (Nat.lt_of_le_of_lt (Nat.zero_le _) hlt)] at h
        cases h
    · cases h
      refine ⟨⟨e, rfl⟩, ?_⟩
      calc 16 = 2 ^ 4 := rfl
        _ ≤ 2 ^ e := Nat.pow_le_pow_right (by omega) he

theorem create_spec {keySize initialCapacity : Nat}
    (h : hashsetCreate junk keySize initialCapacity = some s) :
    Inv F s ∧ ∀ k, ¬ Holds s.capacity F.Rel s.view k := by
  unfold hashsetCreate at h
  split_ifs at h
  rw [Option.map_eq_some_iff] at h
  rcases h with ⟨cap, hcap, rfl⟩
  have hpow := roundUp_pow2 64 4 (by omega) (by omega) hcap
  exact inv_of_empty hpow.1 hpow.2 (fun _ => rfl) rfl

/-! ## Runs -/

section Model

open Classical

/-- What a call does to the finite set the table stands for. -/
noncomputable def modelStep (F : HashedKey K) (A : Finset (Quotient F.setoid)) :
    Op K → Finset (Quotient F.setoid)
  | .add key => insert (Quotient.mk F.setoid key) A
  | .remove key => A.erase (Quotient.mk F.setoid key)
  | .clear => ∅

/-- The keys added and not removed or cleared since, up to `equals_fn`. -/
noncomputable def model (F : HashedKey K) (ops : List (Op K)) : Finset (Quotient F.setoid) :=
  ops.foldl (modelStep F) ∅

/-- The table stands for the finite set `A`. -/
def Represents (F : HashedKey K) (s : HashSet K) (A : Finset (Quotient F.setoid)) : Prop :=
  ∀ k, Quotient.mk F.setoid k ∈ A ↔ Holds s.capacity F.Rel s.view k

theorem class_eq_iff (a b : K) :
    Quotient.mk F.setoid a = Quotient.mk F.setoid b ↔ F.Rel a b :=
  ⟨fun h => Quotient.exact h, fun h => Quotient.sound h⟩

variable (junk) in
/-- One call. -/
theorem step_represents (hinv : Inv F s) {A : Finset (Quotient F.setoid)}
    (hrep : Represents F s A) (op : Op K) :
    ∃ t, step F junk s op = some t ∧ Inv F t ∧ Represents F t (modelStep F A op) := by
  cases op with
  | add key =>
    rcases add_spec junk hinv key with ⟨t, ht, hinvt, hadd⟩
    refine ⟨t, by rw [step, ht, Option.map_some], hinvt, ?_⟩
    intro k
    rw [modelStep, Finset.mem_insert, class_eq_iff, hadd, hrep]
    constructor
    · intro h
      rcases h with h | h
      · exact .inr (F.rel_equiv.symm h)
      · exact .inl h
    · intro h
      rcases h with h | h
      · exact .inr h
      · exact .inl (F.rel_equiv.symm h)
  | remove key =>
    rcases remove_spec hinv key with ⟨hinvt, -, hrem⟩
    refine ⟨_, rfl, hinvt, ?_⟩
    intro k
    rw [modelStep, Finset.mem_erase, ne_eq, class_eq_iff, hrem, hrep]
    constructor
    · intro h
      exact ⟨h.2, fun hk => h.1 (F.rel_equiv.symm hk)⟩
    · intro h
      exact ⟨fun hk => h.2 (F.rel_equiv.symm hk), h.1⟩
  | clear =>
    rcases clear_spec hinv with ⟨hinvt, hnone⟩
    refine ⟨_, rfl, hinvt, ?_⟩
    intro k
    simp [modelStep, hnone k]

variable (junk) in
/-- Every run returns, and its table stands for the model's set. -/
theorem run_represents (ops : List (Op K)) (hinv : Inv F s) {A : Finset (Quotient F.setoid)}
    (hrep : Represents F s A) :
    ∃ t, run F junk s ops = some t ∧ Inv F t ∧ Represents F t (ops.foldl (modelStep F) A) := by
  induction ops generalizing s A with
  | nil => exact ⟨s, rfl, hinv, hrep⟩
  | cons op ops ih =>
    rcases step_represents junk hinv hrep op with ⟨u, hu, hinvu, hrepu⟩
    rcases ih hinvu hrepu with ⟨t, ht, hinvt, hrept⟩
    refine ⟨t, ?_, hinvt, hrept⟩
    rw [run, List.foldlM_cons, hu]
    exact ht

end Model

/-- Keys that are their own hash. -/
def natKey : HashedKey Nat where
  hash := id
  equals a b := a == b
  equiv := nat_beq_equivalence
  compat _ _ h := beq_iff_eq.mp h

end Solidc.Hashset
