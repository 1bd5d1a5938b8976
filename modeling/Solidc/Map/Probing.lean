import Solidc.Lib.Distances
import Solidc.Map.Refinement

/-! # The probing loops end

`map_set` and `map_resize` probe at most `capacity` slots, and the shift of `map_remove` has no
bound at all. That the first two always find a place and that the last one stops follows from the
stored distances alone: no hash, comparison or length that a caller passes has to fit another one.

* `Spaced` — the distances step up by at most one, some slot is empty or stores zero, and `size`
  counts the occupied slots;
* `setLoop_places`, `resizeInsert_places` — with an empty slot ahead the cell in hand is placed;
* `shiftLoop_ends` — the shift stops at the next grounded slot;
* `reached_probed`, `loops_end` — in every state that `map_set` and `map_remove` lead to.
-/

namespace Solidc.Map

open CLib

variable {K V : Type*} {F : MapFns K} {m m' : HashMap K V}

/-! ## Reachable states -/

/-- The states after calls of `map_set` and `map_remove` with any keys and lengths, successful or
not. -/
inductive Reached (F : MapFns K) : HashMap K V → Prop
  | create {initialCapacity : Nat} {maxLoadFactor : ℚ} {m : HashMap K V} :
      initialCapacity < 2 ^ 64 → mapCreate initialCapacity maxLoadFactor = some m → Reached F m
  | set {m : HashMap K V} (key : K) (keyLen : Nat) (value : Option V) :
      Reached F m → Reached F (mapSet F m key keyLen value).1
  | remove {m m' : HashMap K V} {key : K} {keyLen : Nat} {b : Bool} :
      Reached F m → mapRemove F m key keyLen = some (m', b) → Reached F m'

/-- The loops of the next call. The shift moves fewer than `capacity` cells. A cell in hand of
`map_resize` that is placed adds one to `size`, which is otherwise left alone. A `map_set` returns
false only where the growth is refused, before its loop. -/
structure LoopsEnd (F : MapFns K) (m : HashMap K V) : Prop where
  shift : ∀ key keyLen pos,
    locateLoop F m key m.capacity 0 (F.hash key keyLen &&& (m.capacity - 1)) = some pos →
    ∃ steps < m.capacity, (shiftLoop (steps + 1) m pos).isSome
  resize : ∀ newCapacity keyLen, newCapacity = calculateNewCapacity m.capacity →
    newCapacity ≤ sizeMax / 2 → ∀ i < m.capacity, ∀ key, m.keys i = some key →
    (resizeInsert newCapacity (resizeLoop F m newCapacity keyLen i) key (m.vals i) 0
      (F.hash key keyLen &&& (newCapacity - 1))).size =
        (resizeLoop F m newCapacity keyLen i).size + 1
  set : ∀ key keyLen value, (mapSet F m key keyLen value).2 = true ∨
    mapSet F m key keyLen value = (m, false) ∧ mustGrow m ∧
      sizeMax / 2 < calculateNewCapacity m.capacity

/-! ## The distances of a map -/

def HashMap.dibs (m : HashMap K V) (i : Nat) : Option Nat := (m.keys i).map fun _ => m.deleted i

/-- What the arrays satisfy between the writes of a call. -/
structure Spaced (m : HashMap K V) : Prop where
  pow2 : IsPow2 m.capacity
  large : 8 ≤ m.capacity
  stepped : Stepped m.capacity m.dibs
  ground : ∃ z < m.capacity, Grounded m.dibs z
  size : m.size = slotCount m.capacity m.dibs Option.isSome

/-- What they satisfy between the calls. -/
structure Probed (m : HashMap K V) : Prop extends Spaced m where
  bounded : m.capacity ≤ sizeMax / 2
  factor : m.maxLoadFactor < 1

theorem dibs_eq_none {i : Nat} : m.dibs i = none ↔ m.keys i = none := by
  rw [HashMap.dibs, Option.map_eq_none_iff]

theorem dibs_eq_some {i : Nat} {k : K} (h : m.keys i = some k) :
    m.dibs i = some (m.deleted i) := by
  rw [HashMap.dibs, h]
  rfl

theorem dibs_put (idx : Nat) (k : K) (v : Option V) (d : Nat) :
    (m.put idx (some k) v d).dibs = Function.update m.dibs idx (some d) := by
  funext i
  by_cases hi : i = idx
  · subst hi
    simp [HashMap.dibs, HashMap.put]
  · simp [HashMap.dibs, HashMap.put, hi]

theorem dibs_put_none (idx : Nat) (v : Option V) (d : Nat) :
    (m.put idx none v d).dibs = Function.update m.dibs idx none := by
  funext i
  by_cases hi : i = idx
  · subst hi
    simp [HashMap.dibs, HashMap.put]
  · simp [HashMap.dibs, HashMap.put, hi]

theorem ne_of_empty {i j : Nat} {k : K} (hi : m.keys i = some k) (hj : m.keys j = none) :
    i ≠ j := by
  rintro rfl
  rw [hi] at hj
  cases hj

/-! ## Placing a cell -/

variable {idx d z : Nat} {k : K} {v : Option V}

theorem Spaced.one_lt (h : Spaced m) : 1 < m.capacity := lt_of_lt_of_le (by decide) h.large

theorem Spaced.mask (h : Spaced m) (a : Nat) : a &&& (m.capacity - 1) = a % m.capacity :=
  h.pow2.and_pred a

theorem Spaced.next_lt (h : Spaced m) (a : Nat) : a % m.capacity < m.capacity :=
  Nat.mod_lt _ h.pow2.pos

/-- The cell in hand is put down in an empty slot. -/
theorem Spaced.place (h : Spaced m) (hidx : idx < m.capacity) (hempty : m.keys idx = none)
    (hfits : FitsAt m.capacity m.dibs d idx) :
    Spaced { m.put idx (some k) v d with size := m.size + 1 } := by
  have hnone := dibs_eq_none.mpr hempty
  have hdibs : HashMap.dibs { m.put idx (some k) v d with size := m.size + 1 } =
      Function.update m.dibs idx (some d) := dibs_put idx k v d
  refine ⟨h.pow2, h.large, ?_, ⟨(idx + 1) % m.capacity, h.next_lt _, ?_⟩, ?_⟩
  · rw [hdibs]
    refine h.stepped.put h.one_lt hidx hfits ?_
    rw [hnone]
    exact Nat.zero_le _
  · rw [hdibs]
    exact h.stepped.grounded_succ h.one_lt hidx hnone
  · have hcount := slotCount_update (f := m.dibs) (q := Option.isSome) hidx (some d)
    rw [hnone, ← h.size] at hcount
    rw [hdibs]
    exact hcount.symm

/-- The cell in hand takes the slot of a cell nearer its home, and that one goes on. -/
theorem Spaced.steal (h : Spaced m) (hidx : idx < m.capacity) {cur : K}
    (hcur : m.keys idx = some cur) (hrich : m.deleted idx < d)
    (hfits : FitsAt m.capacity m.dibs d idx) (hz : z < m.capacity) (hempty : m.keys z = none) :
    Spaced (m.put idx (some k) v d) ∧
      FitsAt m.capacity (m.put idx (some k) v d).dibs (m.deleted idx + 1)
        ((idx + 1) % m.capacity) ∧
      (m.put idx (some k) v d).keys z = none := by
  have hdibs := dibs_put (m := m) idx k v d
  have hsome := dibs_eq_some hcur
  -- the empty slot is not the one that is taken
  have hstays : (m.put idx (some k) v d).keys z = none := by
    rw [← hempty]
    exact Function.update_of_ne (ne_of_empty hcur hempty).symm _ _
  refine ⟨⟨h.pow2, h.large, ?_, ⟨z, hz, ?_⟩, ?_⟩, ?_, hstays⟩
  · rw [hdibs]
    refine h.stepped.put h.one_lt hidx hfits ?_
    rw [hsome]
    exact Nat.succ_le_succ hrich.le
  · intro e he
    rw [dibs_eq_none.mpr hstays] at he
    cases he
  · have hcount := slotCount_update (f := m.dibs) (q := Option.isSome) hidx (some d)
    rw [hsome] at hcount
    rw [hdibs]
    exact h.size.trans (Nat.add_right_cancel hcount).symm
  · rw [hdibs]
    exact fitsAt_succ hidx (Function.update_self _ _ _) (Nat.succ_le_succ hrich.le)

/-- The cell in hand passes one that is no nearer its home. -/
theorem Spaced.pass (hidx : idx < m.capacity) {cur : K} (hcur : m.keys idx = some cur)
    (hpoor : ¬ m.deleted idx < d) :
    FitsAt m.capacity m.dibs (d + 1) ((idx + 1) % m.capacity) :=
  fitsAt_succ hidx (dibs_eq_some hcur) (Nat.succ_le_succ (Nat.le_of_not_lt hpoor))

/-- With an empty slot ahead, the loop of `map_set` returns true, and the table stays in order. -/
theorem setLoop_places {fuel : Nat} (h : Spaced m) (hidx : idx < m.capacity) (hz : z < m.capacity)
    (hempty : m.keys z = none) (hfits : FitsAt m.capacity m.dibs d idx)
    (hfuel : cdist m.capacity idx z < fuel) :
    ∃ m', setLoop F fuel m k v d idx = (m', true) ∧ Spaced m' ∧ SameShape m m' := by
  induction fuel generalizing m k v d idx with
  | zero => omega
  | succ fuel ih =>
    unfold setLoop
    rw [h.mask]
    cases hcur : m.keys idx with
    | none => exact ⟨_, rfl, h.place hidx hcur hfits, rfl, rfl⟩
    | some cur =>
      dsimp only
      have hstep := succ_cdist hidx hz (ne_of_empty hcur hempty)
      have hnext := h.next_lt (idx + 1)
      have hfuel' : cdist m.capacity ((idx + 1) % m.capacity) z < fuel := by omega
      by_cases hsame : F.keyCompare cur k = true
      · -- an equal key, or one that is taken for equal: only its value changes
        rw [if_pos hsame]
        exact ⟨_, rfl, ⟨h.pow2, h.large, h.stepped, h.ground, h.size⟩, rfl, rfl⟩
      · rw [if_neg hsame]
        by_cases hrich : m.deleted idx < d
        · obtain ⟨hput, hfits', hempty'⟩ := h.steal (k := k) (v := v) hidx hcur hrich hfits hz hempty
          rw [if_pos hrich]
          obtain ⟨m', hrun, hspaced, hshape⟩ := ih hput hnext hz hempty' hfits' hfuel'
          exact ⟨m', hrun, hspaced, hshape.capacity, hshape.factor⟩
        · rw [if_neg hrich]
          exact ih h hnext hz hempty (Spaced.pass hidx hcur hrich) hfuel'

/-- So does the loop of `map_resize`. -/
theorem resizeInsert_places {fuel : Nat} (h : Spaced m) (hidx : idx < m.capacity)
    (hz : z < m.capacity) (hempty : m.keys z = none) (hfits : FitsAt m.capacity m.dibs d idx)
    (hfuel : cdist m.capacity idx z < fuel) :
    Spaced (resizeInsert fuel m k v d idx) ∧ SameShape m (resizeInsert fuel m k v d idx) ∧
      (resizeInsert fuel m k v d idx).size = m.size + 1 := by
  induction fuel generalizing m k v d idx with
  | zero => omega
  | succ fuel ih =>
    unfold resizeInsert
    rw [h.mask]
    cases hcur : m.keys idx with
    | none => exact ⟨h.place hidx hcur hfits, ⟨rfl, rfl⟩, rfl⟩
    | some cur =>
      dsimp only
      have hstep := succ_cdist hidx hz (ne_of_empty hcur hempty)
      have hnext := h.next_lt (idx + 1)
      have hfuel' : cdist m.capacity ((idx + 1) % m.capacity) z < fuel := by omega
      by_cases hrich : m.deleted idx < d
      · obtain ⟨hput, hfits', hempty'⟩ := h.steal (k := k) (v := v) hidx hcur hrich hfits hz hempty
        rw [if_pos hrich]
        obtain ⟨hspaced, hshape, hsize⟩ := ih hput hnext hz hempty' hfits' hfuel'
        exact ⟨hspaced, ⟨hshape.capacity, hshape.factor⟩, hsize⟩
      · rw [if_neg hrich]
        exact ih h hnext hz hempty (Spaced.pass hidx hcur hrich) hfuel'

/-- A table with room has an empty slot. -/
theorem Spaced.exists_empty (h : Spaced m) (hroom : m.size < m.capacity) :
    ∃ z < m.capacity, m.keys z = none := by
  rw [h.size] at hroom
  obtain ⟨z, hz, hempty⟩ := exists_of_slotCount_lt hroom
  exact ⟨z, hz, dibs_eq_none.mp (Option.isNone_iff_eq_none.mp (by simpa using hempty))⟩

/-! ## Growth -/

/-- Before the `i`-th old slot the new arrays are in order and have room. -/
structure Rebuilt (m : HashMap K V) (newCapacity i : Nat) (t : HashMap K V) : Prop
    extends Spaced t where
  capacity : t.capacity = newCapacity
  factor : t.maxLoadFactor = m.maxLoadFactor
  room : t.size ≤ i

theorem rebuilt_zero {newCapacity : Nat} (keyLen : Nat) (hpow : IsPow2 newCapacity)
    (hlarge : 8 ≤ newCapacity) : Rebuilt m newCapacity 0 (resizeLoop F m newCapacity keyLen 0) := by
  have hnone : ∀ i, (resizeLoop F m newCapacity keyLen 0).dibs i = none := fun _ => rfl
  refine ⟨⟨hpow, hlarge, ?_, ⟨0, hpow.pos, ?_⟩, ?_⟩, rfl, rfl, Nat.le_refl 0⟩
  · intro i _ e he
    rw [hnone] at he
    cases he
  · intro e he
    rw [hnone] at he
    cases he
  · exact (slotCount_eq_zero fun i _ => by rw [hnone]; rfl).symm

/-- One element of an old slot, in new arrays with room. -/
theorem Rebuilt.insert {t : HashMap K V} {newCapacity i : Nat} (h : Rebuilt m newCapacity i t)
    (hroom : i < newCapacity) (hash : Nat) :
    Rebuilt m newCapacity (i + 1)
        (resizeInsert newCapacity t k v 0 (hash &&& (newCapacity - 1))) ∧
      (resizeInsert newCapacity t k v 0 (hash &&& (newCapacity - 1))).size = t.size + 1 := by
  have hcap := h.capacity
  have hle := h.room
  obtain ⟨z, hz, hempty⟩ := h.exists_empty (by omega)
  obtain ⟨hspaced, hshape, hsize⟩ := resizeInsert_places (k := k) (v := v) h.toSpaced
    (h.next_lt hash) hz hempty (fitsAt_zero _ _ _) (cdist_lt (h.next_lt hash) hz)
  rw [← h.mask, hcap] at hspaced hshape hsize
  exact ⟨⟨hspaced, hshape.capacity.trans hcap, hshape.factor.trans h.factor, by omega⟩, hsize⟩

theorem resizeLoop_rebuilt {newCapacity i : Nat} (keyLen : Nat) (hpow : IsPow2 newCapacity)
    (hlarge : 8 ≤ newCapacity) (hi : i ≤ newCapacity) :
    Rebuilt m newCapacity i (resizeLoop F m newCapacity keyLen i) := by
  induction i with
  | zero => exact rebuilt_zero keyLen hpow hlarge
  | succ i ih =>
    have hre := ih (by omega)
    unfold resizeLoop
    dsimp only
    cases m.keys i with
    | none => exact ⟨hre.toSpaced, hre.capacity, hre.factor, hre.room.trans (Nat.le_succ i)⟩
    | some key => exact (hre.insert (by omega) _).1

/-! ## `map_set` -/

/-- The whole loop of `map_set`, in a table with room. -/
theorem Spaced.setLoop (h : Spaced m) (hroom : m.size < m.capacity) (key : K) (value : Option V)
    (hash : Nat) :
    ∃ m', setLoop F m.capacity m key value 0 (hash &&& (m.capacity - 1)) = (m', true) ∧
      Spaced m' ∧ SameShape m m' := by
  obtain ⟨z, hz, hempty⟩ := h.exists_empty hroom
  rw [h.mask]
  exact setLoop_places h (h.next_lt hash) hz hempty (fitsAt_zero _ _ _)
    (cdist_lt (h.next_lt hash) hz)

theorem Probed.set (h : Probed m) (key : K) (keyLen : Nat) (value : Option V) :
    (∃ m', mapSet F m key keyLen value = (m', true) ∧ Probed m') ∨
      mapSet F m key keyLen value = (m, false) ∧ mustGrow m ∧
        sizeMax / 2 < calculateNewCapacity m.capacity := by
  have hlarge := h.large
  have hdouble := calculateNewCapacity_eq h.bounded
  unfold mapSet
  by_cases hmust : mustGrow m
  case neg =>
    obtain ⟨m', hrun, hspaced, hshape⟩ := h.toSpaced.setLoop (F := F)
      (size_lt_of_load h.pow2.pos h.factor hmust) key value (F.hash key keyLen)
    left
    simp only [if_neg hmust, if_true, hrun]
    exact ⟨m', rfl, hspaced, hshape.capacity ▸ h.bounded, hshape.factor ▸ h.factor⟩
  case pos =>
    simp only [if_pos hmust, hdouble, if_neg (show ¬ m.capacity * 2 ≤ m.capacity by omega)]
    rcases Nat.lt_or_ge (sizeMax / 2) (m.capacity * 2) with hfull | hfits
    · right
      unfold mapResize
      rw [if_pos (Or.inr hfull)]
      exact ⟨rfl, hmust, hfull⟩
    · -- the old elements leave half of the new slots empty
      have hre : Rebuilt m (m.capacity * 2) m.capacity
          (resizeLoop F m (m.capacity * 2) keyLen m.capacity) :=
        resizeLoop_rebuilt keyLen h.pow2.double (by omega) (by omega)
      have hcap := hre.capacity
      have hroom := hre.room
      obtain ⟨m', hrun, hspaced, hshape⟩ :=
        hre.toSpaced.setLoop (F := F) (by omega) key value (F.hash key keyLen)
      have hok : ¬ (m.capacity * 2 ≤ m.capacity ∨ sizeMax / 2 < m.capacity * 2) := by omega
      left
      simp only [mapResize, if_neg hok, if_true, hrun]
      refine ⟨m', rfl, hspaced, ?_, ?_⟩
      · rw [hshape.capacity, hcap]
        exact hfits
      · rw [hshape.factor, hre.factor]
        exact h.factor

/-! ## `map_remove` -/

/-- The search of `map_remove` ends at an occupied slot. -/
theorem Spaced.located (h : Spaced m) {key : K} {fuel pos : Nat} (hidx : idx < m.capacity)
    (hloc : locateLoop F m key fuel d idx = some pos) :
    pos < m.capacity ∧ ∃ cur, m.keys pos = some cur := by
  induction fuel generalizing d idx with
  | zero => cases hloc
  | succ fuel ih =>
    unfold locateLoop at hloc
    cases hcur : m.keys idx with
    | none =>
      rw [hcur] at hloc
      cases hloc
    | some cur =>
      rw [hcur] at hloc
      dsimp only at hloc
      split at hloc
      · cases hloc
      · split at hloc
        · rw [← Option.some.inj hloc]
          exact ⟨hidx, cur, hcur⟩
        · rw [h.mask] at hloc
          exact ih (h.next_lt _) hloc

/-- One turn of the shift: the hole takes the cell behind it. -/
theorem Spaced.move (h : Spaced m) {hole : Nat} (hhole : hole < m.capacity) {cur : K}
    (hcur : m.keys hole = some cur) (hk : m.keys ((hole + 1) % m.capacity) = some k)
    (hz : z < m.capacity) (hground : Grounded m.dibs z) :
    Spaced (m.put hole (some k) v (m.deleted ((hole + 1) % m.capacity) - 1)) ∧
      Grounded (m.put hole (some k) v (m.deleted ((hole + 1) % m.capacity) - 1)).dibs z := by
  have hsome := dibs_eq_some hcur
  have hnext := dibs_eq_some hk
  have hstays := hground.shift h.stepped hhole hsome hnext
  rw [← dibs_put hole k v] at hstays
  refine ⟨⟨h.pow2, h.large, ?_, ⟨z, hz, hstays⟩, ?_⟩, hstays⟩
  · rw [dibs_put]
    exact h.stepped.shift h.one_lt hhole hsome hnext
  · have hcount := slotCount_update (f := m.dibs) (q := Option.isSome) hhole
      (some (m.deleted ((hole + 1) % m.capacity) - 1))
    rw [hsome] at hcount
    rw [dibs_put]
    exact h.size.trans (Nat.add_right_cancel hcount).symm

/-- The shift goes on as far as the next grounded slot at most. -/
theorem shiftLoop_ends {fuel hole : Nat} (h : Spaced m) (hhole : hole < m.capacity) {cur : K}
    (hcur : m.keys hole = some cur) (hz : z < m.capacity) (hground : Grounded m.dibs z)
    (hfuel : cdist m.capacity ((hole + 1) % m.capacity) z < fuel) :
    ∃ m' last, shiftLoop fuel m hole = some (m', last) ∧ Spaced m' ∧ SameShape m m' ∧
      last < m.capacity ∧ (∃ k, m'.keys last = some k) ∧
      Grounded m'.dibs ((last + 1) % m.capacity) := by
  induction fuel generalizing m hole cur with
  | zero => omega
  | succ fuel ih =>
    have hnext := h.next_lt (hole + 1)
    unfold shiftLoop
    rw [h.mask]
    dsimp only
    by_cases hstop : m.keys ((hole + 1) % m.capacity) = none ∨
        m.deleted ((hole + 1) % m.capacity) = 0
    · rw [if_pos hstop]
      refine ⟨m, hole, rfl, h, ⟨rfl, rfl⟩, hhole, ⟨cur, hcur⟩, fun e he => ?_⟩
      rcases hstop with hnone | hzero
      · rw [dibs_eq_none.mpr hnone] at he
        cases he
      · obtain ⟨k, -, hd⟩ := Option.map_eq_some_iff.mp he
        exact hd.symm.trans hzero
    · rw [if_neg hstop]
      obtain ⟨hsome, hfar⟩ := not_or.mp hstop
      obtain ⟨k, hk⟩ := Option.ne_none_iff_exists'.mp hsome
      have hne : (hole + 1) % m.capacity ≠ z := by
        rintro rfl
        exact hfar (hground _ (dibs_eq_some hk))
      have hstep := succ_cdist hnext hz hne
      obtain ⟨hmoved, hstays⟩ := h.move (v := m.vals ((hole + 1) % m.capacity)) hhole hcur hk hz
        hground
      have hcur' : (m.put hole (some k) (m.vals ((hole + 1) % m.capacity))
          (m.deleted ((hole + 1) % m.capacity) - 1)).keys ((hole + 1) % m.capacity) = some k := by
        rw [← hk]
        exact Function.update_of_ne (succ_mod_ne h.one_lt hhole) _ _
      -- the cell behind the hole is moved, and its old slot is the hole of the next turn
      have hfuel' : cdist m.capacity (((hole + 1) % m.capacity + 1) % m.capacity) z < fuel := by
        omega
      rw [hk]
      obtain ⟨m', last, hrun, hspaced, hshape, hrest⟩ := ih hmoved hnext hcur' hz hstays hfuel'
      exact ⟨m', last, hrun, hspaced, ⟨hshape.capacity, hshape.factor⟩, hrest⟩

/-- The slot that the shift leaves is emptied. -/
theorem Spaced.empty (h : Spaced m) {last : Nat} (hlast : last < m.capacity)
    (hk : m.keys last = some k) (hground : Grounded m.dibs ((last + 1) % m.capacity)) :
    Spaced { m.put last none none 0 with size := m.size - 1 } := by
  have hsome := dibs_eq_some hk
  have hdibs : HashMap.dibs { m.put last none none 0 with size := m.size - 1 } =
      Function.update m.dibs last none := dibs_put_none last none 0
  refine ⟨h.pow2, h.large, ?_, ⟨last, hlast, ?_⟩, ?_⟩
  · rw [hdibs]
    exact h.stepped.clear hground
  · rw [hdibs]
    intro e he
    rw [Function.update_self] at he
    cases he
  · have hcount := slotCount_update (f := m.dibs) (q := Option.isSome) hlast none
    rw [hsome, ← h.size] at hcount
    change slotCount m.capacity (Function.update m.dibs last none) Option.isSome + 1 =
      m.size + 0 at hcount
    rw [hdibs]
    exact (Nat.eq_sub_of_add_eq hcount).symm

theorem Probed.remove (h : Probed m) (key : K) (keyLen : Nat) :
    ∃ m' b, mapRemove F m key keyLen = some (m', b) ∧ Probed m' := by
  unfold mapRemove
  cases hloc : locateLoop F m key m.capacity 0 (F.hash key keyLen &&& (m.capacity - 1)) with
  | none => exact ⟨m, false, rfl, h⟩
  | some pos =>
    rw [h.mask] at hloc
    obtain ⟨hpos, cur, hcur⟩ := h.located (h.next_lt _) hloc
    -- a grounded slot is at most a whole turn away, also when it is the hole itself
    obtain ⟨z, hz, hground⟩ := h.ground
    obtain ⟨m', last, hrun, hspaced, hshape, hlast, ⟨k, hk⟩, hnext⟩ :=
      shiftLoop_ends h.toSpaced hpos hcur hz hground (cdist_lt (h.next_lt _) hz)
    dsimp only
    rw [hrun]
    rw [← hshape.capacity] at hlast hnext
    refine ⟨_, true, rfl, hspaced.empty hlast hk hnext, ?_, ?_⟩
    · exact le_of_eq_of_le hshape.capacity h.bounded
    · exact lt_of_eq_of_lt hshape.factor h.factor

/-! ## Every reachable state -/

/-- Where the callbacks fit together, the stored distances are those of a Robin Hood table. -/
theorem Inv.probed {P : Keyed K} (h : Inv P m) : Probed m := by
  have hdibs : ∀ i e, m.dibs i = some e → ∃ c, m.view i = some c ∧ c.dib = e := by
    intro i e he
    obtain ⟨k, hk, rfl⟩ := Option.map_eq_some_iff.mp he
    exact ⟨_, view_eq_some hk, rfl⟩
  refine ⟨⟨h.pow2, h.large, ?_, ?_, ?_⟩, h.bounded, h.factor⟩
  · intro i hi e he
    obtain ⟨c, hc, rfl⟩ := hdibs _ e he
    by_cases hzero : 0 < c.dib
    · obtain ⟨p, hp, hle⟩ := h.ordered.step i hi c hc hzero
      obtain ⟨hk, -, hd⟩ := view_cell hp
      rw [dibs_eq_some hk, hd]
      exact hle
    · rw [Nat.le_zero.mp (Nat.le_of_not_lt hzero)]
      exact Nat.zero_le _
  · obtain ⟨z, hz, hanchor⟩ := h.anchor
    refine ⟨z, hz, fun e he => ?_⟩
    obtain ⟨c, hc, rfl⟩ := hdibs z e he
    exact hanchor c hc
  · rw [h.size]
    refine Finset.sum_congr rfl fun i _ => ?_
    rw [HashMap.view, HashMap.dibs, Option.isSome_map, Option.isSome_map]

/-- Keys that are all equal, hashed to zero. -/
def oneKey (K : Type*) : Keyed K where
  hash _ _ := 0
  keyCompare _ _ := true
  len _ := 0
  equiv := ⟨fun _ => rfl, fun _ => rfl, fun _ _ => rfl⟩
  compat _ _ _ := rfl

theorem reached_probed (h : Reached F m) : Probed m := by
  induction h with
  | create hsize hcreate => exact (create_spec (P := oneKey K) hsize hcreate).1.probed
  | set key keyLen value _ ih =>
    rcases ih.set (F := F) key keyLen value with ⟨m', hrun, hprobed⟩ | ⟨hrun, -, -⟩
    · rw [hrun]
      exact hprobed
    · rw [hrun]
      exact ih
  | remove _ hrun ih =>
    obtain ⟨m', b, hrun', hprobed⟩ := ih.remove _ _
    rw [hrun] at hrun'
    cases hrun'
    exact hprobed

/-- In every reachable state, with any hash function, comparison and accepted load factor: the
backward shift ends, every element that is rehashed finds a place, and so does the one that is
set. -/
theorem loops_end (F : MapFns K) (m : HashMap K V) (h : Reached F m) : LoopsEnd F m := by
  have hprobed := reached_probed h
  have hlarge := hprobed.large
  constructor
  case shift =>
    intro key keyLen pos hloc
    rw [hprobed.mask] at hloc
    obtain ⟨hpos, cur, hcur⟩ := hprobed.located (hprobed.next_lt _) hloc
    obtain ⟨z, hz, hground⟩ := hprobed.ground
    obtain ⟨m', last, hrun, -⟩ :=
      shiftLoop_ends hprobed.toSpaced hpos hcur hz hground (Nat.lt_succ_self _)
    refine ⟨cdist m.capacity ((pos + 1) % m.capacity) z, cdist_lt (hprobed.next_lt _) hz, ?_⟩
    rw [hrun]
    rfl
  case resize =>
    intro newCapacity keyLen hnew hmax i hi key hkey
    rw [calculateNewCapacity_eq hprobed.bounded] at hnew
    have hpow : IsPow2 newCapacity := hnew ▸ hprobed.pow2.double
    have hre : Rebuilt m newCapacity i (resizeLoop F m newCapacity keyLen i) :=
      resizeLoop_rebuilt keyLen hpow (by omega) (by omega)
    exact (hre.insert (by omega) _).2
  case set =>
    intro key keyLen value
    rcases hprobed.set (F := F) key keyLen value with ⟨m', hrun, -⟩ | hrefused
    · left
      rw [hrun]
    · exact Or.inr hrefused

theorem Reached.sets (h : Reached F m) (keyLen : Nat) (value : Option V) (keys : List K) :
    Reached F (keys.foldl (fun m key => (mapSet F m key keyLen value).1) m) := by
  induction keys generalizing m with
  | nil => exact h
  | cons key keys ih => exact ih (h.set key keyLen value)

/-- Integer keys with one hash. -/
def oneHash : MapFns Nat where
  hash _ _ := 0
  keyCompare a b := a == b

/-- A map of eight slots that grows when all of them are occupied. -/
def eightSlots : HashMap Nat Nat := (mapCreate 8 (15 / 16)).get (by decide +kernel)

/-- Eight keys with one hash fill it. -/
theorem loops_end_full : ∃ m : HashMap Nat Nat, m.size = m.capacity ∧ LoopsEnd oneHash m := by
  have hcreate : mapCreate 8 (15 / 16) = some eightSlots := (Option.some_get _).symm
  have hfull := Reached.sets (.create (F := oneHash) (by decide) hcreate) 8 (some 1) (List.range 8)
  exact ⟨_, by decide +kernel, loops_end oneHash _ hfull⟩

end Solidc.Map
