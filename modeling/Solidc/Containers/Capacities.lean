import Solidc.Containers.Dynarray

/-! # Capacities

`dynarray_reserve` serves requests for more room and, with a target of at least
`DYNARRAY_INITIAL_CAPACITY`, also `dynarray_shrink_to_fit`. It reallocates whenever the capacity is
not the one asked for, be it larger or smaller. The capacity to ask for comes from
`calculate_growth` and `calculate_growth_for`, the second a loop over the first.

* `reserve_capacity` — the capacity afterwards;
* `resize_directions_iff` — in which states the two calls go in their directions;
* `growth_fits` — the loop ends, with a capacity that suffices and that has a block.
-/

namespace Solidc.Containers

open CLib

variable {a : Dynarray} {newCapacity : Nat} {mem : Alloc}

/-- `dynarray_reserve` does not take room away, gives as much as it is asked for if it succeeds,
and keeps the content. -/
structure ReserveKeeps (a : Dynarray) (newCapacity : Nat) (mem : Alloc) : Prop where
  capacity_le : a.capacity ≤ (dynarrayReserve a newCapacity mem).1.capacity
  enough : (dynarrayReserve a newCapacity mem).2 = true →
    newCapacity ≤ (dynarrayReserve a newCapacity mem).1.capacity
  content : (dynarrayReserve a newCapacity mem).1.elems = a.elems

/-- `dynarray_shrink_to_fit` does not add room, and keeps the content. -/
structure ShrinkKeeps (a : Dynarray) (mem : Alloc) : Prop where
  le_capacity : (dynarrayShrinkToFit a mem).1.capacity ≤ a.capacity
  content : (dynarrayShrinkToFit a mem).1.elems = a.elems

/-- The block for this capacity has a size, and `realloc` grants it or is asked for nothing. -/
def Reallocates (a : Dynarray) (cap : Nat) (mem : Alloc) : Prop :=
  cap ≤ sizeMax / a.elementSize ∧ (mem ≠ none ∨ cap = 0)

/-- The capacity after a request is the size or the request, whatever it was before. -/
theorem reserve_capacity (h : Reallocates a (max newCapacity a.size) mem) :
    (dynarrayReserve a newCapacity mem).1.capacity = max newCapacity a.size := by
  have hmax : (if newCapacity < a.size then a.size else newCapacity) = max newCapacity a.size := by
    split <;> omega
  simp only [dynarrayReserve, hmax]
  by_cases hsame : max newCapacity a.size = a.capacity
  · rw [if_pos hsame, hsame]
  · rw [if_neg hsame, if_neg (not_lt.mpr h.1)]
    rcases mem with _ | junk
    · obtain hzero : max newCapacity a.size = 0 := h.2.resolve_left (by simp)
      dsimp only
      rw [if_neg (by omega)]
    · rfl

theorem reserve_refused (h : ¬ Reallocates a (max newCapacity a.size) mem) :
    (dynarrayReserve a newCapacity mem).1 = a := by
  have hmax : (if newCapacity < a.size then a.size else newCapacity) = max newCapacity a.size := by
    split <;> omega
  simp only [dynarrayReserve, hmax]
  split
  · rfl
  split
  · rfl
  · rename_i hguard
    rcases mem with _ | junk
    · have hpos : max newCapacity a.size > 0 :=
        Nat.pos_of_ne_zero fun hzero => h ⟨Nat.le_of_not_lt hguard, Or.inr hzero⟩
      dsimp only
      rw [if_pos hpos]
    · exact absurd ⟨Nat.le_of_not_lt hguard, Or.inl (Option.some_ne_none junk)⟩ h

theorem reserve_content (h : a.Inv) (newCapacity : Nat) (mem : Alloc) :
    (dynarrayReserve a newCapacity mem).1.elems = a.elems ∧
      ((dynarrayReserve a newCapacity mem).2 = true →
        newCapacity ≤ (dynarrayReserve a newCapacity mem).1.capacity) := by
  rcases h.reserve newCapacity mem with hres | ⟨a', hres, -, helems, -, -, hle⟩
  · simp [hres]
  · rw [hres]
    exact ⟨helems, fun _ => hle⟩

/-- A request takes room away when it is below the capacity and granted. -/
theorem reserveKeeps_iff (h : a.Inv) :
    ReserveKeeps a newCapacity mem ↔
      a.capacity ≤ max newCapacity a.size ∨ mem = none ∧ max newCapacity a.size ≠ 0 := by
  obtain ⟨hcontent, henough⟩ := reserve_content h newCapacity mem
  have hdir : ReserveKeeps a newCapacity mem ↔
      a.capacity ≤ (dynarrayReserve a newCapacity mem).1.capacity :=
    ⟨ReserveKeeps.capacity_le, fun hle => ⟨hle, henough, hcontent⟩⟩
  have hcap := h.capacity_le
  rw [hdir]
  by_cases hre : Reallocates a (max newCapacity a.size) mem
  · -- the new capacity is the larger of the request and the size, whatever the old one was
    rw [reserve_capacity hre]
    refine ⟨Or.inl, fun hor => hor.resolve_right ?_⟩
    rintro ⟨hnone, hzero⟩
    exact hre.2.elim (fun hsome => hsome hnone) hzero
  · rw [reserve_refused hre]
    refine ⟨fun _ => ?_, fun _ => le_rfl⟩
    by_contra hnot
    rw [not_or, not_and, not_not] at hnot
    refine hre ⟨(not_le.mp hnot.1).le.trans hcap, ?_⟩
    by_cases hnone : mem = none
    · exact Or.inr (hnot.2 hnone)
    · exact Or.inl hnone

/-- Shrinking adds room when there is less than the initial capacity and more is granted. -/
theorem shrinkKeeps_iff (h : a.Inv) :
    ShrinkKeeps a mem ↔ dynarrayInitialCapacity ≤ a.capacity ∨
      sizeMax / a.elementSize < dynarrayInitialCapacity ∨ mem = none := by
  have hsize := h.size_le
  have hcap := h.capacity_le
  have htarget : (if a.size > dynarrayInitialCapacity then a.size else dynarrayInitialCapacity) =
      max dynarrayInitialCapacity a.size := by
    split <;> omega
  have hmax : max (max dynarrayInitialCapacity a.size) a.size =
      max dynarrayInitialCapacity a.size := by omega
  have hdir : ShrinkKeeps a mem ↔ (dynarrayReserve a (max dynarrayInitialCapacity a.size)
      mem).1.capacity ≤ a.capacity := by
    rw [← htarget]
    exact ⟨ShrinkKeeps.le_capacity, fun hle => ⟨hle, (reserve_content h _ mem).1⟩⟩
  rw [hdir]
  -- the initial capacity is not zero, so a failed `realloc` never counts as success here
  by_cases hre : Reallocates a (max (max dynarrayInitialCapacity a.size) a.size) mem
  · rw [reserve_capacity hre]
    rw [hmax] at hre ⊢
    have hpos : max dynarrayInitialCapacity a.size ≠ 0 := by
      unfold dynarrayInitialCapacity
      omega
    have hfits := hre.1
    have hsome := hre.2.resolve_right hpos
    constructor
    · intro hle
      exact Or.inl (by omega)
    · rintro (hle | hbig | hnone)
      · omega
      · omega
      · exact absurd hnone hsome
  · rw [reserve_refused hre]
    refine ⟨fun _ => ?_, fun _ => le_rfl⟩
    by_contra hnot
    rw [not_or, not_or] at hnot
    rw [hmax] at hre
    exact hre ⟨by omega, Or.inl hnot.2.2⟩

/-- In every reachable state: a request takes no room away exactly when it is not below the
capacity or `realloc` fails, and shrinking adds none exactly when there is at least the initial
capacity, or the block for it has no size, or `realloc` fails. -/
theorem resize_directions_iff (h : Reach dynarrays AnyStep a) (newCapacity : Nat) (mem : Alloc) :
    (ReserveKeeps a newCapacity mem ↔
      a.capacity ≤ max newCapacity a.size ∨ mem = none ∧ max newCapacity a.size ≠ 0) ∧
    (ShrinkKeeps a mem ↔ dynarrayInitialCapacity ≤ a.capacity ∨
      sizeMax / a.elementSize < dynarrayInitialCapacity ∨ mem = none) :=
  ⟨reserveKeeps_iff (reach_inv h), shrinkKeeps_iff (reach_inv h)⟩

/-- A new array of eight bytes keeps them when it is asked for eight and when it is shrunk. -/
theorem resize_directions_fresh :
    ∃ a : Dynarray, Reach dynarrays AnyStep a ∧ a.capacity = 8 ∧
      ReserveKeeps a 8 (some fun _ => 0) ∧ ShrinkKeeps a (some fun _ => 0) := by
  have hreach : Reach dynarrays AnyStep ⟨extent (fun _ => 0) 8, 0, 8, 1⟩ :=
    .init ⟨1, 0, some fun _ => 0, rfl⟩
  obtain ⟨hreserve, hshrink⟩ := resize_directions_iff hreach 8 (some fun _ => 0)
  exact ⟨_, hreach, rfl, hreserve.mpr (Or.inl (by decide)), hshrink.mpr (Or.inl (by decide))⟩

/-- A new array of eight bytes that is asked for one loses seven; one of four bytes that is
shrunk gets four more. -/
theorem resize_against_direction :
    (∃ a : Dynarray, Reach dynarrays AnyStep a ∧ a.capacity = 8 ∧
      (dynarrayReserve a 1 (some fun _ => 0)).1.capacity = 1 ∧
      ¬ ReserveKeeps a 1 (some fun _ => 0)) ∧
    ∃ a : Dynarray, Reach dynarrays AnyStep a ∧ a.capacity = 4 ∧
      (dynarrayShrinkToFit a (some fun _ => 0)).1.capacity = 8 ∧
      ¬ ShrinkKeeps a (some fun _ => 0) := by
  constructor
  · exact ⟨⟨extent (fun _ => 0) 8, 0, 8, 1⟩, .init ⟨1, 0, some fun _ => 0, rfl⟩, rfl, rfl,
      fun h => absurd h.capacity_le (by decide)⟩
  · exact ⟨⟨extent (fun _ => 0) 4, 0, 4, 1⟩, .init ⟨1, 4, some fun _ => 0, rfl⟩, rfl, rfl,
      fun h => absurd h.le_capacity (by decide)⟩

/-! ## Growing -/

/-- The loop of `calculate_growth_for` for at most so many turns; no value if it goes on. -/
def growthTurns : Nat → Nat → Nat → Nat → Option Nat
  | 0, _, _, _ => none
  | turns + 1, newCapacity, minCapacity, elementSize =>
    if newCapacity < minCapacity then
      if calculateGrowth newCapacity elementSize = 0 then some minCapacity
      else growthTurns turns (calculateGrowth newCapacity elementSize) minCapacity elementSize
    else some newCapacity

/-- `calculate_growth_for` with a bound on the turns of its loop. -/
def calculateGrowthForTurns (turns current minCapacity elementSize : Nat) : Option Nat :=
  if minCapacity > sizeMax / elementSize then some 0
  else growthTurns turns current minCapacity elementSize

variable {current minCapacity elementSize turns : Nat}

/-- Every turn that goes on has grown the capacity, so what is missing bounds the turns. -/
theorem growthTurns_eq (h : minCapacity - current < turns) :
    growthTurns turns current minCapacity elementSize =
      some (growthLoop current minCapacity elementSize) := by
  induction turns generalizing current with
  | zero => exact absurd h (Nat.not_lt_zero _)
  | succ turns ih =>
    rw [growthTurns, growthLoop]
    by_cases hlt : current < minCapacity
    · rw [if_pos hlt, if_pos hlt]
      by_cases hgrown : calculateGrowth current elementSize = 0
      · rw [if_pos hgrown, if_pos hgrown]
      · rw [if_neg hgrown, if_neg hgrown]
        have hprogress := (calculateGrowth_spec hgrown).1
        exact ih (by omega)
    · rw [if_neg hlt, if_neg hlt]

theorem calculateGrowthForTurns_eq (h : minCapacity - current < turns) :
    calculateGrowthForTurns turns current minCapacity elementSize =
      some (calculateGrowthFor current minCapacity elementSize) := by
  unfold calculateGrowthForTurns calculateGrowthFor
  split
  · rfl
  · exact growthTurns_eq h

/-- The fallback and the end of the loop both give enough, whatever the loop started from. -/
theorem le_growthLoop : minCapacity ≤ growthLoop current minCapacity elementSize := by
  fun_induction growthLoop current minCapacity elementSize with
  | case1 => exact le_rfl
  | case2 cur _ _ ih => exact ih
  | case3 cur hge => exact Nat.le_of_not_lt hge

/-- The guard against a block without a size. -/
theorem gt_sizeMax_div_iff (hsize : 0 < elementSize) :
    minCapacity > sizeMax / elementSize ↔ sizeMax < minCapacity * elementSize :=
  Nat.div_lt_iff_lt_mul hsize

theorem calculateGrowthFor_eq_zero_iff (hmin : 0 < minCapacity) (hsize : 0 < elementSize) :
    calculateGrowthFor current minCapacity elementSize = 0 ↔
      sizeMax < minCapacity * elementSize := by
  rw [← gt_sizeMax_div_iff hsize]
  unfold calculateGrowthFor
  split
  · rename_i hguard
    exact ⟨fun _ => hguard, fun _ => rfl⟩
  · rename_i hguard
    constructor
    · intro hzero
      have hle : minCapacity ≤ growthLoop current minCapacity elementSize := le_growthLoop
      omega
    · intro hgt
      exact absurd hgt hguard

/-- Unless the capacity asked for has no block, the one returned is as large and has one. -/
theorem calculateGrowthFor_fits (hsize : 0 < elementSize)
    (hfits : minCapacity * elementSize ≤ sizeMax) :
    minCapacity ≤ calculateGrowthFor current minCapacity elementSize ∧
      (current * elementSize ≤ sizeMax →
        calculateGrowthFor current minCapacity elementSize * elementSize ≤ sizeMax) := by
  have hguard : minCapacity ≤ sizeMax / elementSize := (Nat.le_div_iff_mul_le hsize).mpr hfits
  have heq : calculateGrowthFor current minCapacity elementSize =
      growthLoop current minCapacity elementSize := if_neg (not_lt.mpr hguard)
  rw [heq]
  refine ⟨le_growthLoop, ?_⟩
  intro hcurrent
  exact mul_le_sizeMax (growthLoop_spec hguard ((Nat.le_div_iff_mul_le hsize).mpr hcurrent)).2

/-- `calculate_growth_for` ends within as many turns as capacity is missing and one more. It gives
0 exactly when the block asked for has no size, and else a capacity that suffices and that has a
block if the old one had. `calculate_growth` gives 0 or a larger capacity that has a block. -/
theorem growth_fits (current : Nat) {minCapacity elementSize : Nat} (hmin : 0 < minCapacity)
    (hsize : 0 < elementSize) :
    calculateGrowthForTurns (minCapacity - current + 1) current minCapacity elementSize =
        some (calculateGrowthFor current minCapacity elementSize) ∧
      (calculateGrowthFor current minCapacity elementSize = 0 ↔
        sizeMax < minCapacity * elementSize) ∧
      (minCapacity * elementSize ≤ sizeMax →
        minCapacity ≤ calculateGrowthFor current minCapacity elementSize ∧
        (current * elementSize ≤ sizeMax →
          calculateGrowthFor current minCapacity elementSize * elementSize ≤ sizeMax)) ∧
      (calculateGrowth current elementSize = 0 ∨
        current < calculateGrowth current elementSize ∧
          calculateGrowth current elementSize * elementSize ≤ sizeMax) := by
  refine ⟨calculateGrowthForTurns_eq (Nat.lt_succ_self _),
    calculateGrowthFor_eq_zero_iff hmin hsize, calculateGrowthFor_fits hsize, ?_⟩
  by_cases hgrown : calculateGrowth current elementSize = 0
  · exact Or.inl hgrown
  · obtain ⟨hprogress, hguard⟩ := calculateGrowth_spec hgrown
    exact Or.inr ⟨hprogress, mul_le_sizeMax hguard⟩

/-- One element grows to two although half of it rounds down to nothing, and the loop goes on to
three, four and six for five. -/
theorem growth_fits_one :
    calculateGrowth 1 8 = 2 ∧ calculateGrowthForTurns 5 1 5 8 = some 6 ∧
      calculateGrowthFor 1 5 8 = 6 := by
  have hturns := (growth_fits 1 (by decide : 0 < 5) (by decide : 0 < 8)).1
  have hrun : calculateGrowthForTurns 5 1 5 8 = some 6 := by decide
  exact ⟨by decide, hrun, Option.some.inj (hturns.symm.trans hrun)⟩

end Solidc.Containers
