import Solidc.Lib.Buffer
import Solidc.Lib.Transition
import Mathlib.Order.Nat
import Mathlib.Algebra.Ring.Nat

/-! # Dynamic arrays

`dynarray_t` as the source keeps it: one block of bytes, the number of elements and the number
of elements that the block has room for. Products of sizes wrap around as those of `size_t` do,
and an access outside of the block has no value. Every allocation may fail.

* `Dynarray.Inv` — the block has exactly `capacity * element_size` bytes, and no product wraps;
* `Dynarray.elems` — the list that the array stands for;
* `Dynarray.Inv.apply` — every operation stays inside the block, keeps the invariant and does on the
  list what its name says, or fails and changes nothing;
* `dynarray_refines_list` — so it does in every run.
-/

namespace Solidc.Containers

open CLib

/-! ## The array -/

def dynarrayGrowthNumerator : Nat := 3
def dynarrayGrowthDenominator : Nat := 2
def dynarrayInitialCapacity : Nat := 8
def dynarrayShrinkThreshold : Nat := 4

/-- `SIZE_MAX`. -/
def sizeMax : Nat := 2 ^ 64 - 1

/-- The value of an expression of type `size_t`. -/
def toSize (n : Nat) : Nat := n % 2 ^ 64

/-- `dynarray_t`. The bytes of the block are `data`; a NULL pointer is the empty block. -/
structure Dynarray where
  data : List UInt8
  size : Nat
  capacity : Nat
  elementSize : Nat

/-- What `malloc` or `realloc` returns: NULL, or a block with some bytes behind those that it
keeps. -/
abbrev Alloc : Type := Option (Nat → UInt8)

/-- A pointer argument, NULL or leading to some bytes. -/
abbrev Pointer : Type := Option (Nat → UInt8)

/-- One and a half times the capacity, and at least one more. -/
def grownCapacity (current : Nat) : Nat :=
  let newCapacity := toSize (current * dynarrayGrowthNumerator) / dynarrayGrowthDenominator
  if newCapacity ≤ current then toSize (current + 1) else newCapacity

/-- `calculate_growth`: the new capacity, 0 on overflow. -/
def calculateGrowth (current elementSize : Nat) : Nat :=
  if current > sizeMax / dynarrayGrowthNumerator then 0
  else if grownCapacity current > sizeMax / elementSize then 0
  else grownCapacity current

theorem lt_grownCapacity {current : Nat} (h : ¬ current > sizeMax / dynarrayGrowthNumerator) :
    current < grownCapacity current := by
  unfold sizeMax dynarrayGrowthNumerator at h
  unfold grownCapacity toSize
  dsimp only
  split <;> omega

/-- A capacity other than 0 is larger than the current one, and its block has a size. -/
theorem calculateGrowth_spec {current elementSize : Nat}
    (h : calculateGrowth current elementSize ≠ 0) :
    current < calculateGrowth current elementSize ∧
      calculateGrowth current elementSize ≤ sizeMax / elementSize := by
  unfold calculateGrowth at h ⊢
  split_ifs at h ⊢ with hcur hfit
  · exact absurd rfl h
  · exact absurd rfl h
  · exact ⟨lt_grownCapacity hcur, Nat.le_of_not_lt hfit⟩

/-- The loop of `calculate_growth_for`. -/
def growthLoop (newCapacity minCapacity elementSize : Nat) : Nat :=
  if newCapacity < minCapacity then
    if calculateGrowth newCapacity elementSize = 0 then minCapacity
    else growthLoop (calculateGrowth newCapacity elementSize) minCapacity elementSize
  else newCapacity
termination_by minCapacity - newCapacity
decreasing_by
  have := (calculateGrowth_spec ‹_›).1
  omega

/-- `calculate_growth_for`: a capacity of at least `minCapacity`, 0 on overflow. -/
def calculateGrowthFor (current minCapacity elementSize : Nat) : Nat :=
  if minCapacity > sizeMax / elementSize then 0
  else growthLoop current minCapacity elementSize

/-- `dynarray_init`; the old content of the structure is lost only if it succeeds. -/
def dynarrayInit (elementSize initialCapacity : Nat) (mem : Alloc) : Option Dynarray :=
  if elementSize = 0 then none
  else
    let initialCapacity :=
      if initialCapacity = 0 then dynarrayInitialCapacity else initialCapacity
    if initialCapacity > sizeMax / elementSize then none
    else mem.map fun junk =>
      ⟨extent junk (toSize (elementSize * initialCapacity)), 0, initialCapacity, elementSize⟩

variable (a : Dynarray)

/-- `dynarray_reserve`. Reallocating to no bytes gives NULL, which is no failure. -/
def dynarrayReserve (newCapacity : Nat) (mem : Alloc) : Dynarray × Bool :=
  let newCapacity := if newCapacity < a.size then a.size else newCapacity
  if newCapacity = a.capacity then (a, true)
  else if newCapacity > sizeMax / a.elementSize then (a, false)
  else
    match mem with
    | none =>
      if newCapacity > 0 then (a, false) else ({ a with data := [], capacity := newCapacity }, true)
    | some junk =>
      let newData := realloc a.data (toSize (newCapacity * a.elementSize)) junk
      ({ a with data := newData, capacity := newCapacity }, true)

/-- The `memcpy` of `count` elements to the end of the array. -/
def dynarrayWrite (element : Nat → UInt8) (count : Nat) : Option Dynarray :=
  (store a.data (toSize (a.size * a.elementSize))
    (extent element (toSize (count * a.elementSize)))).map fun data =>
      { a with data := data, size := toSize (a.size + count) }

def dynarrayPush (element : Pointer) (mem : Alloc) : Option (Dynarray × Bool) :=
  match element with
  | none => some (a, false)
  | some element =>
    if a.size ≥ a.capacity then
      let newCapacity := calculateGrowth a.capacity a.elementSize
      if newCapacity = 0 then some (a, false)
      else
        let (grown, ok) := dynarrayReserve a newCapacity mem
        if ok then (dynarrayWrite grown element 1).map (·, true) else some (grown, false)
    else (dynarrayWrite a element 1).map (·, true)

def dynarrayPushN (elements : Pointer) (count : Nat) (mem : Alloc) : Option (Dynarray × Bool) :=
  match elements with
  | none => some (a, false)
  | some elements =>
    if count = 0 then some (a, true)
    else if count > sizeMax - a.size then some (a, false)
    else
      let required := toSize (a.size + count)
      if required > a.capacity then
        let newCapacity := calculateGrowthFor a.capacity required a.elementSize
        if newCapacity = 0 then some (a, false)
        else
          let (grown, ok) := dynarrayReserve a newCapacity mem
          if ok then (dynarrayWrite grown elements count).map (·, true) else some (grown, false)
      else (dynarrayWrite a elements count).map (·, true)

/-- The end of `dynarray_pop`: half the capacity when less than a quarter is used. -/
def dynarrayShrink (mem : Alloc) : Dynarray :=
  if a.capacity > dynarrayInitialCapacity ∧ a.size < a.capacity / dynarrayShrinkThreshold then
    let newCapacity := a.capacity / dynarrayGrowthDenominator
    let newCapacity :=
      if newCapacity < dynarrayInitialCapacity then dynarrayInitialCapacity else newCapacity
    match mem with
    | none => a
    | some junk =>
      { a with
        data := realloc a.data (toSize (newCapacity * a.elementSize)) junk
        capacity := newCapacity }
  else a

/-- `dynarray_pop`, which also returns the bytes that it copies to `out_element`. -/
def dynarrayPop (wanted : Bool) (mem : Alloc) : Option (Dynarray × Bool × Option (List UInt8)) :=
  if a.size = 0 then some (a, false, none)
  else
    let popped := { a with size := a.size - 1 }
    if wanted then
      (load popped.data (toSize (popped.size * popped.elementSize)) popped.elementSize).map
        fun element => (dynarrayShrink popped mem, true, some element)
    else some (dynarrayShrink popped mem, true, none)

def dynarraySet (index : Nat) (element : Pointer) : Option (Dynarray × Bool) :=
  match element with
  | none => some (a, false)
  | some element =>
    if index ≥ a.size then some (a, false)
    else
      (store a.data (toSize (index * a.elementSize)) (extent element a.elementSize)).map
        fun data => ({ a with data := data }, true)

def dynarrayShrinkToFit (mem : Alloc) : Dynarray × Bool :=
  let targetCapacity :=
    if a.size > dynarrayInitialCapacity then a.size else dynarrayInitialCapacity
  dynarrayReserve a targetCapacity mem

def dynarrayClear : Dynarray := { a with size := 0 }

/-! ## Runs -/

/-- A call, with what its allocation returns. -/
inductive DynarrayOp where
  | init (elementSize initialCapacity : Nat) (mem : Alloc)
  | push (element : Pointer) (mem : Alloc)
  | pushN (elements : Pointer) (count : Nat) (mem : Alloc)
  | pop (wanted : Bool) (mem : Alloc)
  | set (index : Nat) (element : Pointer)
  | reserve (newCapacity : Nat) (mem : Alloc)
  | shrinkToFit (mem : Alloc)
  | clear

/-- What a call returns; `out` is what it writes to `out_element`. -/
structure DynarrayResult where
  ok : Bool
  out : Option (List UInt8)

/-- One call; `none` is an access outside of the block. -/
def Dynarray.apply : DynarrayOp → Option (Dynarray × DynarrayResult)
  | .init elementSize initialCapacity mem =>
    match dynarrayInit elementSize initialCapacity mem with
    | some a' => some (a', ⟨true, none⟩)
    | none => some (a, ⟨false, none⟩)
  | .push element mem => (dynarrayPush a element mem).map fun r => (r.1, ⟨r.2, none⟩)
  | .pushN elements count mem =>
    (dynarrayPushN a elements count mem).map fun r => (r.1, ⟨r.2, none⟩)
  | .pop wanted mem => (dynarrayPop a wanted mem).map fun r => (r.1, ⟨r.2.1, r.2.2⟩)
  | .set index element => (dynarraySet a index element).map fun r => (r.1, ⟨r.2, none⟩)
  | .reserve newCapacity mem =>
    let r := dynarrayReserve a newCapacity mem
    some (r.1, ⟨r.2, none⟩)
  | .shrinkToFit mem =>
    let r := dynarrayShrinkToFit a mem
    some (r.1, ⟨r.2, none⟩)
  | .clear => some (dynarrayClear a, ⟨true, none⟩)

/-- Arrays under any sequence of calls, from their first initialisation on. -/
def dynarrays : System Dynarray DynarrayOp where
  init a := ∃ elementSize initialCapacity mem,
    dynarrayInit elementSize initialCapacity mem = some a
  step a op a' := ∃ r, a.apply op = some (a', r)

/-! ## The list -/

/-- The list of elements that an array holds. -/
def Dynarray.elems : List (List UInt8) := chunks a.elementSize a.size a.data

/-- The elements that `dynarray_push_n` is given. -/
def elementsAt (elements : Nat → UInt8) (elementSize count : Nat) : List (List UInt8) :=
  (List.range count).map fun i => extent (fun b => elements (i * elementSize + b)) elementSize

/-- What a successful call does on a list of elements of `size` bytes. -/
def listEffect (size : Nat) (xs : List (List UInt8)) : DynarrayOp → List (List UInt8)
  | .init _ _ _ => []
  | .push element _ => xs ++ (element.map (extent · size)).toList
  | .pushN elements count _ => xs ++ (elements.map (elementsAt · size count)).getD []
  | .pop _ _ => xs.dropLast
  | .set index element => xs.set index ((element.map (extent · size)).getD [])
  | .reserve _ _ | .shrinkToFit _ => xs
  | .clear => []

/-- The size of a block and the bounds that keep all products exact. -/
structure Dynarray.Inv : Prop where
  elementSize_pos : 0 < a.elementSize
  size_le : a.size ≤ a.capacity
  fits : a.capacity * a.elementSize ≤ sizeMax
  block : a.data.length = a.capacity * a.elementSize

/-- `count` calls of `dynarray_push`, up to the first one that fails. -/
def pushEach (elements : Nat → UInt8) (mem : Nat → Alloc) : Dynarray → Nat → Nat →
    Option (Dynarray × Bool)
  | a, _, 0 => some (a, true)
  | a, i, count + 1 =>
    match dynarrayPush a (some fun b => elements (i * a.elementSize + b)) (mem i) with
    | some (a', true) => pushEach elements mem a' (i + 1) count
    | r => r

/-- What a call returns besides its effect. -/
def Dynarray.Returns : DynarrayOp → DynarrayResult → Prop
  | .pop wanted _, r =>
    (r.ok = true ↔ a.elems ≠ []) ∧ (wanted = true → r.out = a.elems.getLast?)
  | .set index element, r => r.ok = true ↔ element ≠ none ∧ index < a.elems.length
  | .clear, r => r.ok = true
  | _, _ => True

/-- A call keeps the invariant, and has its effect on the list or fails without one. -/
structure Dynarray.Step (op : DynarrayOp) (a' : Dynarray) (r : DynarrayResult) : Prop where
  inv : a'.Inv
  effect : r.ok = true → a'.elems = listEffect a.elementSize a.elems op
  failed : r.ok = false → a' = a
  returns : a.Returns op r

/-! ## Capacities -/

variable {a}

/-- A call of `calculate_growth_for` on a capacity that has a block gives one again. -/
theorem growthLoop_spec {newCapacity minCapacity elementSize : Nat}
    (hmin : minCapacity ≤ sizeMax / elementSize) (hcur : newCapacity ≤ sizeMax / elementSize) :
    minCapacity ≤ growthLoop newCapacity minCapacity elementSize ∧
      growthLoop newCapacity minCapacity elementSize ≤ sizeMax / elementSize := by
  fun_induction growthLoop newCapacity minCapacity elementSize with
  | case1 => exact ⟨le_rfl, hmin⟩
  | case2 cur _ hgrown ih => exact ih (calculateGrowth_spec hgrown).2
  | case3 cur hge => exact ⟨Nat.le_of_not_lt hge, hcur⟩

theorem toSize_eq {n : Nat} (h : n ≤ sizeMax) : toSize n = n := by
  unfold toSize sizeMax at *
  omega

/-- A capacity within the bound of the guards has a block. -/
theorem mul_le_sizeMax {n elementSize : Nat} (h : n ≤ sizeMax / elementSize) :
    n * elementSize ≤ sizeMax :=
  (Nat.mul_le_mul_right _ h).trans (Nat.div_mul_le_self _ _)

namespace Dynarray.Inv

theorem capacity_le (h : a.Inv) : a.capacity ≤ sizeMax / a.elementSize :=
  (Nat.le_div_iff_mul_le h.elementSize_pos).mpr h.fits

theorem capacity_le_sizeMax (h : a.Inv) : a.capacity ≤ sizeMax :=
  h.capacity_le.trans (Nat.div_le_self _ _)

/-- Elements within the capacity lie within the block. -/
theorem offset_le (h : a.Inv) {n : Nat} (hn : n ≤ a.capacity) :
    n * a.elementSize ≤ a.data.length := by
  rw [h.block]
  exact Nat.mul_le_mul_right _ hn

theorem offset_le_sizeMax (h : a.Inv) {n : Nat} (hn : n ≤ a.capacity) :
    n * a.elementSize ≤ sizeMax :=
  (Nat.mul_le_mul_right _ hn).trans h.fits

theorem length_elems : a.elems.length = a.size := length_chunks _ _ _

/-- A block of another capacity that keeps the elements. -/
theorem resize (h : a.Inv) {newCapacity : Nat} (hsize : a.size ≤ newCapacity)
    (hfits : newCapacity * a.elementSize ≤ sizeMax) (junk : Nat → UInt8) :
    let a' := { a with
      data := realloc a.data (toSize (newCapacity * a.elementSize)) junk, capacity := newCapacity }
    a'.Inv ∧ a'.elems = a.elems := by
  rw [toSize_eq hfits]
  refine ⟨⟨h.elementSize_pos, hsize, hfits, length_realloc _ _ _⟩, chunks_congr ?_⟩
  exact take_realloc junk (Nat.mul_le_mul_right _ hsize) (h.offset_le h.size_le)

/-- `dynarray_reserve` fails without an effect, or gives a capacity of at least the one asked
for. -/
theorem reserve (h : a.Inv) (newCapacity : Nat) (mem : Alloc) :
    dynarrayReserve a newCapacity mem = (a, false) ∨
      ∃ a', dynarrayReserve a newCapacity mem = (a', true) ∧ a'.Inv ∧ a'.elems = a.elems ∧
        a'.size = a.size ∧ a'.elementSize = a.elementSize ∧ newCapacity ≤ a'.capacity := by
  unfold dynarrayReserve
  generalize hcap : (if newCapacity < a.size then a.size else newCapacity) = cap
  have hle : newCapacity ≤ cap ∧ a.size ≤ cap := by
    split at hcap <;> omega
  dsimp only
  split
  case isTrue heq => exact .inr ⟨a, rfl, h, rfl, rfl, rfl, heq ▸ hle.1⟩
  case isFalse =>
    split
    case isTrue => exact .inl rfl
    case isFalse hguard =>
      have hfits := mul_le_sizeMax (Nat.le_of_not_lt hguard)
      cases mem with
      | none =>
        dsimp only
        split
        case isTrue => exact .inl rfl
        case isFalse hzero =>
          -- nothing is left of an empty array
          obtain rfl : cap = 0 := Nat.eq_zero_of_not_pos hzero
          have hsize : a.size = 0 := Nat.le_zero.mp hle.2
          refine .inr ⟨_, rfl, ⟨h.elementSize_pos, hle.2, by simp, by simp⟩, ?_, rfl, rfl, hle.1⟩
          rw [Dynarray.elems, Dynarray.elems, hsize, chunks, chunks]
      | some junk =>
        obtain ⟨hinv, helems⟩ := h.resize hle.2 hfits junk
        exact .inr ⟨_, rfl, hinv, helems, rfl, rfl, hle.1⟩

/-- Elements are written behind the last one, if there is room for them. -/
theorem write (h : a.Inv) {count : Nat} (element : Nat → UInt8)
    (hroom : a.size + count ≤ a.capacity) :
    ∃ a', dynarrayWrite a element count = some a' ∧ a'.Inv ∧
      a'.elems = a.elems ++ elementsAt element a.elementSize count ∧
      a'.elementSize = a.elementSize := by
  have hend := h.offset_le hroom
  rw [Nat.add_mul] at hend
  have hcount : toSize (count * a.elementSize) = count * a.elementSize :=
    toSize_eq (h.offset_le_sizeMax (by omega))
  have hsize : toSize (a.size * a.elementSize) = a.size * a.elementSize :=
    toSize_eq (h.offset_le_sizeMax h.size_le)
  have hfits : a.size * a.elementSize + (extent element (count * a.elementSize)).length ≤
      a.data.length := by
    rw [length_extent]
    exact hend
  have hstore := store_eq hfits
  unfold dynarrayWrite
  rw [hcount, hsize, toSize_eq (hroom.trans h.capacity_le_sizeMax), hstore, Option.map_some]
  refine ⟨_, rfl, ⟨h.elementSize_pos, hroom, h.fits, ?_⟩, ?_, rfl⟩
  · exact (length_store hstore).trans h.block
  · have hoff : (a.data.take (a.size * a.elementSize)).length = a.size * a.elementSize := by
      rw [List.length_take]
      omega
    rw [Dynarray.elems, chunks_add]
    congr 1
    · refine chunks_congr ?_
      rw [List.take_append_of_le_length hoff.ge, List.take_take, Nat.min_self]
    · rw [List.drop_left' hoff, elementsAt, ← chunks_extent]
      refine chunks_congr ?_
      rw [List.take_append_of_le_length (by simp)]

end Dynarray.Inv

/-! ## One call -/

/-- A call that fails before it changes anything. -/
theorem Dynarray.Inv.refuse (h : a.Inv) {op : DynarrayOp} {out : Option (List UInt8)}
    (hret : a.Returns op ⟨false, out⟩) : a.Step op a ⟨false, out⟩ :=
  ⟨h, nofun, fun _ => rfl, hret⟩

/-- The common end of `dynarray_push` and `dynarray_push_n`: what is asked for is reserved, and
the elements are written. -/
theorem Dynarray.Inv.reserve_write (h : a.Inv) {newCapacity count : Nat} (mem : Alloc)
    (element : Nat → UInt8) (hroom : a.size + count ≤ newCapacity) :
    ∃ a' ok, (if (dynarrayReserve a newCapacity mem).2 then
        (dynarrayWrite (dynarrayReserve a newCapacity mem).1 element count).map (·, true)
      else some ((dynarrayReserve a newCapacity mem).1, false)) = some (a', ok) ∧ a'.Inv ∧
      (ok = true → a'.elems = a.elems ++ elementsAt element a.elementSize count ∧
        a'.elementSize = a.elementSize) ∧ (ok = false → a' = a) := by
  rcases h.reserve newCapacity mem with hres | ⟨b, hres, hb, helems, hsize, hes, hcap⟩
  · exact ⟨a, false, by rw [hres]; rfl, h, nofun, fun _ => rfl⟩
  · obtain ⟨c, hc, hinv, hcelems, hces⟩ := hb.write element (by omega : b.size + count ≤ b.capacity)
    refine ⟨c, true, by simp [hres, hc], hinv, fun _ => ⟨?_, hces.trans hes⟩, nofun⟩
    rw [hcelems, helems, hes]

theorem Dynarray.Inv.write_here (h : a.Inv) {count : Nat} (element : Nat → UInt8)
    (hroom : a.size + count ≤ a.capacity) :
    ∃ a' ok, (dynarrayWrite a element count).map (·, true) = some (a', ok) ∧ a'.Inv ∧
      (ok = true → a'.elems = a.elems ++ elementsAt element a.elementSize count ∧
        a'.elementSize = a.elementSize) ∧ (ok = false → a' = a) := by
  obtain ⟨b, hb, hinv, helems, hes⟩ := h.write element hroom
  exact ⟨b, true, by rw [hb]; rfl, hinv, fun _ => ⟨helems, hes⟩, nofun⟩

theorem Dynarray.Inv.push (h : a.Inv) (element : Nat → UInt8) (mem : Alloc) :
    ∃ a' ok, dynarrayPush a (some element) mem = some (a', ok) ∧ a'.Inv ∧
      (ok = true → a'.elems = a.elems ++ elementsAt element a.elementSize 1 ∧
        a'.elementSize = a.elementSize) ∧ (ok = false → a' = a) := by
  unfold dynarrayPush
  dsimp only
  split
  case isTrue hfull =>
    split
    case isTrue => exact ⟨a, false, rfl, h, nofun, fun _ => rfl⟩
    case isFalse hgrown =>
      have hgt := (calculateGrowth_spec hgrown).1
      have hsize := h.size_le
      exact h.reserve_write mem element (by omega)
  case isFalse hroom => exact h.write_here element (by omega)

theorem Dynarray.Inv.pushN (h : a.Inv) (elements : Nat → UInt8) (count : Nat) (mem : Alloc) :
    ∃ a' ok, dynarrayPushN a (some elements) count mem = some (a', ok) ∧ a'.Inv ∧
      (ok = true → a'.elems = a.elems ++ elementsAt elements a.elementSize count ∧
        a'.elementSize = a.elementSize) ∧ (ok = false → a' = a) := by
  have hsize := h.size_le.trans h.capacity_le_sizeMax
  unfold dynarrayPushN
  dsimp only
  split
  case isTrue hzero =>
    subst hzero
    exact ⟨a, true, rfl, h, fun _ => ⟨by simp [elementsAt], rfl⟩, nofun⟩
  case isFalse =>
    split
    case isTrue => exact ⟨a, false, rfl, h, nofun, fun _ => rfl⟩
    case isFalse hguard =>
      rw [toSize_eq (by omega)]
      split
      case isTrue hfull =>
        split
        case isTrue => exact ⟨a, false, rfl, h, nofun, fun _ => rfl⟩
        case isFalse hgrown =>
          refine h.reserve_write mem elements ?_
          -- the growth loop ends at a capacity that is large enough
          unfold calculateGrowthFor at hgrown ⊢
          split at hgrown
          case isTrue => exact absurd rfl hgrown
          case isFalse hfits =>
            rw [if_neg hfits]
            exact (growthLoop_spec (Nat.le_of_not_lt hfits) h.capacity_le).1
      case isFalse hroom => exact h.write_here elements (Nat.le_of_not_lt hroom)

/-- The unchecked reallocation of `dynarray_pop` is to a size that has room for the elements
and does not wrap around. -/
theorem Dynarray.Inv.shrink (h : a.Inv) (mem : Alloc) :
    (dynarrayShrink a mem).Inv ∧ (dynarrayShrink a mem).elems = a.elems := by
  unfold dynarrayShrink
  split
  case isFalse => exact ⟨h, rfl⟩
  case isTrue hshrink =>
    cases mem with
    | none => exact ⟨h, rfl⟩
    | some junk =>
      dsimp only
      generalize hcap : (if a.capacity / dynarrayGrowthDenominator < dynarrayInitialCapacity then
        dynarrayInitialCapacity else a.capacity / dynarrayGrowthDenominator) = cap
      have hbounds : a.size ≤ cap ∧ cap ≤ a.capacity := by
        unfold dynarrayInitialCapacity dynarrayShrinkThreshold at hshrink
        unfold dynarrayInitialCapacity dynarrayGrowthDenominator at hcap
        split at hcap <;> omega
      exact h.resize hbounds.1 (h.offset_le_sizeMax hbounds.2) junk

/-- The list without its last element, and that element. -/
theorem Dynarray.elems_pred (hsize : a.size ≠ 0) :
    a.elems = chunks a.elementSize (a.size - 1) a.data ++
      [(a.data.drop ((a.size - 1) * a.elementSize)).take a.elementSize] := by
  rw [Dynarray.elems, ← chunks_one, ← chunks_add, Nat.sub_add_cancel (by omega)]

theorem Dynarray.Inv.pop (h : a.Inv) (wanted : Bool) (mem : Alloc) :
    ∃ a' r, a.apply (.pop wanted mem) = some (a', r) ∧ a.Step (.pop wanted mem) a' r := by
  have hlen := Dynarray.Inv.length_elems (a := a)
  by_cases hsize : a.size = 0
  · have hnil : a.elems = [] := List.length_eq_zero_iff.mp (hlen.trans hsize)
    refine ⟨a, ⟨false, none⟩, by simp [Dynarray.apply, dynarrayPop, hsize], h.refuse ?_⟩
    exact ⟨by simp [hnil], by simp [hnil]⟩
  · have hpred := Dynarray.elems_pred hsize
    have hle := h.size_le
    have hpopped : Dynarray.Inv { a with size := a.size - 1 } :=
      ⟨h.elementSize_pos, by dsimp only; omega, h.fits, h.block⟩
    obtain ⟨hinv, helems⟩ := hpopped.shrink mem
    have hoff := h.offset_le (n := a.size - 1 + 1) (by omega)
    rw [Nat.add_mul, Nat.one_mul] at hoff
    have hne : a.elems ≠ [] := by
      rw [hpred]
      simp
    have hstep : ∀ out, (wanted = true → out = a.elems.getLast?) →
        a.Step (.pop wanted mem) (dynarrayShrink { a with size := a.size - 1 } mem)
          ⟨true, out⟩ := by
      refine fun out hout => ⟨hinv, fun _ => ?_, nofun, by simp [hne], hout⟩
      rw [helems, listEffect, hpred, List.dropLast_concat]
      rfl
    unfold Dynarray.apply dynarrayPop
    dsimp only
    rw [if_neg hsize]
    cases wanted with
    | false => exact ⟨_, _, rfl, hstep none nofun⟩
    | true =>
      rw [if_pos rfl, toSize_eq (h.offset_le_sizeMax (by omega)), load_eq hoff]
      refine ⟨_, _, rfl, hstep _ fun _ => ?_⟩
      rw [hpred, List.getLast?_concat]

/-- An element in the middle of the array is replaced. -/
theorem chunks_set {size n i : Nat} {mem bytes : List UInt8} (hi : i < n)
    (hmem : n * size ≤ mem.length) (hbytes : bytes.length = size) :
    chunks size n (mem.take (i * size) ++ (bytes ++ mem.drop (i * size + size))) =
      (chunks size n mem).set i bytes := by
  obtain ⟨k, rfl⟩ : ∃ k, n = i + (1 + k) := ⟨n - i - 1, by omega⟩
  have hoff : (mem.take (i * size)).length = i * size := by
    rw [List.length_take]
    have := Nat.mul_le_mul_right size hi.le
    omega
  have hset : (chunks size (i + (1 + k)) mem).set i bytes =
      chunks size i mem ++ bytes :: chunks size k ((mem.drop (i * size)).drop size) := by
    rw [chunks_add, chunks_add size 1 k, chunks_one, Nat.one_mul,
      List.set_append_right _ _ (by simp), length_chunks, Nat.sub_self]
    rfl
  rw [hset, chunks_add, chunks_add size 1 k, chunks_one, Nat.one_mul, List.drop_left' hoff,
    List.take_left' hbytes, List.drop_left' hbytes, List.drop_drop]
  congr 1
  refine chunks_congr ?_
  rw [List.take_append_of_le_length hoff.ge, List.take_take, Nat.min_self]

theorem Dynarray.Inv.set (h : a.Inv) (index : Nat) (element : Pointer) :
    ∃ a' r, a.apply (.set index element) = some (a', r) ∧ a.Step (.set index element) a' r := by
  have hlen := Dynarray.Inv.length_elems (a := a)
  cases element with
  | none => exact ⟨a, ⟨false, none⟩, rfl, h.refuse (by simp [Dynarray.Returns])⟩
  | some element =>
    by_cases hindex : index ≥ a.size
    · refine ⟨a, ⟨false, none⟩, ?_, h.refuse (by simp [Dynarray.Returns, hlen, hindex])⟩
      simp [Dynarray.apply, dynarraySet, hindex]
    · have hlt : index < a.size := Nat.lt_of_not_le hindex
      have hle := h.size_le
      have hoff := h.offset_le (n := index + 1) (by omega)
      rw [Nat.add_mul, Nat.one_mul] at hoff
      have hfits : index * a.elementSize + (extent element a.elementSize).length ≤
          a.data.length := by
        rw [length_extent]
        exact hoff
      have hstore := store_eq hfits
      unfold Dynarray.apply dynarraySet
      dsimp only
      rw [if_neg hindex, toSize_eq (h.offset_le_sizeMax (by omega)), hstore]
      refine ⟨_, _, rfl, ⟨h.elementSize_pos, h.size_le, h.fits, ?_⟩, fun _ => ?_, nofun, ?_⟩
      · exact (length_store hstore).trans h.block
      · rw [length_extent]
        exact chunks_set hlt (h.offset_le hle) (length_extent _ _)
      · simp [Dynarray.Returns, hlen, hlt]

theorem dynarrayInit_inv {elementSize initialCapacity : Nat} {mem : Alloc} {a : Dynarray}
    (h : dynarrayInit elementSize initialCapacity mem = some a) : a.Inv ∧ a.elems = [] := by
  unfold dynarrayInit at h
  split at h
  case isTrue => cases h
  case isFalse hpos =>
    dsimp only at h
    generalize (if initialCapacity = 0 then dynarrayInitialCapacity else initialCapacity) = cap at h
    split at h
    case isTrue => cases h
    case isFalse hguard =>
      obtain ⟨junk, -, rfl⟩ := Option.map_eq_some_iff.mp h
      have hfits := mul_le_sizeMax (Nat.le_of_not_lt hguard)
      refine ⟨⟨Nat.pos_of_ne_zero hpos, Nat.zero_le _, hfits, ?_⟩, rfl⟩
      rw [length_extent, Nat.mul_comm, toSize_eq hfits]

theorem Dynarray.Inv.apply (h : a.Inv) (op : DynarrayOp) :
    ∃ a' r, a.apply op = some (a', r) ∧ a.Step op a' r := by
  cases op with
  | init elementSize initialCapacity mem =>
    rcases hinit : dynarrayInit elementSize initialCapacity mem with _ | a'
    · exact ⟨a, ⟨false, none⟩, by simp [Dynarray.apply, hinit], h.refuse trivial⟩
    · obtain ⟨hinv, hnil⟩ := dynarrayInit_inv hinit
      exact ⟨a', ⟨true, none⟩, by simp [Dynarray.apply, hinit], hinv, fun _ => hnil, nofun, trivial⟩
  | push element mem =>
    cases element with
    | none => exact ⟨a, ⟨false, none⟩, rfl, h.refuse trivial⟩
    | some element =>
      obtain ⟨a', ok, hpush, hinv, hok, hfailed⟩ := h.push element mem
      refine ⟨a', ⟨ok, none⟩, by simp [Dynarray.apply, hpush], hinv, fun ho => ?_, hfailed, trivial⟩
      rw [(hok ho).1]
      simp [listEffect, elementsAt]
  | pushN elements count mem =>
    cases elements with
    | none => exact ⟨a, ⟨false, none⟩, rfl, h.refuse trivial⟩
    | some elements =>
      obtain ⟨a', ok, hpush, hinv, hok, hfailed⟩ := h.pushN elements count mem
      exact ⟨a', ⟨ok, none⟩, by simp [Dynarray.apply, hpush], hinv, fun ho => (hok ho).1, hfailed,
        trivial⟩
  | pop wanted mem => exact h.pop wanted mem
  | set index element => exact h.set index element
  | reserve newCapacity mem =>
    rcases h.reserve newCapacity mem with hres | ⟨a', hres, hinv, helems, -⟩
    · exact ⟨a, ⟨false, none⟩, by simp [Dynarray.apply, hres], h.refuse trivial⟩
    · exact ⟨a', ⟨true, none⟩, by simp [Dynarray.apply, hres], hinv, fun _ => helems,
        nofun, trivial⟩
  | shrinkToFit mem =>
    unfold Dynarray.apply dynarrayShrinkToFit
    dsimp only
    rcases h.reserve (if a.size > dynarrayInitialCapacity then a.size else dynarrayInitialCapacity)
      mem with hres | ⟨a', hres, hinv, helems, -⟩
    · exact ⟨a, ⟨false, none⟩, by rw [hres], h.refuse trivial⟩
    · exact ⟨a', ⟨true, none⟩, by rw [hres], hinv, fun _ => helems, nofun, trivial⟩
  | clear =>
    exact ⟨_, _, rfl, ⟨h.elementSize_pos, Nat.zero_le _, h.fits, h.block⟩, fun _ => rfl, nofun, rfl⟩

/-! ## Runs -/

theorem reach_inv (h : Reach dynarrays AnyStep a) : a.Inv := by
  refine h.invariant Dynarray.Inv ?_ ?_
  · rintro a ⟨elementSize, initialCapacity, mem, hinit⟩
    exact (dynarrayInit_inv hinit).1
  · rintro a op a' hinv - ⟨r, hstep⟩
    obtain ⟨a'', r', hstep', hspec⟩ := hinv.apply op
    obtain ⟨rfl, rfl⟩ : a'' = a' ∧ r' = r := by simpa [hstep] using hstep'.symm
    exact hspec.inv

/-- Calls of `dynarray_push` that all succeed append their elements. -/
theorem pushEach_elems {elements : Nat → UInt8} {mem : Nat → Alloc} {i count : Nat}
    {a' : Dynarray} (h : a.Inv) (hpush : pushEach elements mem a i count = some (a', true)) :
    a'.elems = a.elems ++ elementsAt (fun b => elements (i * a.elementSize + b))
      a.elementSize count := by
  induction count generalizing a i with
  | zero =>
    obtain rfl : a = a' := by simpa [pushEach] using hpush
    simp [elementsAt]
  | succ count ih =>
    obtain ⟨b, ok, hb, hinv, hok, -⟩ :=
      h.push (fun b => elements (i * a.elementSize + b)) (mem i)
    rw [pushEach, hb] at hpush
    cases ok with
    | false => simp at hpush
    | true =>
      obtain ⟨helems, hes⟩ := hok rfl
      rw [ih hinv hpush, helems, hes, List.append_assoc]
      congr 1
      rw [elementsAt, elementsAt, elementsAt, Nat.add_comm count 1, List.range_add,
        List.map_append, List.map_map]
      congr 1
      refine List.map_congr_left fun j _ => congrArg (extent · _) (funext fun b => ?_)
      simp only [Nat.add_mul, Nat.one_mul, Nat.add_assoc, Nat.add_left_comm]

/-- Arrays refine lists in every run, whatever allocations fail: the block has the size that the
capacity says, every call stays inside it and has its effect on the list or fails without any,
and `dynarray_push_n` appends what as many calls of `dynarray_push` append. -/
theorem dynarray_refines_list (h : Reach dynarrays AnyStep a) :
    a.Inv ∧ a.elems.length = a.size ∧
      (∀ op, ∃ a' r, a.apply op = some (a', r) ∧ a.Step op a' r) ∧
      ∀ elements count mem mems a₁ a₂,
        dynarrayPushN a (some elements) count mem = some (a₁, true) →
        pushEach elements mems a 0 count = some (a₂, true) → a₁.elems = a₂.elems := by
  have hinv := reach_inv h
  refine ⟨hinv, Dynarray.Inv.length_elems, hinv.apply, ?_⟩
  intro elements count mem mems a₁ a₂ hbatch heach
  obtain ⟨b, ok, hb, -, hok, -⟩ := hinv.pushN elements count mem
  obtain ⟨rfl, rfl⟩ : b = a₁ ∧ ok = true := by simpa [hb] using hbatch
  rw [(hok rfl).1, pushEach_elems hinv heach]
  simp

theorem dynarray_refines_list_fresh : ∃ a : Dynarray, Reach dynarrays AnyStep a ∧
    a.capacity = 8 ∧ a.elementSize = 4 ∧ a.data.length = a.capacity * a.elementSize ∧
    a.elems = [] ∧ ∃ a' r, a.apply (.push (some fun _ => 7) none) = some (a', r) ∧
      r.ok = true ∧ a'.elems = [[7, 7, 7, 7]] := by
  have hreach : Reach dynarrays AnyStep ⟨extent (fun _ => 0) 32, 0, 8, 4⟩ :=
    .init ⟨4, 0, some fun _ => 0, rfl⟩
  obtain ⟨hinv, -, happly, -⟩ := dynarray_refines_list hreach
  obtain ⟨a', r, hstep, hspec⟩ := happly (.push (some fun _ => 7) none)
  have hok : r.ok = true := by
    cases hstep
    rfl
  exact ⟨_, hreach, rfl, rfl, hinv.block, rfl, a', r, hstep, hok, hspec.effect hok⟩

end Solidc.Containers
