import Mathlib.Data.Rat.Defs
import Mathlib.Algebra.Order.Ring.Rat
import Solidc.Lib.Bits
import Solidc.Lib.RobinHood

/-! # The Robin Hood map (`map.c`)

Slots are read through three arrays: `keys` and `vals` are the even and odd
positions of `keys_values` (`none` is the `NULL` pointer), `deleted` holds the
distance of each element from its initial bucket. The hash takes the key and the
length the caller passes with it; the map stores no lengths. Load factors are exact
rationals, allocations succeed, and the optional `key_free` and `value_free`
callbacks, which touch neither the table nor the results, are left out.
-/

namespace Solidc.Map

open CLib

/-- `SIZE_MAX`. -/
def sizeMax : Nat := 2 ^ 64 - 1

/-- `MIN_CAPACITY`. -/
def minCapacity : Nat := 8

/-- `INITIAL_MAP_SIZE`. -/
def initialMapSize : Nat := 16

/-- `DEFAULT_MAX_LOAD_FACTOR`, `0.75f`. -/
def defaultMaxLoadFactor : ℚ := 3 / 4

/-- The value of the literal `0.1f`. -/
def loadFactorFloor : ℚ := 13421773 / 134217728

/-- The value of the literal `0.95f`. -/
def loadFactorCeil : ℚ := 15938355 / 16777216

/-- The two callbacks of a map: `HashFunction` and `KeyCmpFunction`. -/
structure MapFns (K : Type*) where
  hash : K → Nat → Nat
  keyCompare : K → K → Bool

/-- `struct hash_map`, less the callbacks and the lock. -/
structure HashMap (K V : Type*) where
  keys : Nat → Option K
  vals : Nat → Option V
  deleted : Nat → Nat
  size : Nat
  capacity : Nat
  maxLoadFactor : ℚ

variable {K V : Type*} (F : MapFns K)

/-- `next_power_of_two`. -/
def nextPowerOfTwo (n : Nat) : Nat :=
  if n = 0 then 1 else (smear64 (n - 1) + 1) % 2 ^ 64

/-- `calculate_new_capacity`. -/
def calculateNewCapacity (current : Nat) : Nat :=
  if sizeMax / 2 < current then sizeMax
  else if current * 2 % 2 ^ 64 < current then sizeMax
  else current * 2 % 2 ^ 64

/-- `map_create`, on the configuration's `initial_capacity` and `max_load_factor`. -/
def mapCreate (initialCapacity : Nat) (maxLoadFactor : ℚ) : Option (HashMap K V) :=
  let capacity := max minCapacity
    (if 0 < initialCapacity then nextPowerOfTwo initialCapacity else initialMapSize)
  if sizeMax / 2 < capacity then none
  else some {
    keys := fun _ => none
    vals := fun _ => none
    deleted := fun _ => 0
    size := 0
    capacity := capacity
    maxLoadFactor :=
      if loadFactorFloor < maxLoadFactor ∧ maxLoadFactor ≤ loadFactorCeil then maxLoadFactor
      else defaultMaxLoadFactor }

/-- Write all three fields of a slot. -/
def HashMap.put (m : HashMap K V) (idx : Nat) (key : Option K) (val : Option V) (dib : Nat) :
    HashMap K V :=
  { m with keys := Function.update m.keys idx key,
           vals := Function.update m.vals idx val,
           deleted := Function.update m.deleted idx dib }

/-- The insertion loop of `map_resize`. An element that finds no place within
`new_capacity` probes is dropped. -/
def resizeInsert : Nat → HashMap K V → K → Option V → Nat → Nat → HashMap K V
  | 0, m, _, _, _, _ => m
  | fuel + 1, m, insKey, insValue, insDist, idx =>
    match m.keys idx with
    | none => { m.put idx (some insKey) insValue insDist with size := m.size + 1 }
    | some curKey =>
      -- the poorer element takes the slot, and the richer one moves on
      if m.deleted idx < insDist then
        resizeInsert fuel (m.put idx (some insKey) insValue insDist) curKey (m.vals idx)
          (m.deleted idx + 1) ((idx + 1) &&& (m.capacity - 1))
      else
        resizeInsert fuel m insKey insValue (insDist + 1) ((idx + 1) &&& (m.capacity - 1))

/-- The new arrays of `map_resize` after the first `i` old slots. Every old key is
hashed with the `key_len` of the call that triggered the growth. -/
def resizeLoop (m : HashMap K V) (newCapacity keyLen : Nat) : Nat → HashMap K V
  | 0 => { m with keys := fun _ => none, vals := fun _ => none, deleted := fun _ => 0,
                  size := 0, capacity := newCapacity }
  | i + 1 =>
    let t := resizeLoop m newCapacity keyLen i
    match m.keys i with
    | none => t
    | some insKey =>
      resizeInsert newCapacity t insKey (m.vals i) 0 (F.hash insKey keyLen &&& (newCapacity - 1))

/-- `map_resize`. -/
def mapResize (m : HashMap K V) (newCapacity keyLen : Nat) : HashMap K V × Bool :=
  if newCapacity ≤ m.capacity ∨ sizeMax / 2 < newCapacity then (m, false)
  else (resizeLoop F m newCapacity keyLen m.capacity, true)

/-- `map_length`. -/
def mapLength (m : HashMap K V) : Nat := m.size

/-- The probing loop of `map_set`. -/
def setLoop : Nat → HashMap K V → K → Option V → Nat → Nat → HashMap K V × Bool
  | 0, m, _, _, _, _ => (m, false)
  | fuel + 1, m, insKey, insValue, insDist, idx =>
    match m.keys idx with
    | none => ({ m.put idx (some insKey) insValue insDist with size := m.size + 1 }, true)
    | some curKey =>
      -- the key carried is compared also after a displacement
      if F.keyCompare curKey insKey then
        ({ m with vals := Function.update m.vals idx insValue }, true)
      else if m.deleted idx < insDist then
        setLoop fuel (m.put idx (some insKey) insValue insDist) curKey (m.vals idx)
          (m.deleted idx + 1) ((idx + 1) &&& (m.capacity - 1))
      else
        setLoop fuel m insKey insValue (insDist + 1) ((idx + 1) &&& (m.capacity - 1))

/-- The load test that starts `map_set`. -/
def mustGrow (m : HashMap K V) : Prop := m.maxLoadFactor ≤ (m.size : ℚ) / (m.capacity : ℚ)

instance (m : HashMap K V) : Decidable (mustGrow m) := inferInstanceAs (Decidable (_ ≤ _))

/-- `map_set`. -/
def mapSet (m : HashMap K V) (key : K) (keyLen : Nat) (value : Option V) : HashMap K V × Bool :=
  let grown :=
    if mustGrow m then
      let newCap := calculateNewCapacity m.capacity
      if newCap ≤ m.capacity then (m, false) else mapResize F m newCap keyLen
    else (m, true)
  if grown.2 then
    setLoop F grown.1.capacity grown.1 key value 0
      (F.hash key keyLen &&& (grown.1.capacity - 1))
  else (grown.1, false)

/-- The loop that `map_get` and `map_remove` share: probe until the key, an empty
slot, or an element nearer its home than the walk is long. -/
def locateLoop (m : HashMap K V) (key : K) : Nat → Nat → Nat → Option Nat
  | 0, _, _ => none
  | fuel + 1, dist, idx =>
    match m.keys idx with
    | none => none
    | some curKey =>
      if m.deleted idx < dist then none
      else if F.keyCompare curKey key then some idx
      else locateLoop m key fuel (dist + 1) ((idx + 1) &&& (m.capacity - 1))

/-- `map_get`. -/
def mapGet (m : HashMap K V) (key : K) (keyLen : Nat) : Option V :=
  match locateLoop F m key m.capacity 0 (F.hash key keyLen &&& (m.capacity - 1)) with
  | none => none
  | some pos => m.vals pos

/-- The backward-shift loop of `map_remove`, which has no counter in the source:
`none` if `fuel` turns do not end it. -/
def shiftLoop : Nat → HashMap K V → Nat → Option (HashMap K V × Nat)
  | 0, _, _ => none
  | fuel + 1, m, hole =>
    let next := (hole + 1) &&& (m.capacity - 1)
    if m.keys next = none ∨ m.deleted next = 0 then some (m, hole)
    else shiftLoop fuel (m.put hole (m.keys next) (m.vals next) (m.deleted next - 1)) next

/-- `map_remove`. -/
def mapRemove (m : HashMap K V) (key : K) (keyLen : Nat) : Option (HashMap K V × Bool) :=
  match locateLoop F m key m.capacity 0 (F.hash key keyLen &&& (m.capacity - 1)) with
  | none => some (m, false)
  | some pos =>
    (shiftLoop m.capacity m pos).map fun p =>
      ({ p.1.put p.2 none none 0 with size := p.1.size - 1 }, true)

/-- `map_next`: the entry at or after `index`, and the next index. -/
def mapNext (m : HashMap K V) : Nat → Nat → Option (K × Option V × Nat)
  | 0, _ => none
  | fuel + 1, index =>
    if index < m.capacity then
      match m.keys index with
      | some key => some (key, m.vals index, index + 1)
      | none => mapNext m fuel (index + 1)
    else none

/-- `map_iter` followed by `map_next` until it returns false, from `index` on. -/
def iterateFrom (m : HashMap K V) : Nat → Nat → List (K × Option V)
  | 0, _ => []
  | fuel + 1, index =>
    match mapNext m (m.capacity - index) index with
    | none => []
    | some (key, val, index') => (key, val) :: iterateFrom m fuel index'

/-- Everything the iterator enumerates. -/
def mapEntries (m : HashMap K V) : List (K × Option V) :=
  iterateFrom m (m.capacity + 1) 0

end Solidc.Map
