import Solidc.Lib.Probe

/-! # The hash set (`hashset.h`)

A flat open-addressed table with one metadata byte a slot and inline keys. Arrays
are functions of the index; `K` is the type of key blocks (`key_size` bytes), and
`F` packs the set's `hash_fn` and `equals_fn`, which never change. Fresh key
memory holds whatever `malloc` left there (`junk`).

The two `while` loops of the source have no counter of their own; here they run
on fuel, and `none` means that the loop never ends. Allocations succeed.
-/

namespace Solidc.Hashset

open CLib

/-- `HASHSET_DEFAULT_CAPACITY`. -/
def defaultCapacity : Nat := 16

/-- `_HS_EMPTY`. -/
def hsEmpty : Nat := 0x00

/-- `_HS_DELETED`. -/
def hsDeleted : Nat := 0x01

/-- `_HS_FINGERPRINT`: a byte whose bit 1 is set. -/
def fingerprint (h : Nat) : Nat := ((h >>> 7) ||| 0x02) % 256

/-- `hashset_t`, less the function pointers. -/
structure HashSet (K : Type*) where
  slotMeta : Nat → Nat
  keys : Nat → K
  capacity : Nat
  size : Nat

variable {K : Type*} (F : HashedKey K) (junk : Nat → K)

/-- `_hs_slot`. -/
def hsSlot (base i mask : Nat) : Nat := (base + i) &&& mask

/-- `while (cap < initial_capacity) cap <<= 1;` on a `size_t`. -/
def roundUp (initialCapacity : Nat) : Nat → Nat → Option Nat
  | 0, _ => none
  | fuel + 1, cap =>
    if cap < initialCapacity then roundUp initialCapacity fuel ((cap <<< 1) % 2 ^ 64)
    else some cap

/-- `hashset_create`. Sixty shifts clear a `size_t`, after which the rounding
loop never leaves zero. -/
def hashsetCreate (keySize initialCapacity : Nat) : Option (HashSet K) :=
  if keySize = 0 then none
  else (roundUp initialCapacity 64 defaultCapacity).map fun cap =>
    { slotMeta := fun _ => hsEmpty, keys := junk, capacity := cap, size := 0 }

/-- The probing loop of `hashset_contains`. -/
def containsLoop (s : HashSet K) (fp : Nat) (key : K) : Nat → Nat → Bool
  | 0, _ => false
  | fuel + 1, idx =>
    if s.slotMeta idx = hsEmpty then false
    else if s.slotMeta idx ≠ hsDeleted ∧ s.slotMeta idx = fp ∧ F.equals (s.keys idx) key then true
    else containsLoop s fp key fuel (hsSlot idx 1 (s.capacity - 1))

/-- `hashset_contains`. -/
def hashsetContains (s : HashSet K) (key : K) : Bool :=
  containsLoop F s (fingerprint (F.hash key)) key s.capacity (F.hash key &&& (s.capacity - 1))

/-- `while (new_meta[idx] != _HS_EMPTY) idx = (idx + 1) & mask;` -/
def probeEmpty (slotMeta : Nat → Nat) (mask : Nat) : Nat → Nat → Option Nat
  | 0, _ => none
  | fuel + 1, idx =>
    if slotMeta idx ≠ hsEmpty then probeEmpty slotMeta mask fuel ((idx + 1) &&& mask)
    else some idx

/-- Write a key and its fingerprint into a slot. -/
def HashSet.put (s : HashSet K) (idx fp : Nat) (key : K) : HashSet K :=
  { s with slotMeta := Function.update s.slotMeta idx fp,
           keys := Function.update s.keys idx key }

/-- The new table of `_hs_rehash` after the first `i` old slots have been moved. -/
def rehashLoop (s : HashSet K) (newCap : Nat) : Nat → Option (HashSet K)
  | 0 => some { slotMeta := fun _ => hsEmpty, keys := junk, capacity := newCap, size := s.size }
  | i + 1 =>
    (rehashLoop s newCap i).bind fun t =>
    if s.slotMeta i < 0x02 then some t
    else
      (probeEmpty t.slotMeta (newCap - 1) newCap (F.hash (s.keys i) &&& (newCap - 1))).map fun idx =>
        t.put idx (fingerprint (F.hash (s.keys i))) (s.keys i)

/-- `_hs_rehash`. -/
def hsRehash (s : HashSet K) (newCap : Nat) : Option (HashSet K) :=
  rehashLoop F junk s newCap s.capacity

/-- The probing loop of `hashset_add`; `firstDel` is the first tombstone seen. -/
def addLoop (s : HashSet K) (fp : Nat) (key : K) : Nat → Nat → Option Nat → HashSet K × Bool
  | 0, _, firstDel =>
    match firstDel with
    | some del => ({ s.put del fp key with size := s.size + 1 }, true)
    -- no empty slot and no tombstone: the set is full
    | none => (s, false)
  | fuel + 1, idx, firstDel =>
    if s.slotMeta idx = hsEmpty then
      ({ s.put (firstDel.getD idx) fp key with size := s.size + 1 }, true)
    else if s.slotMeta idx = hsDeleted then
      addLoop s fp key fuel (hsSlot idx 1 (s.capacity - 1)) (firstDel.or (some idx))
    else if s.slotMeta idx = fp ∧ F.equals (s.keys idx) key then (s, true)
    else addLoop s fp key fuel (hsSlot idx 1 (s.capacity - 1)) firstDel

/-- `(double)(size + 1) / (double)capacity > 0.75`: the quotient by a power of two
is exact. -/
def overloaded (s : HashSet K) : Prop := 3 * s.capacity < 4 * (s.size + 1)

instance (s : HashSet K) : Decidable (overloaded s) := inferInstanceAs (Decidable (_ < _))

/-- `hashset_add`. -/
def hashsetAdd (s : HashSet K) (key : K) : Option (HashSet K × Bool) :=
  (if overloaded s then hsRehash F junk s (s.capacity * 2) else some s).map fun s =>
    addLoop F s (fingerprint (F.hash key)) key s.capacity
      (F.hash key &&& (s.capacity - 1)) none

/-- The first loop of `hashset_remove`. -/
def locateLoop (s : HashSet K) (fp : Nat) (key : K) : Nat → Nat → Option Nat
  | 0, _ => none
  | fuel + 1, idx =>
    if s.slotMeta idx = hsEmpty then none
    else if s.slotMeta idx ≠ hsDeleted ∧ s.slotMeta idx = fp ∧ F.equals (s.keys idx) key then
      some idx
    else locateLoop s fp key fuel (hsSlot idx 1 (s.capacity - 1))

/-- The backward shift of `hashset_remove`, with its two cursors. The unsigned
differences wrap modulo `2 ^ 64`, which the mask of a smaller power of two hides. -/
def shiftLoop (s : HashSet K) : Nat → Nat → Nat → HashSet K × Nat
  | 0, hole, _ => (s, hole)
  | fuel + 1, hole, scanIdx =>
    if s.slotMeta scanIdx < 0x02 then (s, hole)
    else
      let mask := s.capacity - 1
      let sNat := F.hash (s.keys scanIdx) &&& mask
      let dScan := (scanIdx + s.capacity - sNat) &&& mask
      let dHole := (hole + s.capacity - sNat) &&& mask
      if dHole < dScan then
        shiftLoop (s.put hole (s.slotMeta scanIdx) (s.keys scanIdx)) fuel scanIdx
          ((scanIdx + 1) &&& mask)
      else shiftLoop s fuel hole ((scanIdx + 1) &&& mask)

/-- `hashset_remove`. -/
def hashsetRemove (s : HashSet K) (key : K) : HashSet K × Bool :=
  match locateLoop F s (fingerprint (F.hash key)) key s.capacity
      (F.hash key &&& (s.capacity - 1)) with
  | none => (s, false)
  | some pos =>
    let (t, hole) := shiftLoop F s (s.capacity - 1) pos ((pos + 1) &&& (s.capacity - 1))
    ({ t with slotMeta := Function.update t.slotMeta hole hsEmpty, size := t.size - 1 }, true)

/-- `hashset_clear`. -/
def hashsetClear (s : HashSet K) : HashSet K :=
  { s with slotMeta := fun _ => hsEmpty, size := 0 }

/-- `hashset_size`. -/
def hashsetSize (s : HashSet K) : Nat := s.size

/-! ## Runs -/

/-- The calls that change a set. -/
inductive Op (K : Type*) where
  | add (key : K)
  | remove (key : K)
  | clear

/-- One call; `none` if it never returns. -/
def step (s : HashSet K) : Op K → Option (HashSet K)
  | .add key => (hashsetAdd F junk s key).map Prod.fst
  | .remove key => some (hashsetRemove F s key).1
  | .clear => some (hashsetClear s)

/-- A sequence of calls. -/
def run (s : HashSet K) (ops : List (Op K)) : Option (HashSet K) :=
  ops.foldlM (step F junk) s

end Solidc.Hashset
