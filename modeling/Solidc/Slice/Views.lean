import Solidc.Lib.Buffer
import Solidc.Lib.Transition
import Mathlib.Algebra.Ring.Nat
import Mathlib.Algebra.Ring.Int.Defs

/-! # Slices

`StrSlice` of `str_slice.h`: an address and a number of bytes, and the calls that derive a slice
from another one. The bound of `ss_slice` is tested on a sum of type `size_t`, which may wrap.

* `slicedRight_iff` — when `ss_slice` accepts what lies inside of the slice and nothing else;
* `Reach.within` — a chain of calls that do not wrap into the slice stays inside of it;
* `slice_bounds` — both.
-/

namespace Solidc.Slice

open CLib

/-! ## The code -/

/-- The value of an expression of type `size_t`. -/
def toSize (n : Nat) : Nat := n % 2 ^ 64

inductive StrSliceErr where
  | ok | null | bounds | notFound | overflow | invalid
deriving DecidableEq

/-- `StrSlice`, with the address of its first byte; 0 is NULL. -/
structure StrSlice where
  data : Nat
  len : Nat
deriving DecidableEq

def ssEmpty : StrSlice := ⟨0, 0⟩

def ssIsValid (s : StrSlice) : Bool := s.len = 0 || s.data ≠ 0

/-- `ss_slice`, with what it writes to `*err`. -/
def ssSlice (s : StrSlice) (start len : Nat) : StrSlice × StrSliceErr :=
  if ssIsValid s = false then (ssEmpty, .null)
  else if toSize (start + len) > s.len then (ssEmpty, .bounds)
  else (⟨toSize (s.data + start), len⟩, .ok)

def ssSkip (s : StrSlice) (n : Nat) : StrSlice :=
  if n ≥ s.len then ssEmpty else ⟨toSize (s.data + n), s.len - n⟩

def ssTake (s : StrSlice) (n : Nat) : StrSlice := ⟨s.data, if n > s.len then s.len else n⟩

/-- A call that derives a slice. -/
inductive SliceOp where
  | slice (start len : Nat)
  | skip (n : Nat)
  | take (n : Nat)

def SliceOp.apply (s : StrSlice) : SliceOp → StrSlice
  | .slice start len => (ssSlice s start len).1
  | .skip n => ssSkip s n
  | .take n => ssTake s n

/-- The slices that a chain of calls derives from `s`. -/
def derived (s : StrSlice) : System StrSlice SliceOp where
  init s' := s' = s
  step s' op s'' := s'' = op.apply s'

/-! ## What a slice covers -/

variable {s s' : StrSlice} {start len : Nat}

namespace StrSlice

/-- The bytes of a slice in memory. -/
def bytes (mem : Nat → UInt8) (s : StrSlice) : List UInt8 :=
  extent (fun i => mem (s.data + i)) s.len

/-- A valid slice; its bytes are part of an object, which ends before the addresses do. -/
structure Sound (s : StrSlice) : Prop where
  valid : ssIsValid s = true
  fits : s.data + s.len < 2 ^ 64

/-- It covers no byte that `s` does not. -/
def Within (s' s : StrSlice) : Prop :=
  s'.len = 0 ∨ s.data ≤ s'.data ∧ s'.data + s'.len ≤ s.data + s.len

theorem isValid_iff : ssIsValid s = true ↔ s.len = 0 ∨ s.data ≠ 0 := by
  simp [ssIsValid]

theorem Within.rfl : s.Within s := .inr ⟨Nat.le_refl _, Nat.le_refl _⟩

theorem Within.trans {s'' : StrSlice} (h : s''.Within s') (h' : s'.Within s) : s''.Within s := by
  unfold Within at *
  omega

theorem Sound.empty : ssEmpty.Sound := ⟨Eq.refl true, by decide⟩

theorem Within.empty : ssEmpty.Within s := .inl (Eq.refl 0)

/-- A part of a slice. -/
theorem Sound.part (h : s.Sound) (hle : start + len ≤ s.len) :
    (⟨s.data + start, len⟩ : StrSlice).Sound ∧ (⟨s.data + start, len⟩ : StrSlice).Within s := by
  have hfits := h.fits
  have hvalid := isValid_iff.mp h.valid
  refine ⟨⟨isValid_iff.mpr ?_, ?_⟩, ?_⟩
  · dsimp only
    omega
  · dsimp only
    omega
  · unfold Within
    dsimp only
    omega

theorem bytes_part (mem : Nat → UInt8) (hle : start + len ≤ s.len) :
    (⟨s.data + start, len⟩ : StrSlice).bytes mem = ((s.bytes mem).drop start).take len := by
  have hsplit : s.len = start + (len + (s.len - (start + len))) := by omega
  have hpart : (fun i => mem (s.data + start + i)) = fun i => mem (s.data + (start + i)) := by
    funext i
    rw [Nat.add_assoc]
  rw [bytes, bytes, hsplit, extent_add, extent_add, List.drop_left' (length_extent _ _),
    List.take_left' (length_extent _ _), hpart]

end StrSlice

open StrSlice

/-! ## One call -/

/-- The call accepts a range inside of the slice and gives a view of its bytes, and it refuses every
other one. -/
def SlicedRight (s : StrSlice) (start len : Nat) : Prop :=
  if start ≤ s.len ∧ len ≤ s.len - start then
    ssSlice s start len = (⟨s.data + start, len⟩, .ok) ∧
      ∀ mem, (ssSlice s start len).1.bytes mem = ((s.bytes mem).drop start).take len
  else ssSlice s start len = (ssEmpty, .bounds)

/-- The sum of the two numbers does not wrap into the slice. -/
def NoWrap (s : StrSlice) (start len : Nat) : Prop :=
  start + len < 2 ^ 64 ∨ s.len < start + len - 2 ^ 64

theorem ssSlice_of_fits (hs : s.Sound) (hle : start + len ≤ s.len) :
    ssSlice s start len = (⟨s.data + start, len⟩, .ok) := by
  have hfits := hs.fits
  have hvalid : ¬ ssIsValid s = false := by rw [hs.valid]; decide
  have hsum : toSize (start + len) = start + len := Nat.mod_eq_of_lt (by omega)
  have haddr : toSize (s.data + start) = s.data + start := Nat.mod_eq_of_lt (by omega)
  rw [ssSlice, if_neg hvalid, hsum, if_neg (by omega), haddr]

theorem ssSlice_of_gt (hs : s.Sound) (hgt : s.len < toSize (start + len)) :
    ssSlice s start len = (ssEmpty, .bounds) := by
  have hvalid : ¬ ssIsValid s = false := by rw [hs.valid]; decide
  rw [ssSlice, if_neg hvalid, if_pos hgt]

/-- Where the sum wraps into the slice the call accepts what it should refuse. -/
theorem ssSlice_of_wrap (hs : s.Sound) (hle : toSize (start + len) ≤ s.len) :
    (ssSlice s start len).2 = .ok := by
  have hvalid : ¬ ssIsValid s = false := by rw [hs.valid]; decide
  rw [ssSlice, if_neg hvalid, if_neg (Nat.not_lt_of_le hle)]

theorem slicedRight_iff (hs : s.Sound) (hstart : start < 2 ^ 64) (hlen : len < 2 ^ 64) :
    SlicedRight s start len ↔ NoWrap s start len := by
  have hfits := hs.fits
  unfold SlicedRight NoWrap
  by_cases hin : start ≤ s.len ∧ len ≤ s.len - start
  · have hle : start + len ≤ s.len := by omega
    have hslice := ssSlice_of_fits hs hle
    rw [if_pos hin, hslice]
    exact iff_of_true ⟨rfl, fun mem => bytes_part mem hle⟩ (.inl (by omega))
  · rw [if_neg hin]
    rcases Nat.lt_or_ge (start + len) (2 ^ 64) with hsmall | hlarge
    · have hsum : toSize (start + len) = start + len := Nat.mod_eq_of_lt hsmall
      exact iff_of_true (ssSlice_of_gt hs (by rw [hsum]; omega)) (.inl hsmall)
    · have hsum : toSize (start + len) = start + len - 2 ^ 64 := by
        rw [toSize, Nat.mod_eq_sub_mod hlarge, Nat.mod_eq_of_lt (by omega)]
      constructor
      · intro hbounds
        refine .inr (Nat.lt_of_not_le fun hle => ?_)
        have hok := ssSlice_of_wrap hs (hsum ▸ hle)
        rw [hbounds] at hok
        cases hok
      · rintro (hsmall | hgt)
        · exact absurd hsmall (Nat.not_lt_of_le hlarge)
        · exact ssSlice_of_gt hs (by rw [hsum]; exact hgt)

/-! ## Chains of calls -/

/-- The numbers of a call are values of type `size_t`, and their sum does not wrap into the
slice. -/
def Clean (s : StrSlice) : SliceOp → Prop
  | .slice start len => start < 2 ^ 64 ∧ len < 2 ^ 64 ∧ NoWrap s start len
  | .skip _ | .take _ => True

/-- One call. -/
theorem SliceOp.apply_within (hs : s.Sound) {op : SliceOp} (hclean : Clean s op) :
    (op.apply s).Sound ∧ (op.apply s).Within s := by
  have hfits := hs.fits
  cases op with
  | slice start len =>
    obtain ⟨hstart, hlen, hwrap⟩ := hclean
    have hright := (slicedRight_iff hs hstart hlen).mpr hwrap
    unfold SlicedRight at hright
    rw [SliceOp.apply]
    split at hright
    · next hin =>
      rw [hright.1]
      exact hs.part (by omega)
    · rw [hright]
      exact ⟨.empty, .empty⟩
  | skip n =>
    rw [SliceOp.apply, ssSkip]
    split
    · exact ⟨.empty, .empty⟩
    · next hlt =>
      have haddr : toSize (s.data + n) = s.data + n := Nat.mod_eq_of_lt (by omega)
      rw [haddr]
      exact hs.part (by omega)
  | take n =>
    have hpart := hs.part (by split <;> omega :
      0 + (if n > s.len then s.len else n) ≤ s.len)
    exact hpart

theorem Reach.within (hs : s.Sound) (h : Reach (derived s) Clean s') : s'.Sound ∧ s'.Within s := by
  refine h.invariant (fun s' => s'.Sound ∧ s'.Within s) ?_ ?_
  · rintro _ rfl
    exact ⟨hs, .rfl⟩
  · rintro t op _ ⟨hsound, hwithin⟩ hclean rfl
    obtain ⟨hsound', hwithin'⟩ := op.apply_within hsound hclean
    exact ⟨hsound', hwithin'.trans hwithin⟩

/-- `ss_slice` does on a valid slice what it should exactly where the sum of its two numbers does
not wrap into the slice; and what a chain of calls derives covers no byte outside of the original
when that is so for all calls of `ss_slice` in it. -/
theorem slice_bounds (hs : s.Sound) :
    (∀ start < 2 ^ 64, ∀ len < 2 ^ 64, SlicedRight s start len ↔ NoWrap s start len) ∧
      ∀ s', Reach (derived s) Clean s' → s'.Within s :=
  ⟨fun _ hstart _ hlen => slicedRight_iff hs hstart hlen, fun _ h => (Reach.within hs h).2⟩

/-- Three bytes, a part of them, and a part of that. -/
theorem slice_bounds_part :
    SlicedRight ⟨4096, 3⟩ 1 2 ∧ (⟨4098, 1⟩ : StrSlice).Within ⟨4096, 3⟩ := by
  have hs : (⟨4096, 3⟩ : StrSlice).Sound := ⟨rfl, by decide⟩
  obtain ⟨hone, hchain⟩ := slice_bounds hs
  refine ⟨(hone 1 (by decide) 2 (by decide)).mpr (.inl (by decide)), hchain _ ?_⟩
  have hinit : Reach (derived ⟨4096, 3⟩) Clean ⟨4096, 3⟩ := .init rfl
  have hslice : Reach (derived ⟨4096, 3⟩) Clean ⟨4097, 2⟩ :=
    hinit.step (a := .slice 1 2) ⟨by decide, by decide, .inl (by decide)⟩ rfl
  exact hslice.step (a := .skip 1) trivial rfl

/-- The byte in front of three: the sum of `SIZE_MAX` and 1 is 0. -/
theorem slice_in_front : (⟨4096, 3⟩ : StrSlice).Sound ∧
    ssSlice ⟨4096, 3⟩ (2 ^ 64 - 1) 1 = (⟨4095, 1⟩, .ok) ∧
    ¬ SlicedRight ⟨4096, 3⟩ (2 ^ 64 - 1) 1 ∧ ¬ (⟨4095, 1⟩ : StrSlice).Within ⟨4096, 3⟩ := by
  refine ⟨⟨rfl, by decide⟩, by decide, fun h => ?_, ?_⟩
  · have hbounds : ssSlice ⟨4096, 3⟩ (2 ^ 64 - 1) 1 = (ssEmpty, .bounds) := h
    exact absurd hbounds (by decide)
  · unfold Within
    decide

end Solidc.Slice
