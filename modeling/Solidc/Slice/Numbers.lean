import Solidc.Lib.CNumber
import Solidc.Lib.Signed
import Solidc.Slice.Views
import Mathlib.Algebra.Ring.Nat
import Mathlib.Algebra.Ring.Int.Defs

/-! # Slices to integers

`ss_to_int` on the bytes of a slice. Every step of its arithmetic is checked: a value means that no
unsigned operation has wrapped, and that no signed one is undefined.

* `accumulate_eq` — the loop gives the value of the digits, as long as that is an `unsigned int`;
* `ssToInt_eq` — what the call returns, and what it writes, on every slice.
-/

namespace Solidc.Slice

open CLib

/-! ## The code -/

/-- The result of an operation on `unsigned int`s, where it does not wrap. -/
def checkedUnsigned (n : Int) : Option Nat := if 0 ≤ n ∧ n < 2 ^ 32 then some n.toNat else none

def uintMax : Nat := 2 ^ 32 - 1
def intMax : Nat := 2 ^ 31 - 1
def intMin : Int := -2 ^ 31

/-- The loop of `ss_to_int` over the bytes that are left; there is no number when the guard reports
an overflow. -/
def accumulate : List UInt8 → Nat → Option (Option Nat)
  | [], acc => some (some acc)
  | c :: rest, acc =>
    if isDigit c then do
      let d ← checkedUnsigned (c.toNat - 0x30)
      let room ← checkedUnsigned (uintMax - d)
      if acc > room / 10 then some none
      else do
        let acc ← checkedUnsigned (acc * 10)
        let acc ← checkedUnsigned (acc + d)
        accumulate rest acc
    else some (some acc)

/-- `ss_to_int`: what it returns, and the value behind `out` afterwards, which may be NULL. -/
def ssToInt (s : List UInt8) (out : Option Int) : Option (StrSliceErr × Option Int) :=
  match out with
  | none => some (.null, none)
  | some old =>
    let (neg, rest) := scanSign s
    if (rest.head?.map isDigit).getD false = false then some (.notFound, some old)
    else do
      match ← accumulate rest 0 with
      | none => some (.overflow, some old)
      | some acc =>
        let limit ← checkedUnsigned (intMax + 1)
        if neg then
          if acc > limit then some (.overflow, some old)
          else if acc = limit then some (.ok, some intMin)
          else do
            let value ← checked32 (-(← checked32 acc))
            some (.ok, some value)
        else if acc > intMax then some (.overflow, some old)
        else do
          let value ← checked32 acc
          some (.ok, some value)

/-! ## The digits -/

variable {s rest : List UInt8} {c : UInt8} {acc d : Nat} {n : Int}

theorem checkedUnsigned_eq (h : 0 ≤ n) (h' : n < 2 ^ 32) : checkedUnsigned n = some n.toNat :=
  if_pos ⟨h, h'⟩

theorem digit_range (h : isDigit c = true) : 0x30 ≤ c.toNat ∧ c.toNat ≤ 0x39 := by
  simpa only [isDigit, Bool.and_eq_true, decide_eq_true_eq, UInt8.le_iff_toNat_le,
    UInt8.reduceToNat] using h

/-- The value of digits behind those of `acc`. -/
def valueFrom (acc : Nat) (digits : List UInt8) : Nat :=
  digits.foldl (fun n c => n * 10 + (c.toNat - 0x30)) acc

/-- More digits do not make the number smaller. -/
theorem le_valueFrom (acc : Nat) (digits : List UInt8) : acc ≤ valueFrom acc digits := by
  induction digits generalizing acc with
  | nil => exact Nat.le_refl acc
  | cons c digits ih =>
    calc acc ≤ acc * 10 + (c.toNat - 0x30) := by omega
      _ ≤ valueFrom acc (c :: digits) := ih _

/-- The guard refuses exactly the steps that would wrap. -/
theorem guard_iff (hd : d ≤ 9) : acc > (uintMax - d) / 10 ↔ 2 ^ 32 ≤ acc * 10 + d := by
  unfold uintMax
  omega

theorem accumulate_eq (hacc : acc < 2 ^ 32) : accumulate rest acc =
    some (if valueFrom acc (rest.takeWhile isDigit) < 2 ^ 32 then
      some (valueFrom acc (rest.takeWhile isDigit)) else none) := by
  induction rest generalizing acc with
  | nil => rw [accumulate, List.takeWhile_nil, valueFrom, List.foldl_nil, if_pos hacc]
  | cons c rest ih =>
    rw [accumulate]
    by_cases hc : isDigit c = true
    · obtain ⟨hlow, hhigh⟩ := digit_range hc
      obtain ⟨d, hd⟩ : ∃ d, d = c.toNat - 0x30 := ⟨_, rfl⟩
      have hd9 : d ≤ 9 := by omega
      have hdigit : checkedUnsigned (c.toNat - 0x30) = some d := by
        rw [checkedUnsigned_eq (by omega) (by omega)]
        congr 1
        omega
      have hroom : checkedUnsigned (uintMax - d) = some (uintMax - d) := by
        have hmax : uintMax = 4294967295 := rfl
        rw [checkedUnsigned_eq (by omega) (by omega)]
        congr 1
        omega
      have hvalue : valueFrom acc (c :: rest.takeWhile isDigit) =
          valueFrom (acc * 10 + d) (rest.takeWhile isDigit) := by
        rw [hd]
        rfl
      rw [if_pos hc, List.takeWhile_cons_of_pos hc, hvalue, hdigit]
      simp only [Option.bind_eq_bind, Option.bind_some, hroom]
      by_cases hwrap : acc > (uintMax - d) / 10
      · -- the number is already too large
        have hlarge := (guard_iff hd9).mp hwrap
        have hmore := le_valueFrom (acc * 10 + d) (rest.takeWhile isDigit)
        rw [if_pos hwrap, if_neg (by omega)]
      · have hfits : acc * 10 + d < 2 ^ 32 :=
          Nat.lt_of_not_le fun h => hwrap ((guard_iff hd9).mpr h)
        have hmul : checkedUnsigned ((acc : Int) * 10) = some (acc * 10) := by
          rw [checkedUnsigned_eq (by omega) (by omega)]
          congr 1
        have hadd : checkedUnsigned (((acc * 10 : Nat) : Int) + d) = some (acc * 10 + d) := by
          rw [checkedUnsigned_eq (by omega) (by omega)]
          congr 1
        rw [if_neg hwrap, hmul, Option.bind_some, hadd, Option.bind_some]
        exact ih hfits
    · rw [if_neg hc, List.takeWhile_cons_of_neg hc, valueFrom, List.foldl_nil, if_pos hacc]

/-! ## The number -/

/-- The digits behind an optional sign, and the number that they are with it. -/
def leadingDigits (s : List UInt8) : List UInt8 := (scanSign s).2.takeWhile isDigit

def leadingValue (s : List UInt8) : Int :=
  signedValue (scanSign s).1 (digitsValue (leadingDigits s))

theorem head_isDigit_iff : (rest.head?.map isDigit).getD false = false ↔
    rest.takeWhile isDigit = [] := by
  cases rest with
  | nil => exact iff_of_true rfl rfl
  | cons c rest =>
    rw [List.takeWhile_cons]
    cases hc : isDigit c <;> simp [hc]

/-- On every slice: without a digit behind the sign nothing is found, a number that is no `int` is
an overflow, and otherwise that number is written; nothing is written in the other cases. -/
theorem ssToInt_eq (s : List UInt8) (old : Int) : ssToInt s (some old) = some
    (if leadingDigits s = [] then (.notFound, some old)
    else if Fits32 (leadingValue s) then (.ok, some (leadingValue s))
    else (.overflow, some old)) := by
  have hloop : accumulate (scanSign s).2 0 =
      some (if digitsValue (leadingDigits s) < 2 ^ 32 then some (digitsValue (leadingDigits s))
      else none) :=
    accumulate_eq (by decide)
  have hlimit : checkedUnsigned ((intMax : Int) + 1) = some (2 ^ 31) := rfl
  rw [ssToInt, leadingValue]
  dsimp only
  by_cases hnone : leadingDigits s = []
  · rw [if_pos hnone, if_pos (head_isDigit_iff.mpr hnone)]
  · rw [if_neg hnone, if_neg (hnone ∘ head_isDigit_iff.mp), hloop]
    obtain ⟨m, hm⟩ : ∃ m, m = digitsValue (leadingDigits s) := ⟨_, rfl⟩
    rw [← hm]
    cases hneg : (scanSign s).1 with
    | true =>
      rw [signedValue, if_pos rfl]
      by_cases hwide : m < 2 ^ 32
      · simp only [if_pos hwide, Option.bind_eq_bind, Option.bind_some, hlimit, if_true]
        by_cases hlarge : m > 2 ^ 31
        · rw [if_pos hlarge, if_neg (by unfold Fits32; omega)]
        · have hneg : Fits32 (-(m : Int)) := by
            unfold Fits32
            omega
          rw [if_neg hlarge, if_pos hneg]
          by_cases hmin : m = 2 ^ 31
          · -- the smallest `int`, whose magnitude is no `int`
            rw [if_pos hmin, hmin]
            rfl
          · have hpos : Fits32 (m : Int) := by
              unfold Fits32
              omega
            rw [if_neg hmin, checked32_of_fits hpos, Option.bind_some, checked32_of_fits hneg,
              Option.bind_some]
      · simp only [if_neg hwide, Option.bind_eq_bind, Option.bind_some]
        rw [if_neg (by unfold Fits32; omega)]
    | false =>
      rw [signedValue, if_neg Bool.false_ne_true]
      by_cases hwide : m < 2 ^ 32
      · simp only [if_pos hwide, Option.bind_eq_bind, Option.bind_some, hlimit,
          Bool.false_eq_true, if_false]
        by_cases hlarge : m > intMax
        · unfold intMax at hlarge
          rw [if_pos (by unfold intMax; exact hlarge), if_neg (by unfold Fits32; omega)]
        · unfold intMax at hlarge
          have hfits : Fits32 (m : Int) := by
            unfold Fits32
            omega
          rw [if_neg (by unfold intMax; exact hlarge), if_pos hfits, checked32_of_fits hfits,
            Option.bind_some]
      · simp only [if_neg hwide, Option.bind_eq_bind, Option.bind_some]
        rw [if_neg (by unfold Fits32; omega)]

/-- `-2147483648x` -/
example : ssToInt [0x2D, 0x32, 0x31, 0x34, 0x37, 0x34, 0x38, 0x33, 0x36, 0x34, 0x38, 0x78]
    (some 7) = some (.ok, some (-2147483648)) := by
  decide

end Solidc.Slice
