import Mathlib.Data.Int.Notation
import Mathlib.Tactic.Common
import Mathlib.Algebra.Ring.Int.Defs
import Mathlib.Algebra.Ring.Nat

/-! # Signed integers of C

An operation on signed integers is undefined when its result does not fit into its type:
`checked32` and `checked64` are then `none`. Division and remainder truncate, as `Int.tdiv` and
`Int.tmod` do. A conversion to a narrower type wraps around.
-/

namespace CLib

/-- The values of `int32_t`. -/
def Fits32 (n : Int) : Prop := -2 ^ 31 ≤ n ∧ n < 2 ^ 31

/-- The values of `int64_t`. -/
def Fits64 (n : Int) : Prop := -2 ^ 63 ≤ n ∧ n < 2 ^ 63

instance (n : Int) : Decidable (Fits32 n) := inferInstanceAs (Decidable (_ ∧ _))

instance (n : Int) : Decidable (Fits64 n) := inferInstanceAs (Decidable (_ ∧ _))

/-- The result of an operation on `int`s. -/
def checked32 (n : Int) : Option Int := if Fits32 n then some n else none

/-- The result of an operation on `int64_t`s. -/
def checked64 (n : Int) : Option Int := if Fits64 n then some n else none

/-- A conversion to `int16_t`. -/
def toInt16 (n : Int) : Int := Int.bmod n (2 ^ 16)

variable {n : Int}

theorem toInt16_of_fits (h : -2 ^ 15 ≤ n) (h' : n < 2 ^ 15) : toInt16 n = n :=
  Int.bmod_eq_of_le h h'

theorem checked32_of_fits (h : Fits32 n) : checked32 n = some n := if_pos h

theorem checked32_of_not_fits (h : ¬ Fits32 n) : checked32 n = none := if_neg h

theorem checked64_of_fits (h : Fits64 n) : checked64 n = some n := if_pos h

section bind

variable {β : Type*} {f : Int → Option β}

/-- A result that fits is used. -/
theorem checked64_bind (h : -2 ^ 63 ≤ n) (h' : n < 2 ^ 63) : (checked64 n).bind f = f n := by
  rw [checked64_of_fits ⟨h, h'⟩, Option.bind_some]

/-- Nothing is defined behind a result that does not fit. -/
theorem checked64_bind_none (h : ¬ Fits64 n) : (checked64 n).bind f = none := by
  rw [checked64, if_neg h, Option.bind_none]

end bind

end CLib
