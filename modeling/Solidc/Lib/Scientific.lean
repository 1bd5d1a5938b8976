import Solidc.Lib.CNumber
import Mathlib.Algebra.Order.GroupWithZero.Basic
import Mathlib.Algebra.Order.Ring.Rat
import Mathlib.Tactic.FieldSimp
import Mathlib.Tactic.NormNum
import Mathlib.Tactic.Ring

/-! # Decimal numbers with an exponent

A sign, an integer and a power of ten, and the rational number that they are. A decimal literal is
the integer of its digits, with an exponent that counts the digits behind the point.

* `Scientific.value_eq_iff` — the power of ten matters unless the integer is 0;
* `positional_value` — the digits on both sides of a point as one integer;
* `firstSix_digit` — the first six digits of a number, read one after the other.
-/

namespace CLib

/-- `± mantissa * 10 ^ exp`. -/
structure Scientific where
  neg : Bool
  mantissa : Nat
  exp : Int
deriving DecidableEq

def signOf (neg : Bool) : ℚ := if neg then -1 else 1

def Scientific.value (x : Scientific) : ℚ := signOf x.neg * (x.mantissa * (10 : ℚ) ^ x.exp)

theorem signOf_ne_zero (neg : Bool) : signOf neg ≠ 0 := by
  cases neg <;> simp [signOf]

theorem ten_zpow_injective {a b : Int} : (10 : ℚ) ^ a = 10 ^ b ↔ a = b :=
  (zpow_right_injective₀ (by norm_num) (by norm_num)).eq_iff

/-- Two numbers that differ at most in the power of ten. -/
theorem Scientific.value_eq_iff {neg : Bool} {m : Nat} {a b : Int} :
    (⟨neg, m, a⟩ : Scientific).value = (⟨neg, m, b⟩ : Scientific).value ↔ m = 0 ∨ a = b := by
  unfold Scientific.value
  dsimp only
  rw [mul_right_inj' (signOf_ne_zero neg), mul_eq_mul_left_iff, ten_zpow_injective,
    Nat.cast_eq_zero, or_comm]

/-- Digits behind other digits. -/
theorem digitsValue_append (a b : List UInt8) :
    digitsValue (a ++ b) = digitsValue a * 10 ^ b.length + digitsValue b := by
  have hfrom : ∀ (l : List UInt8) (acc : Nat),
      l.foldl (fun n c => n * 10 + (c.toNat - 0x30)) acc = acc * 10 ^ l.length + digitsValue l := by
    intro l
    induction l with
    | nil => intro acc; simp [digitsValue]
    | cons c l ih =>
      intro acc
      rw [digitsValue, List.foldl_cons, List.foldl_cons, ih, ih, List.length_cons, pow_succ]
      ring
  rw [digitsValue, List.foldl_append, hfrom]
  rfl

/-- What stands behind the point counts as many places down as it has digits. -/
theorem positional_value (int frac : List UInt8) (e : Int) :
    ((digitsValue int : ℚ) + digitsValue frac / 10 ^ frac.length) * 10 ^ e =
      digitsValue (int ++ frac) * 10 ^ (e - frac.length) := by
  have hten : (10 : ℚ) ≠ 0 := by norm_num
  rw [digitsValue_append, zpow_sub₀ hten, zpow_natCast]
  push_cast
  field_simp

/-! ## The first digits of a number -/

/-- The number without its last digits, so that no more than six are left. -/
def firstSix (n : Nat) : Nat := if n < 10 ^ 6 then n else firstSix (n / 10)
decreasing_by omega

theorem firstSix_of_lt {n : Nat} (h : n < 10 ^ 6) : firstSix n = n := by
  rw [firstSix, if_pos h]

/-- Of a longer number six are left. -/
theorem firstSix_range {n : Nat} (h : 10 ^ 6 ≤ n) : 10 ^ 5 ≤ firstSix n ∧ firstSix n < 10 ^ 6 := by
  induction n using Nat.strongRecOn with
  | ind n ih =>
    rw [firstSix, if_neg (by omega)]
    by_cases hnext : n / 10 < 10 ^ 6
    · rw [firstSix_of_lt hnext]
      omega
    · exact ih (n / 10) (by omega) (by omega)

/-- No more than six digits are left. -/
theorem firstSix_lt (n : Nat) : firstSix n < 10 ^ 6 := by
  rcases Nat.lt_or_ge n (10 ^ 6) with hlt | hge
  · rwa [firstSix_of_lt hlt]
  · exact (firstSix_range hge).2

/-- A digit more is one of the first six only when there are less than six. -/
theorem firstSix_digit {n d : Nat} (hd : d ≤ 9) : firstSix (n * 10 + d) =
    if firstSix n < 10 ^ 5 then firstSix n * 10 + d else firstSix n := by
  rcases Nat.lt_or_ge n (10 ^ 5) with hshort | hlong
  · have hn : firstSix n = n := firstSix_of_lt (by omega)
    rw [hn, if_pos hshort, firstSix_of_lt (by omega)]
  · have hn : ¬ firstSix n < 10 ^ 5 := by
      rcases Nat.lt_or_ge n (10 ^ 6) with hlt | hge
      · rw [firstSix_of_lt hlt]
        omega
      · exact Nat.not_lt_of_le (firstSix_range hge).1
    have hcut : (n * 10 + d) / 10 = n := by omega
    rw [if_neg hn, firstSix, if_neg (by omega), hcut]

end CLib
