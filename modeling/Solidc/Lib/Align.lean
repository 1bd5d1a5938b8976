import Mathlib.Data.Nat.Bitwise
import Mathlib.Algebra.Order.Group.Nat

/-! # Rounding addresses up

`(x + a - 1) & ~(a - 1)` on 64-bit words, and what it is for powers of two. -/

namespace CLib

/-- One more than the greatest 64-bit word. -/
abbrev wordSize : Nat := 2 ^ 64

/-- `(x + a - 1) & ~(a - 1)`. -/
def alignUp (x a : Nat) : Nat :=
  (x + a + (wordSize - 1)) % wordSize &&& (wordSize - a) % wordSize

/-- The mask `~(2 ^ k - 1)` clears the low `k` bits. -/
theorem and_high_mask {x k : Nat} (hx : x < wordSize) (hk : k < 64) :
    x &&& (wordSize - 2 ^ k) = x / 2 ^ k * 2 ^ k := by
  have hpow : 0 < 2 ^ k := Nat.two_pow_pos k
  refine Nat.eq_of_testBit_eq fun i => ?_
  have hmask : (wordSize - 2 ^ k).testBit i = (decide (i < 64) && !decide (i < k)) := by
    have heq : wordSize - 2 ^ k = 2 ^ 64 - ((2 ^ k - 1) + 1) := by
      rw [Nat.sub_add_cancel hpow]
    rw [heq, Nat.testBit_two_pow_sub_succ, Nat.testBit_two_pow_sub_one]
    exact lt_of_lt_of_le (Nat.sub_lt hpow Nat.one_pos) (Nat.pow_le_pow_right (by decide) hk.le)
  rw [Nat.testBit_and, hmask, ← Nat.shiftLeft_eq, Nat.testBit_shiftLeft,
    ← Nat.shiftRight_eq_div_pow,
    Nat.testBit_shiftRight]
  by_cases hik : k ≤ i
  · have hsub : k + (i - k) = i := by omega
    by_cases hi : i < 64
    · simp [hik, hi, hsub]
    · have hbit : x.testBit i = false := by
        refine Nat.testBit_lt_two_pow (lt_of_lt_of_le hx ?_)
        exact Nat.pow_le_pow_right (by decide) (by omega)
      simp [hik, hi, hsub, hbit]
  · simp [hik]
    omega

theorem alignUp_eq {x k : Nat} (hk : k < 64) (hx : x + 2 ^ k ≤ wordSize) :
    alignUp x (2 ^ k) = (x + 2 ^ k - 1) / 2 ^ k * 2 ^ k := by
  have hpow : 0 < 2 ^ k := Nat.two_pow_pos k
  have hlt : 2 ^ k < wordSize := Nat.pow_lt_pow_right (by decide) hk
  have hsum : (x + 2 ^ k + (wordSize - 1)) % wordSize = x + 2 ^ k - 1 := by
    have heq : x + 2 ^ k + (wordSize - 1) = (x + 2 ^ k - 1) + wordSize := by omega
    rw [heq, Nat.add_mod_right, Nat.mod_eq_of_lt (by omega)]
  rw [alignUp, hsum, Nat.mod_eq_of_lt (by omega), and_high_mask (by omega) hk]

/-- The first multiple of `a` from `x` on. -/
theorem alignUp_spec {x a : Nat} (ha : ∃ k < 64, a = 2 ^ k) (hx : x + a ≤ wordSize) :
    x ≤ alignUp x a ∧ alignUp x a < x + a ∧ a ∣ alignUp x a := by
  obtain ⟨k, hk, rfl⟩ := ha
  have hpow : 0 < 2 ^ k := Nat.two_pow_pos k
  rw [alignUp_eq hk hx]
  have hdiv := Nat.div_add_mod (x + 2 ^ k - 1) (2 ^ k)
  have hmod := Nat.mod_lt (x + 2 ^ k - 1) hpow
  rw [Nat.mul_comm] at hdiv
  refine ⟨by omega, by omega, Nat.dvd_mul_left _ _⟩

/-- Rounding up past the end of the address space gives 0. -/
theorem alignUp_wraps {x a : Nat} (ha : ∃ k < 64, a = 2 ^ k) (hx : x < wordSize)
    (hwrap : wordSize < x + a) : alignUp x a = 0 := by
  obtain ⟨k, hk, rfl⟩ := ha
  have hpow : 0 < 2 ^ k := Nat.two_pow_pos k
  have hlt : 2 ^ k < wordSize := Nat.pow_lt_pow_right (by decide) hk
  have hsum : (x + 2 ^ k + (wordSize - 1)) % wordSize = x + 2 ^ k - 1 - wordSize := by
    have heq : x + 2 ^ k + (wordSize - 1) = (x + 2 ^ k - 1 - wordSize) + wordSize + wordSize := by
      omega
    rw [heq, Nat.add_mod_right, Nat.add_mod_right, Nat.mod_eq_of_lt (by omega)]
  rw [alignUp, hsum, Nat.mod_eq_of_lt (by omega), and_high_mask (by omega) hk,
    Nat.div_eq_of_lt (by omega), Nat.zero_mul]

end CLib
