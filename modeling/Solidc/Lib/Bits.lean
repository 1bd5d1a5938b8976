import Mathlib.Data.Nat.Bitwise
import Mathlib.Data.Nat.Log
import Mathlib.Data.Nat.Size

/-! # Masks, shifts and bit tricks as arithmetic

C code picks bit fields with `&`, `>>`, `<<` and `|`. On natural numbers these
are remainder, quotient, multiplication and (on disjoint fields) addition; the
lemmas below make that translation, so that what remains is linear arithmetic.
`smear64` is the usual trick that fills all bits below the highest one.
-/

namespace CLib

/-- Masking with the low `k` bits is the remainder by `2 ^ k`. -/
theorem and_mask (n k : Nat) : n &&& (2 ^ k - 1) = n % 2 ^ k :=
  Nat.and_two_pow_sub_one_eq_mod n k

/-- Joining a field of `k` bits below `a` is an addition. -/
theorem shl_or (a b k : Nat) (h : b < 2 ^ k) : (a <<< k) ||| b = a * 2 ^ k + b := by
  rw [← Nat.shiftLeft_add_eq_or_of_lt h, Nat.shiftLeft_eq]

/-- Masking with `w` bits from bit `k` on drops the lowest `k` bits, if there is nothing above. -/
theorem and_high (n k w : Nat) (h : n < 2 ^ (k + w)) :
    n &&& ((2 ^ w - 1) <<< k) = n / 2 ^ k * 2 ^ k := by
  have hq : n / 2 ^ k < 2 ^ w := by
    rw [Nat.div_lt_iff_lt_mul (Nat.two_pow_pos k), ← Nat.pow_add, Nat.add_comm w k]
    exact h
  have hbits : n &&& ((2 ^ w - 1) <<< k) = ((n >>> k) &&& (2 ^ w - 1)) <<< k := by
    apply Nat.eq_of_testBit_eq
    intro i
    simp only [Nat.testBit_and, Nat.testBit_shiftLeft, Nat.testBit_shiftRight]
    rcases Nat.lt_or_ge i k with hi | hi
    · simp [Nat.not_le.mpr hi]
    · simp [hi, Nat.add_sub_cancel' hi]
  rw [hbits, and_mask, Nat.shiftRight_eq_div_pow, Nat.mod_eq_of_lt hq, Nat.shiftLeft_eq]

/-- `0x80`: the top bit of a byte. -/
theorem byte_and_80 : ∀ n < 256, (n &&& 0x80 = 0 ↔ n < 0x80) := by
  intro n hn
  have hmask : n &&& 0x80 = n / 128 * 128 := and_high n 7 1 hn
  omega

/-- `110xxxxx`. -/
theorem byte_and_E0 : ∀ n < 256, (n &&& 0xE0 = 0xC0 ↔ 0xC0 ≤ n ∧ n < 0xE0) := by
  intro n hn
  have hmask : n &&& 0xE0 = n / 32 * 32 := and_high n 5 3 hn
  omega

/-- `1110xxxx`. -/
theorem byte_and_F0 : ∀ n < 256, (n &&& 0xF0 = 0xE0 ↔ 0xE0 ≤ n ∧ n < 0xF0) := by
  intro n hn
  have hmask : n &&& 0xF0 = n / 16 * 16 := and_high n 4 4 hn
  omega

/-- `11110xxx`. -/
theorem byte_and_F8 : ∀ n < 256, (n &&& 0xF8 = 0xF0 ↔ 0xF0 ≤ n ∧ n < 0xF8) := by
  intro n hn
  have hmask : n &&& 0xF8 = n / 8 * 8 := and_high n 3 5 hn
  omega

/-- `10xxxxxx`. -/
theorem byte_and_C0 : ∀ n < 256, (n &&& 0xC0 = 0x80 ↔ 0x80 ≤ n ∧ n < 0xC0) := by
  intro n hn
  have hmask : n &&& 0xC0 = n / 64 * 64 := and_high n 6 2 hn
  omega

/-! ## Filling the bits below the highest one -/

/-- `n |= n >> 1; n |= n >> 2; ... n |= n >> 32;` -/
def smear64 (n : Nat) : Nat :=
  let n := n ||| n >>> 1
  let n := n ||| n >>> 2
  let n := n ||| n >>> 4
  let n := n ||| n >>> 8
  let n := n ||| n >>> 16
  n ||| n >>> 32

/-- `m` has bit `i` where `n` has one of the bits `i .. i + w - 1`. -/
def Covers (w n m : Nat) : Prop :=
  ∀ i, m.testBit i = true ↔ ∃ d < w, n.testBit (i + d) = true

theorem covers_one (n : Nat) : Covers 1 n n := by
  intro i
  constructor
  · intro h
    exact ⟨0, by omega, h⟩
  · intro h
    rcases h with ⟨d, hd, h⟩
    have hd0 : d = 0 := by omega
    rw [hd0] at h
    exact h

/-- One step of the trick doubles the window. -/
theorem Covers.double {w n m : Nat} (h : Covers w n m) : Covers (w + w) n (m ||| m >>> w) := by
  intro i
  rw [Nat.testBit_or, Nat.testBit_shiftRight, Bool.or_eq_true, h i, h (w + i)]
  constructor
  · intro hor
    rcases hor with ⟨d, hd, hb⟩ | ⟨d, hd, hb⟩
    · exact ⟨d, by omega, hb⟩
    · exact ⟨w + d, by omega, by rw [← hb]; congr 1; omega⟩
  · intro hex
    rcases hex with ⟨d, hd, hb⟩
    rcases Nat.lt_or_ge d w with hlt | hge
    · exact .inl ⟨d, hlt, hb⟩
    · exact .inr ⟨d - w, by omega, by rw [← hb]; congr 1; omega⟩

theorem covers_smear64 (n : Nat) : Covers 64 n (smear64 n) :=
  (((((covers_one n).double).double).double).double).double.double

/-- All bits up to the highest one. -/
theorem smear64_eq {n : Nat} (hpos : n ≠ 0) (hlt : n < 2 ^ 64) :
    smear64 n = 2 ^ (n.log2 + 1) - 1 := by
  have hlog : n.log2 < 64 := (Nat.log2_lt hpos).mpr hlt
  apply Nat.eq_of_testBit_eq
  intro i
  rw [Nat.testBit_two_pow_sub_one, Bool.eq_iff_iff, covers_smear64 n i, decide_eq_true_eq]
  constructor
  · intro h
    rcases h with ⟨d, -, hb⟩
    by_contra hge
    have hsmall : n < 2 ^ (i + d) :=
      Nat.lt_of_lt_of_le Nat.lt_log2_self (Nat.pow_le_pow_right (by omega) (by omega))
    rw [Nat.testBit_lt_two_pow hsmall] at hb
    cases hb
  · intro h
    refine ⟨n.log2 - i, by omega, ?_⟩
    rw [show i + (n.log2 - i) = n.log2 by omega]
    exact Nat.testBit_log2 hpos

end CLib
