import Mathlib.Data.List.TakeWhile
import Mathlib.Tactic.Common
import Mathlib.Algebra.Ring.Nat

/-! # Decimal numbers of a fixed width

`padded w n` is what `printf` makes of `n` with `%0wd`. It has `w` digits when `n` has no more,
and reading these gives `n` back.
-/

namespace CLib

/-- The digits of a number, with zeros in front up to `w` characters. -/
def padded (w n : Nat) : List Char := List.leftpad w '0' (Nat.toDigits 10 n)

/-- The value of a run of digits. -/
def decimalValue (digits : List Char) : Nat := Nat.ofDigitChars 10 digits 0

variable {w n : Nat} {l l' rest : List Char}

theorem isDigit_padded (w n : Nat) : ∀ c ∈ padded w n, c.isDigit = true := by
  intro c hc
  rw [padded, List.leftpad, List.mem_append] at hc
  rcases hc with hc | hc
  · obtain ⟨-, rfl⟩ := List.mem_replicate.mp hc
    rfl
  · exact Nat.isDigit_of_mem_toDigits (by decide) (by decide) hc

theorem decimalValue_padded (w n : Nat) : decimalValue (padded w n) = n := by
  rw [decimalValue, padded, List.leftpad, Nat.ofDigitChars_append,
    Nat.ofDigitChars_replicate_zero, Nat.mul_zero, Nat.ofDigitChars_ten_toDigits]

theorem length_padded (hw : 0 < w) (hn : n < 10 ^ w) : (padded w n).length = w := by
  have hlen := (Nat.length_toDigits_le_iff (by decide) hw).mpr hn
  rw [padded, List.leftpad, List.length_append, List.length_replicate]
  omega

theorem le_length_padded (w n : Nat) : w ≤ (padded w n).length := by
  rw [padded, List.leftpad, List.length_append, List.length_replicate]
  omega

/-- A number with enough digits needs no zeros. -/
theorem padded_of_ge (hw : 0 < w) (hn : 10 ^ w ≤ n) (v : Nat) (hv : v ≤ w + 1) :
    padded v n = Nat.toDigits 10 n := by
  have hlen : ¬ (Nat.toDigits 10 n).length ≤ w := fun h =>
    absurd hn (Nat.not_le_of_lt ((Nat.length_toDigits_le_iff (by decide) hw).mp h))
  rw [padded, List.leftpad, Nat.sub_eq_zero_of_le (by omega)]
  rfl

theorem decimalValue_cons (c : Char) (l : List Char) :
    decimalValue (c :: l) = (c.toNat - '0'.toNat) * 10 ^ l.length + decimalValue l := by
  rw [decimalValue, Nat.ofDigitChars_cons, Nat.ofDigitChars_eq_ofDigitChars_zero, Nat.mul_zero,
    Nat.zero_add, Nat.mul_comm]
  rfl

theorem decimalValue_append_zeros (l : List Char) (k : Nat) :
    decimalValue (l ++ List.replicate k '0') = decimalValue l * 10 ^ k := by
  rw [decimalValue, Nat.ofDigitChars_append, Nat.ofDigitChars_replicate_zero, Nat.mul_comm]
  rfl

/-! ## Reading -/

/-- The number of at most `w` digits at the start of a text, and the rest. There is none without
a digit. -/
def readDecimal (w : Nat) (s : List Char) : Option (Nat × List Char) :=
  match (s.take w).takeWhile Char.isDigit with
  | [] => none
  | digits => some (decimalValue digits, s.drop digits.length)

theorem readDecimal_of_takeWhile (hne : l ≠ [])
    (htake : ((l ++ rest).take w).takeWhile Char.isDigit = l) :
    readDecimal w (l ++ rest) = some (decimalValue l, rest) := by
  rw [readDecimal, htake]
  cases l with
  | nil => exact absurd rfl hne
  | cons c l =>
    change some (_, (c :: l ++ rest).drop (c :: l).length) = _
    rw [List.drop_left]

/-- Digits of the full width are read whatever follows them. -/
theorem readDecimal_append (hne : l ≠ []) (hl : ∀ c ∈ l, c.isDigit = true) (rest : List Char) :
    readDecimal l.length (l ++ rest) = some (decimalValue l, rest) := by
  refine readDecimal_of_takeWhile hne ?_
  rw [List.take_left, List.takeWhile_eq_self_iff.mpr hl]

/-- Fewer digits are read up to another character. -/
theorem readDecimal_short (hne : l ≠ []) (hl : ∀ c ∈ l, c.isDigit = true) (hw : l.length ≤ w)
    (hrest : ∀ c ∈ rest.head?, c.isDigit = false) :
    readDecimal w (l ++ rest) = some (decimalValue l, rest) := by
  refine readDecimal_of_takeWhile hne ?_
  rw [List.take_append, List.take_of_length_le hw, List.takeWhile_append_of_pos hl]
  cases rest with
  | nil => rw [List.take_nil, List.takeWhile_nil, List.append_nil]
  | cons c rest =>
    cases w - l.length with
    | zero => rw [List.take_zero, List.takeWhile_nil, List.append_nil]
    | succ k =>
      rw [List.take_succ_cons, List.takeWhile_cons_of_neg (by rw [hrest c rfl]; decide),
        List.append_nil]

theorem readDecimal_padded (hw : 0 < w) (hn : n < 10 ^ w) (rest : List Char) :
    readDecimal w (padded w n ++ rest) = some (n, rest) := by
  have hlen := length_padded hw hn
  have hne : padded w n ≠ [] := by
    intro h
    rw [h] at hlen
    exact absurd hlen (Nat.ne_of_lt hw)
  have hread := readDecimal_append hne (isDigit_padded w n) rest
  rwa [hlen, decimalValue_padded] at hread

/-- A number with zeros in front up to `v` of the `w` characters that are read at most. -/
theorem readDecimal_leftpad {v : Nat} (hv : 0 < v) (hvw : v ≤ w) (hn : n < 10 ^ w)
    (hrest : ∀ c ∈ rest.head?, c.isDigit = false) :
    readDecimal w (padded v n ++ rest) = some (n, rest) := by
  have hdigits := (Nat.length_toDigits_le_iff (by decide) (by omega)).mpr hn
  have hlen : (padded v n).length ≤ w := by
    rw [padded, List.leftpad, List.length_append, List.length_replicate]
    omega
  have hne : padded v n ≠ [] := List.ne_nil_of_length_pos (hv.trans_le (le_length_padded v n))
  have hread := readDecimal_short hne (isDigit_padded v n) hlen hrest
  rwa [decimalValue_padded] at hread

end CLib
