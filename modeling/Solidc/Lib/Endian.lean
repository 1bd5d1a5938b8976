import Mathlib.Data.List.Basic
import Mathlib.Data.Nat.Basic
import Mathlib.Algebra.Ring.Nat
import Mathlib.Algebra.Ring.Int.Defs

/-! # Little-endian numbers in a byte stream

`toLe n x` is the `n` bytes of `x`, `ofLe` reads them back, and `int64` is the value of a 64-bit
word in two's complement. `fread n` takes `n` bytes off a stream.
-/

namespace CLib

/-- The lowest `n` bytes of a number. -/
def toLe : Nat → Nat → List UInt8
  | 0, _ => []
  | n + 1, x => UInt8.ofNat x :: toLe n (x / 256)

def ofLe : List UInt8 → Nat
  | [] => 0
  | b :: l => b.toNat + 256 * ofLe l

/-- The 64-bit word of an integer, and its value. -/
def word64 (x : Int) : Nat := (x % 2 ^ 64).toNat

def int64 (n : Nat) : Int := if n < 2 ^ 63 then n else (n : Int) - 2 ^ 64

/-- The next `n` bytes of a stream, if there are so many. -/
def fread (n : Nat) (stream : List UInt8) : Option (List UInt8 × List UInt8) :=
  if n ≤ stream.length then some (stream.take n, stream.drop n) else none

@[simp] theorem length_toLe (n x : Nat) : (toLe n x).length = n := by
  induction n generalizing x with
  | zero => rfl
  | succ n ih => rw [toLe, List.length_cons, ih]

theorem ofLe_toLe {n x : Nat} (h : x < 256 ^ n) : ofLe (toLe n x) = x := by
  induction n generalizing x with
  | zero =>
    rw [Nat.pow_zero] at h
    rw [toLe, ofLe]
    omega
  | succ n ih =>
    have hdiv : x / 256 < 256 ^ n := by
      apply (Nat.div_lt_iff_lt_mul (by decide)).mpr
      rwa [Nat.pow_succ] at h
    rw [toLe, ofLe, ih hdiv, UInt8.toNat_ofNat']
    exact Nat.mod_add_div x 256

theorem word64_lt (x : Int) : word64 x < 256 ^ 8 := by
  unfold word64
  have hpos := Int.emod_nonneg x (show (2 : Int) ^ 64 ≠ 0 by decide)
  have hlt := Int.emod_lt_of_pos x (show (0 : Int) < 2 ^ 64 by decide)
  omega

theorem int64_word64 {x : Int} (hlo : -2 ^ 63 ≤ x) (hhi : x < 2 ^ 63) : int64 (word64 x) = x := by
  unfold int64 word64
  rcases Int.lt_or_le x 0 with hneg | hpos
  · have hmod : x % 2 ^ 64 = x + 2 ^ 64 := by omega
    rw [hmod, if_neg (by omega)]
    omega
  · have hmod : x % 2 ^ 64 = x := Int.emod_eq_of_lt hpos (by omega)
    rw [hmod, if_pos (by omega)]
    omega

/-- What was written is read. -/
theorem fread_append {n : Nat} {l : List UInt8} (h : l.length = n) (rest : List UInt8) :
    fread n (l ++ rest) = some (l, rest) := by
  rw [fread, if_pos (by rw [List.length_append]; omega), ← h, List.take_left, List.drop_left]

end CLib
