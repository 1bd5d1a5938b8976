import Mathlib.Data.List.TakeWhile
import Mathlib.Tactic.Common
import Mathlib.Algebra.Ring.Nat
import Mathlib.Algebra.Ring.Int.Defs

/-! # Numbers in C strings

What `isspace`, `strtoll` and `strtoull` (base 10, C locale) do on a string without its
terminator: leading white space, a sign, then the longest run of digits.
-/

namespace CLib

/-- `isspace`: space, tab, newline, vertical tab, form feed and carriage return. -/
def isSpace (c : UInt8) : Bool := c = 0x20 || (0x09 ≤ c && c ≤ 0x0D)

/-- `isdigit`. -/
def isDigit (c : UInt8) : Bool := 0x30 ≤ c && c ≤ 0x39

/-- `tolower`. -/
def toLower (c : UInt8) : UInt8 := if 0x41 ≤ c && c ≤ 0x5A then c + 0x20 else c

/-- The value of a run of digits. -/
def digitsValue (digits : List UInt8) : Nat :=
  digits.foldl (fun n c => n * 10 + (c.toNat - 0x30)) 0

/-- The sign, and what follows it. -/
def scanSign : List UInt8 → Bool × List UInt8
  | 0x2D :: rest => (true, rest)
  | 0x2B :: rest => (false, rest)
  | s => (false, s)

/-- Sign and magnitude of the number at the start of a string, and the rest of the string.
There is none without a digit: the end pointer is then the string itself. -/
def scanInteger (s : List UInt8) : Option (Bool × Nat × List UInt8) :=
  match (scanSign (s.dropWhile isSpace)).2.takeWhile isDigit with
  | [] => none
  | digits => some ((scanSign (s.dropWhile isSpace)).1, digitsValue digits,
      (scanSign (s.dropWhile isSpace)).2.dropWhile isDigit)

/-- `strtoimax`, for 64 bits: the value, what follows it, and whether `errno` becomes `ERANGE`.
Without a number all of the string follows. -/
def strtoimax (s : List UInt8) : Int × List UInt8 × Bool :=
  match scanInteger s with
  | none => (0, s, false)
  | some (neg, m, rest) =>
    if neg then if m ≤ 2 ^ 63 then (-m, rest, false) else (-2 ^ 63, rest, true)
    else if m < 2 ^ 63 then (m, rest, false) else (2 ^ 63 - 1, rest, true)

/-- `strtoumax`, for 64 bits; a minus sign negates the result. -/
def strtoumax (s : List UInt8) : Nat × List UInt8 × Bool :=
  match scanInteger s with
  | none => (0, s, false)
  | some (neg, m, rest) =>
    if m < 2 ^ 64 then (if neg then (2 ^ 64 - m) % 2 ^ 64 else m, rest, false)
    else (2 ^ 64 - 1, rest, true)

/-- `strtoll` over the whole string, without `ERANGE`. -/
def wholeLongLong (s : List UInt8) : Option Int :=
  match scanInteger s with
  | some (neg, m, []) =>
    if neg then if m ≤ 2 ^ 63 then some (-m) else none
    else if m < 2 ^ 63 then some m else none
  | _ => none

/-- `strtoull` over the whole string, without `ERANGE`; a minus sign negates the result. -/
def wholeUnsignedLongLong (s : List UInt8) : Option Nat :=
  match scanInteger s with
  | some (neg, m, []) =>
    if m < 2 ^ 64 then some (if neg then (2 ^ 64 - m) % 2 ^ 64 else m) else none
  | _ => none

/-! ## Strings that are numbers -/

/-- A sign as it may be written, and whether it is a minus sign. -/
inductive SignOf : List UInt8 → Bool → Prop
  | nothing : SignOf [] false
  | plus : SignOf [0x2B] false
  | minus : SignOf [0x2D] true

/-- The string is white space, a sign and digits of the number `m`. -/
def WholeInteger (s : List UInt8) (neg : Bool) (m : Nat) : Prop :=
  ∃ spaces sign digits, s = spaces ++ (sign ++ digits) ∧ (∀ c ∈ spaces, isSpace c = true) ∧
    SignOf sign neg ∧ digits ≠ [] ∧ (∀ c ∈ digits, isDigit c = true) ∧ digitsValue digits = m

/-- The number that is written. -/
def signedValue (neg : Bool) (m : Nat) : Int := if neg then -m else m

variable {s : List UInt8} {neg : Bool} {m : Nat}

theorem scanSign_spec (s : List UInt8) :
    ∃ sign, SignOf sign (scanSign s).1 ∧ s = sign ++ (scanSign s).2 := by
  unfold scanSign
  split
  · exact ⟨_, .minus, rfl⟩
  · exact ⟨_, .plus, rfl⟩
  · exact ⟨_, .nothing, rfl⟩

theorem isDigit_ne {c : UInt8} (h : isDigit c = true) :
    isSpace c = false ∧ c ≠ 0x2D ∧ c ≠ 0x2B := by
  refine ⟨?_, by rintro rfl; exact absurd h (by decide), by rintro rfl; exact absurd h (by decide)⟩
  simp only [isDigit, Bool.and_eq_true, decide_eq_true_eq] at h
  simp only [isSpace, Bool.or_eq_false_iff, Bool.and_eq_false_iff, decide_eq_false_iff_not]
  constructor
  · rintro rfl
    exact absurd h.1 (by decide)
  · exact .inr fun hle => absurd (UInt8.le_trans h.1 hle) (by decide)

/-- The sign is taken off from what does not begin with a sign itself. -/
theorem scanSign_append_of_head {sign rest : List UInt8} (hsign : SignOf sign neg)
    (hhead : ∀ c, rest.head? = some c → c ≠ 0x2D ∧ c ≠ 0x2B) :
    scanSign (sign ++ rest) = (neg, rest) := by
  cases hsign with
  | nothing =>
    rw [List.nil_append, scanSign]
    · rintro rest ⟨⟩
      exact (hhead _ rfl).1 rfl
    · rintro rest ⟨⟩
      exact (hhead _ rfl).2 rfl
  | plus => rfl
  | minus => rfl

/-- The sign and the digits are found behind the white space. -/
theorem scanSign_append {sign digits : List UInt8} (hsign : SignOf sign neg) (hne : digits ≠ [])
    (hdigits : ∀ c ∈ digits, isDigit c = true) :
    (sign ++ digits).dropWhile isSpace = sign ++ digits ∧
      scanSign (sign ++ digits) = (neg, digits) := by
  have hhead : ∀ c, digits.head? = some c → c ≠ 0x2D ∧ c ≠ 0x2B :=
    fun c hc => (isDigit_ne (hdigits c (List.mem_of_mem_head? hc))).2
  refine ⟨?_, scanSign_append_of_head hsign hhead⟩
  cases hsign with
  | nothing =>
    cases digits with
    | nil => exact absurd rfl hne
    | cons c l =>
      have hspace : isSpace c = false := (isDigit_ne (hdigits c List.mem_cons_self)).1
      exact List.dropWhile_cons_of_neg (by rw [hspace]; decide)
  | plus => exact List.dropWhile_cons_of_neg (by decide)
  | minus => exact List.dropWhile_cons_of_neg (by decide)

theorem scanInteger_whole_iff :
    scanInteger s = some (neg, m, []) ↔ WholeInteger s neg m := by
  constructor
  · intro h
    obtain ⟨sign, hsign, hsplit⟩ := scanSign_spec (s.dropWhile isSpace)
    unfold scanInteger at h
    split at h
    · cases h
    case h_2 hne =>
      simp only [Option.some.injEq, Prod.mk.injEq, List.dropWhile_eq_nil_iff] at h
      obtain ⟨hneg, hvalue, hdigits⟩ := h
      rw [List.takeWhile_eq_self_iff.mpr hdigits] at hne hvalue
      refine ⟨s.takeWhile isSpace, sign, (scanSign (s.dropWhile isSpace)).2, ?_, ?_, hneg ▸ hsign,
        hne, hdigits, hvalue⟩
      · rw [← hsplit, List.takeWhile_append_dropWhile]
      · exact fun c hc => List.mem_takeWhile_imp hc
  · rintro ⟨spaces, sign, digits, rfl, hspaces, hsign, hne, hdigits, rfl⟩
    obtain ⟨hskip, hscan⟩ := scanSign_append hsign hne hdigits
    unfold scanInteger
    rw [List.dropWhile_append_of_pos hspaces, hskip, hscan, List.takeWhile_eq_self_iff.mpr hdigits,
      List.dropWhile_eq_nil_iff.mpr hdigits]
    cases digits with
    | nil => exact absurd rfl hne
    | cons c l => rfl

/-- A string is not two numbers. -/
theorem WholeInteger.unique {neg' : Bool} {m' : Nat} (h : WholeInteger s neg m)
    (h' : WholeInteger s neg' m') : neg = neg' ∧ m = m' := by
  have hsame := (scanInteger_whole_iff.mpr h).symm.trans (scanInteger_whole_iff.mpr h')
  cases hsame
  exact ⟨rfl, rfl⟩

theorem wholeLongLong_iff {z : Int} : wholeLongLong s = some z ↔
    ∃ neg m, WholeInteger s neg m ∧ signedValue neg m = z ∧ -2 ^ 63 ≤ z ∧ z < 2 ^ 63 := by
  simp only [← scanInteger_whole_iff]
  constructor
  · intro h
    unfold wholeLongLong at h
    split at h
    case h_1 neg m hscan =>
      refine ⟨neg, m, hscan, ?_⟩
      cases neg with
      | true =>
        simp only [if_true, Option.ite_none_right_eq_some, Option.some.injEq] at h
        simp only [signedValue, if_true]
        omega
      | false =>
        simp only [Bool.false_eq_true, if_false, Option.ite_none_right_eq_some,
          Option.some.injEq] at h
        simp only [signedValue, Bool.false_eq_true, if_false]
        omega
    case h_2 => cases h
  · rintro ⟨neg, m, hscan, rfl, hlow, hhigh⟩
    unfold wholeLongLong
    simp only [hscan]
    cases neg with
    | true =>
      simp only [signedValue, if_true] at hlow ⊢
      rw [if_pos (by omega)]
    | false =>
      simp only [signedValue, Bool.false_eq_true, if_false] at hhigh ⊢
      rw [if_pos (by omega)]

theorem wholeUnsignedLongLong_iff {n : Nat} : wholeUnsignedLongLong s = some n ↔
    ∃ neg m, WholeInteger s neg m ∧ m < 2 ^ 64 ∧
      (if neg then (2 ^ 64 - m) % 2 ^ 64 else m) = n := by
  simp only [← scanInteger_whole_iff]
  constructor
  · intro h
    unfold wholeUnsignedLongLong at h
    split at h
    case h_1 neg m hscan =>
      rw [Option.ite_none_right_eq_some, Option.some.injEq] at h
      exact ⟨neg, m, hscan, h⟩
    case h_2 => cases h
  · rintro ⟨neg, m, hscan, hm, rfl⟩
    unfold wholeUnsignedLongLong
    simp only [hscan, if_pos hm]

end CLib
