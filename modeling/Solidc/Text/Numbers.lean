import Solidc.Lib.CNumber

/-! # Strings to integers

The conversions of `str_to_num.c` to the integer types. A result is the number that is written
through the pointer, or the error; the pointer for it is not NULL.

* `signedConversion_iff`, `unsignedConversion_iff` — which strings they accept, and as which number.
-/

namespace Solidc.Text

open CLib

/-- `StoError`, without `STO_SUCCESS`. -/
inductive StoError where
  | overflow | underflow | invalid
deriving DecidableEq

/-- The tests that follow `strtoimax` and `strtoumax`: `errno`, and the end pointer. -/
def checkEnd {α : Type} (str : List UInt8) (result : α) (rest : List UInt8) (range : Bool) :
    Except StoError α :=
  if range then .error .overflow
  else if rest.length = str.length ∨ rest ≠ [] then .error .invalid
  else .ok result

/-- `validate_and_parse_signed`, for base 10. -/
def validateAndParseSigned (str : Option (List UInt8)) : Except StoError Int :=
  match str with
  | none => .error .invalid
  | some str =>
    let (result, rest, range) := strtoimax str
    checkEnd str result rest range

/-- The white space that `validate_and_parse_unsigned` skips in front of the sign. -/
def isSkipped (c : UInt8) : Bool :=
  c = 0x20 || c = 0x09 || c = 0x0A || c = 0x0D || c = 0x0B || c = 0x0C

/-- `validate_and_parse_unsigned`, for base 10. -/
def validateAndParseUnsigned (str : Option (List UInt8)) : Except StoError Nat :=
  match str with
  | none => .error .invalid
  | some str =>
    if (str.dropWhile isSkipped).head? = some 0x2D then .error .underflow
    else
      let (result, rest, range) := strtoumax str
      checkEnd str result rest range

/-- `IMPLEMENT_SIGNED_CONVERSION`. -/
def signedConversion (typeMax typeMin : Int) (str : Option (List UInt8)) : Except StoError Int := do
  let temp ← validateAndParseSigned str
  if temp > typeMax ∨ temp < typeMin then .error .overflow else .ok temp

/-- `IMPLEMENT_UNSIGNED_CONVERSION`. -/
def unsignedConversion (typeMax : Nat) (str : Option (List UInt8)) : Except StoError Int := do
  let temp ← validateAndParseUnsigned str
  if temp > typeMax then .error .overflow else .ok temp

/-- `str_to_i8`. -/
def strToI8 : Option (List UInt8) → Except StoError Int := signedConversion (2 ^ 7 - 1) (-2 ^ 7)

/-- `str_to_u8`. -/
def strToU8 : Option (List UInt8) → Except StoError Int := unsignedConversion (2 ^ 8 - 1)

/-- `str_to_i16`. -/
def strToI16 : Option (List UInt8) → Except StoError Int := signedConversion (2 ^ 15 - 1) (-2 ^ 15)

/-- `str_to_u16`. -/
def strToU16 : Option (List UInt8) → Except StoError Int := unsignedConversion (2 ^ 16 - 1)

/-- `str_to_i32`. -/
def strToI32 : Option (List UInt8) → Except StoError Int := signedConversion (2 ^ 31 - 1) (-2 ^ 31)

/-- `str_to_u32`. -/
def strToU32 : Option (List UInt8) → Except StoError Int := unsignedConversion (2 ^ 32 - 1)

/-- `str_to_i64`. -/
def strToI64 : Option (List UInt8) → Except StoError Int := signedConversion (2 ^ 63 - 1) (-2 ^ 63)

/-- `str_to_u64`. -/
def strToU64 : Option (List UInt8) → Except StoError Int := unsignedConversion (2 ^ 64 - 1)

/-! ## What is accepted -/

variable {s : List UInt8} {z : Int}

theorem checkEnd_eq_ok_iff {α : Type} {result x : α} {rest : List UInt8} {range : Bool} :
    checkEnd s result rest range = .ok x ↔ range = false ∧ rest = [] ∧ s ≠ [] ∧ result = x := by
  unfold checkEnd
  cases range with
  | true => simp
  | false =>
    cases rest with
    | nil => cases s <;> simp
    | cons c rest => simp

/-- The whole string is read, in the range of the type. -/
theorem whole_iff {α : Type} {p : Prop} [Decidable p] {x y z : α} {rest : List UInt8}
    (hne : s ≠ []) : ((if p then (x, rest, false) else (y, rest, true)).2.2 = false ∧
      (if p then (x, rest, false) else (y, rest, true)).2.1 = [] ∧ s ≠ [] ∧
        (if p then (x, rest, false) else (y, rest, true)).1 = z) ↔ rest = [] ∧ p ∧ x = z := by
  by_cases hp : p
  · rw [if_pos hp]
    simp only [hp, hne, ne_eq, not_false_iff, true_and]
  · rw [if_neg hp]
    simp only [hp, Bool.true_eq_false, false_and, and_false]

theorem strtoimax_whole_iff :
    (strtoimax s).2.2 = false ∧ (strtoimax s).2.1 = [] ∧ s ≠ [] ∧ (strtoimax s).1 = z ↔
      wholeLongLong s = some z := by
  unfold strtoimax wholeLongLong
  cases hscan : scanInteger s with
  | none =>
    simp only [reduceCtorEq, iff_false]
    rintro ⟨-, hnil, hne, -⟩
    exact hne hnil
  | some r =>
    obtain ⟨neg, m, rest⟩ := r
    have hne : s ≠ [] := by
      rintro rfl
      cases hscan
    cases neg with
    | true =>
      -- below zero the limit is one further
      simp only [if_true, whole_iff hne]
      cases rest with
      | nil => simp only [if_true, Option.ite_none_right_eq_some, Option.some.injEq, true_and]
      | cons c rest => exact ⟨nofun, nofun⟩
    | false =>
      simp only [Bool.false_eq_true, if_false, whole_iff hne]
      cases rest with
      | nil =>
        simp only [Bool.false_eq_true, if_false, Option.ite_none_right_eq_some, Option.some.injEq,
          true_and]
      | cons c rest => exact ⟨nofun, nofun⟩

theorem strtoumax_whole_iff {n : Nat} :
    (strtoumax s).2.2 = false ∧ (strtoumax s).2.1 = [] ∧ s ≠ [] ∧ (strtoumax s).1 = n ↔
      wholeUnsignedLongLong s = some n := by
  unfold strtoumax wholeUnsignedLongLong
  cases hscan : scanInteger s with
  | none =>
    simp only [reduceCtorEq, iff_false]
    rintro ⟨-, hnil, hne, -⟩
    exact hne hnil
  | some r =>
    obtain ⟨neg, m, rest⟩ := r
    have hne : s ≠ [] := by
      rintro rfl
      cases hscan
    dsimp only
    rw [whole_iff hne]
    cases rest with
    | nil => simp only [Option.ite_none_right_eq_some, Option.some.injEq, true_and]
    | cons c rest => exact ⟨nofun, nofun⟩

theorem validateAndParseSigned_iff :
    validateAndParseSigned (some s) = .ok z ↔ wholeLongLong s = some z := by
  rw [← strtoimax_whole_iff]
  exact checkEnd_eq_ok_iff

theorem isSkipped_eq : isSkipped = isSpace := by
  funext c
  rw [Bool.eq_iff_iff]
  simp only [isSkipped, isSpace, Bool.or_eq_true, Bool.and_eq_true,
    decide_eq_true_eq, UInt8.le_iff_toNat_le, ← UInt8.toNat_inj]
  simp only [UInt8.reduceToNat]
  omega

/-- A minus sign behind the white space is found. -/
theorem minus_iff {neg : Bool} {m : Nat} (h : WholeInteger s neg m) :
    (s.dropWhile isSkipped).head? = some 0x2D ↔ neg = true := by
  obtain ⟨spaces, sign, digits, rfl, hspaces, hsign, hne, hdigits, -⟩ := h
  rw [isSkipped_eq, List.dropWhile_append_of_pos hspaces,
    (scanSign_append hsign hne hdigits).1]
  cases hsign with
  | nothing =>
    cases digits with
    | nil => exact absurd rfl hne
    | cons c l =>
      have hminus := (isDigit_ne (hdigits c List.mem_cons_self)).2.1
      simpa using hminus
  | plus => simp
  | minus => exact ⟨fun _ => rfl, fun _ => rfl⟩

/-- When a minus sign is refused, what is read is the number itself. -/
theorem without_minus_iff {Whole : Bool → Nat → Prop} {n : Nat} {head : Option UInt8}
    (hminus : ∀ neg m, Whole neg m → (head = some 0x2D ↔ neg = true)) :
    (head ≠ some 0x2D ∧ ∃ neg m, Whole neg m ∧ m < 2 ^ 64 ∧
      (if neg then (2 ^ 64 - m) % 2 ^ 64 else m) = n) ↔ Whole false n ∧ n < 2 ^ 64 := by
  constructor
  · rintro ⟨hhead, neg, m, hwhole, hm, hvalue⟩
    cases neg with
    | true => exact absurd ((hminus _ _ hwhole).mpr rfl) hhead
    | false =>
      obtain rfl : m = n := hvalue
      exact ⟨hwhole, hm⟩
  · rintro ⟨hwhole, hn⟩
    refine ⟨?_, false, n, hwhole, hn, rfl⟩
    intro hhead
    exact absurd ((hminus _ _ hwhole).mp hhead) (by decide)

/-- A minus sign is refused wherever it stands. -/
theorem validateAndParseUnsigned_iff {n : Nat} :
    validateAndParseUnsigned (some s) = .ok n ↔ WholeInteger s false n ∧ n < 2 ^ 64 := by
  have hparse : validateAndParseUnsigned (some s) = .ok n ↔
      (s.dropWhile isSkipped).head? ≠ some 0x2D ∧ wholeUnsignedLongLong s = some n := by
    rw [← strtoumax_whole_iff]
    unfold validateAndParseUnsigned
    dsimp only
    split
    case isTrue h => simp [h]
    case isFalse h =>
      rw [and_iff_right h]
      exact checkEnd_eq_ok_iff
  rw [hparse, wholeUnsignedLongLong_iff]
  exact without_minus_iff fun _ _ => minus_iff

/-- What follows a signed conversion: the test of the range. -/
theorem ranged_iff {x : Except StoError Int} {typeMax typeMin : Int} :
    (do let temp ← x; if temp > typeMax ∨ temp < typeMin then .error .overflow else .ok temp) =
      (.ok z : Except StoError Int) ↔ x = .ok z ∧ typeMin ≤ z ∧ z ≤ typeMax := by
  cases x with
  | error err => exact iff_of_false nofun nofun
  | ok temp =>
    change (if _ then _ else _) = _ ↔ _
    rw [Except.ok.injEq]
    split
    case isTrue hout =>
      refine iff_of_false nofun ?_
      rintro ⟨rfl, hlow, hhigh⟩
      omega
    case isFalse hin =>
      rw [Except.ok.injEq]
      refine ⟨?_, fun h => h.1⟩
      rintro rfl
      exact ⟨rfl, by omega⟩

theorem unsignedRanged_iff {x : Except StoError Nat} {typeMax : Nat} :
    (do let temp ← x; if temp > typeMax then .error .overflow else .ok (temp : Int)) =
      (.ok z : Except StoError Int) ↔ ∃ m : Nat, x = .ok m ∧ (m : Int) = z ∧ m ≤ typeMax := by
  cases x with
  | error err => exact iff_of_false nofun (by rintro ⟨m, h, -⟩; cases h)
  | ok temp =>
    change (if _ then _ else _) = _ ↔ _
    simp only [Except.ok.injEq, exists_eq_left']
    split
    case isTrue hout => exact ⟨nofun, fun h => absurd h.2 (Nat.not_le.mpr hout)⟩
    case isFalse hin =>
      rw [Except.ok.injEq]
      exact ⟨fun h => ⟨h, Nat.not_lt.mp hin⟩, fun h => h.1⟩

/-- A signed conversion accepts the numbers of its range. -/
theorem signedConversion_iff {typeMax typeMin : Int} (hmax : typeMax < 2 ^ 63)
    (hmin : -2 ^ 63 ≤ typeMin) : signedConversion typeMax typeMin (some s) = .ok z ↔
      (∃ neg m, WholeInteger s neg m ∧ signedValue neg m = z) ∧ typeMin ≤ z ∧ z ≤ typeMax := by
  have hbind : signedConversion typeMax typeMin (some s) = .ok z ↔
      validateAndParseSigned (some s) = .ok z ∧ typeMin ≤ z ∧ z ≤ typeMax := ranged_iff
  -- the range of the type lies within that of `intmax_t`
  rw [hbind, validateAndParseSigned_iff, wholeLongLong_iff]
  constructor
  · rintro ⟨⟨neg, m, hwhole, hvalue, -⟩, hrange⟩
    exact ⟨⟨neg, m, hwhole, hvalue⟩, hrange⟩
  · rintro ⟨⟨neg, m, hwhole, hvalue⟩, hrange⟩
    exact ⟨⟨neg, m, hwhole, hvalue, by omega⟩, hrange⟩

/-- An unsigned one too, and no minus sign. -/
theorem unsignedConversion_iff {typeMax : Nat} (hmax : typeMax < 2 ^ 64) :
    unsignedConversion typeMax (some s) = .ok z ↔
      ∃ m : Nat, WholeInteger s false m ∧ m = z ∧ m ≤ typeMax := by
  have hbind : unsignedConversion typeMax (some s) = .ok z ↔
      ∃ m : Nat, validateAndParseUnsigned (some s) = .ok m ∧ m = z ∧ m ≤ typeMax :=
    unsignedRanged_iff
  rw [hbind]
  simp only [validateAndParseUnsigned_iff]
  constructor
  · rintro ⟨m, ⟨hwhole, -⟩, hm⟩
    exact ⟨m, hwhole, hm⟩
  · rintro ⟨m, hwhole, rfl, hle⟩
    exact ⟨m, ⟨hwhole, hle.trans_lt hmax⟩, rfl, hle⟩

end Solidc.Text
