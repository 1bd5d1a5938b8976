import Solidc.Flags.Parser
import Solidc.Text.Numbers

/-! # Numbers of flags

What `parse_value` makes of a string for the integer types, beside the conversions of
`str_to_num.c` to the same types.

* `conversion_iff` — these accept the numbers of the type, and for an unsigned one no minus sign;
* `parseValue_unsigned_iff` — `parse_value` only finds a minus sign at the start of the string;
* `integerFlag_exact_iff` — so it is right except where white space hides a minus sign from it and
  the negated number has a value of the type.
-/

namespace Solidc.Flags

open CLib Text

/-- The conversion of `str_to_num.c` to an integer type. -/
def conversion : FlagDataType → Option (Option Str → Except StoError Int)
  | .int8 => some strToI8
  | .uint8 => some strToU8
  | .int16 => some strToI16
  | .uint16 => some strToU16
  | .int32 => some strToI32
  | .uint32 => some strToU32
  | .int64 => some strToI64
  | .uint64 | .sizeT => some strToU64
  | _ => none

/-- The least and the greatest value of an integer type. -/
def valueRange : FlagDataType → Int × Int
  | .int8 => (-2 ^ 7, 2 ^ 7 - 1)
  | .uint8 => (0, 2 ^ 8 - 1)
  | .int16 => (-2 ^ 15, 2 ^ 15 - 1)
  | .uint16 => (0, 2 ^ 16 - 1)
  | .int32 => (-2 ^ 31, 2 ^ 31 - 1)
  | .uint32 => (0, 2 ^ 32 - 1)
  | .int64 => (-2 ^ 63, 2 ^ 63 - 1)
  | _ => (0, 2 ^ 64 - 1)

/-- The string is optional white space, an optional sign and decimal digits, and denotes the value
`z` of the type; a minus sign is one for signed types only. -/
def Denotes (type : FlagDataType) (v : Str) (z : Int) : Prop :=
  ∃ neg m, WholeInteger v neg m ∧ signedValue neg m = z ∧
    (neg = true → (valueRange type).1 < 0) ∧ (valueRange type).1 ≤ z ∧ z ≤ (valueRange type).2

variable {F : Type*} {lib : FloatLib F} {type : FlagDataType} {v : Str} {z : Int}
  {conv : Option Str → Except StoError Int}

theorem denotes_signed (h : (valueRange type).1 < 0) : Denotes type v z ↔
    (∃ neg m, WholeInteger v neg m ∧ signedValue neg m = z) ∧
      (valueRange type).1 ≤ z ∧ z ≤ (valueRange type).2 := by
  constructor
  · rintro ⟨neg, m, hwhole, hvalue, -, hrange⟩
    exact ⟨⟨neg, m, hwhole, hvalue⟩, hrange⟩
  · rintro ⟨⟨neg, m, hwhole, hvalue⟩, hrange⟩
    exact ⟨neg, m, hwhole, hvalue, fun _ => h, hrange⟩

theorem denotes_unsigned (h : (valueRange type).1 = 0) : Denotes type v z ↔
    ∃ m : Nat, WholeInteger v false m ∧ m = z ∧ (m : Int) ≤ (valueRange type).2 := by
  constructor
  · rintro ⟨neg, m, hwhole, rfl, hneg, -, hhigh⟩
    cases neg with
    | true => exact absurd (hneg rfl) (by omega)
    | false => exact ⟨m, hwhole, rfl, hhigh⟩
  · rintro ⟨m, hwhole, rfl, hhigh⟩
    exact ⟨false, m, hwhole, rfl, nofun, by omega, hhigh⟩

theorem conversion_iff (h : conversion type = some conv) :
    conv (some v) = .ok z ↔ Denotes type v z := by
  have hsigned : ∀ {typeMax typeMin : Int}, conv = signedConversion typeMax typeMin →
      valueRange type = (typeMin, typeMax) → typeMin < 0 → typeMax < 2 ^ 63 → -2 ^ 63 ≤ typeMin →
        (conv (some v) = .ok z ↔ Denotes type v z) := by
    rintro typeMax typeMin rfl hrange hneg hmax hmin
    rw [signedConversion_iff hmax hmin, denotes_signed (by rwa [hrange]), hrange]
  have hunsigned : ∀ {typeMax : Nat}, conv = unsignedConversion typeMax →
      valueRange type = (0, (typeMax : Int)) → typeMax < 2 ^ 64 →
        (conv (some v) = .ok z ↔ Denotes type v z) := by
    rintro typeMax rfl hrange hmax
    rw [unsignedConversion_iff hmax, denotes_unsigned (by rw [hrange]), hrange]
    simp only [Int.ofNat_le]
  cases type <;> cases h
  case int8 => exact hsigned rfl rfl (by decide) (by decide) (by decide)
  case int16 => exact hsigned rfl rfl (by decide) (by decide) (by decide)
  case int32 => exact hsigned rfl rfl (by decide) (by decide) (by decide)
  case int64 => exact hsigned rfl rfl (by decide) (by decide) (by decide)
  all_goals exact hunsigned rfl rfl (by decide)

/-! ## `parse_value` -/

/-- An integer type is signed or unsigned. -/
theorem parseValue_cases (hconv : conversion type = some conv) (lib : FloatLib F) (v : Str) :
    (((valueRange type).1 < 0 ∧ -2 ^ 63 ≤ (valueRange type).1 ∧ (valueRange type).2 < 2 ^ 63 ∧
      valueRange type = (-2 ^ (signedBits type - 1), 2 ^ (signedBits type - 1) - 1)) ∧
        parseValue lib type v = parseSigned type v) ∨
    valueRange type = (0, 2 ^ unsignedBits type - 1) ∧
      parseValue lib type v = parseUnsigned type v := by
  cases type <;> cases hconv
  all_goals first | exact .inl ⟨by decide, rfl⟩ | exact .inr ⟨rfl, rfl⟩

theorem parseSigned_iff {lo hi : Int} (hlo : lo = -2 ^ (signedBits type - 1))
    (hhi : hi = 2 ^ (signedBits type - 1) - 1) :
    (parseSigned type v : Except FlagStatus (Value F)) = .ok (.int z) ↔
      wholeLongLong v = some z ∧ lo ≤ z ∧ z ≤ hi := by
  unfold parseSigned
  cases wholeLongLong v with
  | none => exact ⟨nofun, nofun⟩
  | some n =>
    dsimp only
    rw [Option.some.injEq]
    split
    case isTrue hin =>
      rw [Except.ok.injEq, Value.int.injEq]
      refine ⟨?_, fun h => h.1⟩
      rintro rfl
      exact ⟨rfl, by omega⟩
    case isFalse hout =>
      refine ⟨nofun, ?_⟩
      rintro ⟨rfl, hrange⟩
      exact absurd (by omega) hout

/-- A minus sign is looked for at the start of the string only. -/
theorem parseUnsigned_iff {hi : Int} (hhi : hi = 2 ^ unsignedBits type - 1) :
    (parseUnsigned type v : Except FlagStatus (Value F)) = .ok (.int z) ↔
      v.head? ≠ some 0x2D ∧ ∃ n : Nat, wholeUnsignedLongLong v = some n ∧ n = z ∧ z ≤ hi := by
  unfold parseUnsigned
  split
  case isTrue hminus => exact ⟨nofun, fun h => absurd hminus h.1⟩
  case isFalse hhead =>
    rw [and_iff_right hhead]
    cases wholeUnsignedLongLong v with
    | none => exact ⟨nofun, by rintro ⟨n, h, -⟩; cases h⟩
    | some n =>
      simp only [Option.some.injEq, exists_eq_left']
      have hcast : n < 2 ^ unsignedBits type ↔ (n : Int) < 2 ^ unsignedBits type := by
        rw [← Int.ofNat_lt, Int.natCast_pow]
        rfl
      split
      case isTrue hin =>
        rw [hcast] at hin
        rw [Except.ok.injEq, Value.int.injEq]
        refine ⟨?_, fun h => h.1⟩
        rintro rfl
        exact ⟨rfl, by omega⟩
      case isFalse hout =>
        rw [hcast] at hout
        refine ⟨nofun, ?_⟩
        rintro ⟨rfl, hle⟩
        exact absurd (by omega) hout

/-- White space, a minus sign and digits, for an unsigned type; the negated number, modulo 2⁶⁴, is
the value `z` of the type. -/
def HiddenMinus (type : FlagDataType) (v : Str) (z : Int) : Prop :=
  (valueRange type).1 = 0 ∧ v.head? ≠ some 0x2D ∧ ∃ m, WholeInteger v true m ∧ m < 2 ^ 64 ∧
    (((2 ^ 64 - m) % 2 ^ 64 : Nat) : Int) = z ∧ z ≤ (valueRange type).2

theorem HiddenMinus.not_denotes {z' : Int} (h : HiddenMinus type v z) : ¬ Denotes type v z' := by
  rintro ⟨neg, m, hwhole, -, hneg, -⟩
  obtain ⟨hzero, -, m', hwhole', -⟩ := h
  obtain ⟨rfl, -⟩ := hwhole.unique hwhole'
  exact absurd (hneg rfl) (by omega)

theorem head_ne_minus {m : Nat} (h : WholeInteger v false m) : v.head? ≠ some 0x2D := by
  intro hhead
  cases v with
  | nil => cases hhead
  | cons c rest =>
    cases hhead
    have hminus := (minus_iff h).mp (by rw [List.dropWhile_cons_of_neg (by decide)]; rfl)
    cases hminus

/-- `parse_value` accepts the values of the type, and the numbers with a hidden minus sign. -/
theorem parseValue_iff (hconv : conversion type = some conv) :
    parseValue lib type v = .ok (.int z) ↔ Denotes type v z ∨ HiddenMinus type v z := by
  rcases parseValue_cases hconv lib v with ⟨⟨hneg, hlow, hhigh, hrange⟩, hparse⟩ | ⟨hrange, hparse⟩
  · -- a signed type has nothing to hide
    have hnot : ¬ HiddenMinus type v z := fun h => absurd h.1 (Int.ne_of_lt hneg)
    rw [hparse, parseSigned_iff (congrArg Prod.fst hrange) (congrArg Prod.snd hrange),
      wholeLongLong_iff, denotes_signed hneg, or_iff_left hnot]
    constructor
    · rintro ⟨⟨neg, m, hwhole, hvalue, -⟩, hin⟩
      exact ⟨⟨neg, m, hwhole, hvalue⟩, hin⟩
    · rintro ⟨⟨neg, m, hwhole, hvalue⟩, hin⟩
      exact ⟨⟨neg, m, hwhole, hvalue, by omega⟩, hin⟩
  · have hzero : (valueRange type).1 = 0 := congrArg Prod.fst hrange
    have hhi : (valueRange type).2 = 2 ^ unsignedBits type - 1 := congrArg Prod.snd hrange
    have hmax : (valueRange type).2 < 2 ^ 64 := by
      cases type <;> decide
    rw [hparse, parseUnsigned_iff hhi, denotes_unsigned hzero]
    simp only [wholeUnsignedLongLong_iff]
    constructor
    · rintro ⟨hhead, n, ⟨neg, m, hwhole, hm, rfl⟩, rfl, hle⟩
      -- a minus sign that is not at the start stands behind white space
      cases neg with
      | true => exact .inr ⟨hzero, hhead, m, hwhole, hm, rfl, hle⟩
      | false => exact .inl ⟨m, hwhole, rfl, hle⟩
    · rintro (⟨m, hwhole, rfl, hle⟩ | ⟨-, hhead, m, hwhole, hm, rfl, hle⟩)
      · exact ⟨head_ne_minus hwhole, m, ⟨false, m, hwhole, by omega, rfl⟩, rfl, hle⟩
      · exact ⟨hhead, _, ⟨true, m, hwhole, hm, rfl⟩, rfl, hle⟩

theorem parseValue_integer (hconv : conversion type = some conv) (lib : FloatLib F) (v : Str) :
    (∃ z, parseValue lib type v = .ok (.int z)) ∨
      parseValue lib type v = .error .invalidNumber := by
  rcases parseValue_cases hconv lib v with ⟨-, hparse⟩ | ⟨-, hparse⟩
  · rw [hparse, parseSigned]
    split
    · split
      · exact .inl ⟨_, rfl⟩
      · exact .inr rfl
    · exact .inr rfl
  · rw [hparse, parseUnsigned]
    split
    · exact .inr rfl
    · split
      · split
        · exact .inl ⟨_, rfl⟩
        · exact .inr rfl
      · exact .inr rfl

/-! ## The whole -/

/-- The string is stored as what it denotes, or the variables stay as they are; and the conversion
of `str_to_num.c` accepts the same strings as the same values. -/
def Converts (lib : FloatLib F) (lv : Level F) (f : Flag F)
    (conv : Option Str → Except StoError Int) (v text : Str) : Prop :=
  (∀ z, Denotes f.type v z → storeValue lib lv f v text = .ok (lv.store f (.int z))) ∧
    ((∀ z, ¬ Denotes f.type v z) → ∃ ending, storeValue lib lv f v text = .error (ending, lv)) ∧
    ∀ z, parseValue lib f.type v = .ok (.int z) ↔ conv (some v) = .ok z

/-- It is so for every string but those with a hidden minus sign. -/
theorem integerFlag_exact_iff (lib : FloatLib F) (lv : Level F) (f : Flag F)
    (hconv : conversion f.type = some conv) (v text : Str) :
    Converts lib lv f conv v text ↔ ∀ z, ¬ HiddenMinus f.type v z := by
  constructor
  · rintro ⟨-, -, hagree⟩ z hminus
    have hok := (hagree z).mp ((parseValue_iff hconv).mpr (.inr hminus))
    exact hminus.not_denotes ((conversion_iff hconv).mp hok)
  · intro hnot
    have haccepts : ∀ {z}, parseValue lib f.type v = .ok (.int z) ↔ Denotes f.type v z := by
      intro z
      rw [parseValue_iff hconv, or_iff_left (hnot z)]
    refine ⟨fun z hdenotes => ?_, fun hnone => ?_, fun z => ?_⟩
    · rw [storeValue, haccepts.mpr hdenotes]
    · rcases parseValue_integer hconv lib v with ⟨z, hok⟩ | herror
      · exact absurd (haccepts.mp hok) (hnone z)
      · exact ⟨_, by rw [storeValue, herror]⟩
    · rw [haccepts, conversion_iff hconv]

theorem integerFlag_exact_iff_small :
    Converts (F := Unit) ⟨fun _ => none, fun _ => none⟩ (Level.fresh fun _ => .int 0)
      ⟨.int8, [], 0, 0, false, none⟩ strToI8 [0x20, 0x2D, 0x31, 0x32, 0x38] [] :=
  (integerFlag_exact_iff _ _ _ rfl _ _).mpr fun _ h => absurd h.1 (by decide)

/-- Minus one behind a space is stored as the greatest value of the type. -/
theorem hidden_minus_stored :
    parseValue (F := Unit) ⟨fun _ => none, fun _ => none⟩ .uint64 [0x20, 0x2D, 0x31] =
        .ok (.int (2 ^ 64 - 1)) ∧
      ¬ Converts (F := Unit) ⟨fun _ => none, fun _ => none⟩ (Level.fresh fun _ => .int 0)
        ⟨.uint64, [], 0, 0, false, none⟩ strToU64 [0x20, 0x2D, 0x31] [] := by
  have hstored : parseValue (F := Unit) ⟨fun _ => none, fun _ => none⟩ .uint64 [0x20, 0x2D, 0x31] =
      .ok (.int (2 ^ 64 - 1)) := rfl
  have hrefused : strToU64 (some [0x20, 0x2D, 0x31]) = .error .underflow := rfl
  refine ⟨hstored, ?_⟩
  rintro ⟨-, -, hagree⟩
  have hok := (hagree _).mp hstored
  rw [hrefused] at hok
  cases hok

end Solidc.Flags
