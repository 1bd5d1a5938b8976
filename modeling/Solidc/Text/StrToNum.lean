import Solidc.Lib.Radix
import Solidc.Lib.CString
import Solidc.Text.Numbers

/-! # Strings to integers, with the result pointer

All integer conversions of `str_to_num.c`, those with a base among them, with what they leave
behind the pointer `result`.

* `signedBaseConversion_converts`, `unsignedBaseConversion_converts` — what the macros expand to;
* `conversions_exact` — each of the functions accepts the numbers of its base that its type has,
  stores these, and stores nothing else;
* `signedConversion_eq`, `unsignedConversion_eq` — base 10 gives what `Numbers` has.
-/

namespace Solidc.Text.StrToNum

open CLib

/-! ## The code -/

/-- `validate_and_parse_signed`. -/
def validateAndParseSigned (str : Option (List UInt8)) (base : Nat) : Except StoError Int :=
  match str with
  | none => .error .invalid
  | some str =>
    let (result, rest, range) := strtoimaxIn base str
    checkEnd str result rest range

/-- `validate_and_parse_unsigned`. -/
def validateAndParseUnsigned (str : Option (List UInt8)) (base : Nat) : Except StoError Nat :=
  match str with
  | none => .error .invalid
  | some str =>
    if (str.dropWhile isSkipped).head? = some 0x2D then .error .underflow
    else
      let (result, rest, range) := strtoumaxIn base str
      checkEnd str result rest range

/-- What a call returns (no error is `STO_SUCCESS`), and the value behind `result` afterwards, which
may be NULL. -/
structure StoCall where
  error : Option StoError
  result : Option Int
deriving DecidableEq

/-- The result is only written to on success. -/
def storing (conversion : Except StoError Int) (result : Option Int) : StoCall :=
  match result with
  | none => ⟨some .invalid, none⟩
  | some old =>
    match conversion with
    | .error err => ⟨some err, some old⟩
    | .ok value => ⟨none, some value⟩

/-- `IMPLEMENT_SIGNED_BASE_CONVERSION`. -/
def signedBaseConversion (typeMax typeMin : Int) (str : Option (List UInt8)) (base : Nat)
    (result : Option Int) : StoCall :=
  storing (do
    let temp ← validateAndParseSigned str base
    if temp > typeMax ∨ temp < typeMin then .error .overflow else .ok temp) result

/-- `IMPLEMENT_UNSIGNED_BASE_CONVERSION`. -/
def unsignedBaseConversion (typeMax : Nat) (str : Option (List UInt8)) (base : Nat)
    (result : Option Int) : StoCall :=
  storing (do
    let temp ← validateAndParseUnsigned str base
    if temp > typeMax then .error .overflow else .ok (temp : Int)) result

/-- `IMPLEMENT_SIGNED_CONVERSION`. -/
def signedConversion (typeMax typeMin : Int) (str : Option (List UInt8)) (result : Option Int) :
    StoCall :=
  signedBaseConversion typeMax typeMin str 10 result

/-- `IMPLEMENT_UNSIGNED_CONVERSION`. -/
def unsignedConversion (typeMax : Nat) (str : Option (List UInt8)) (result : Option Int) :
    StoCall :=
  unsignedBaseConversion typeMax str 10 result

def strToI8 := signedConversion (2 ^ 7 - 1) (-2 ^ 7)
def strToU8 := unsignedConversion (2 ^ 8 - 1)
def strToI16 := signedConversion (2 ^ 15 - 1) (-2 ^ 15)
def strToU16 := unsignedConversion (2 ^ 16 - 1)
def strToI32 := signedConversion (2 ^ 31 - 1) (-2 ^ 31)
def strToU32 := unsignedConversion (2 ^ 32 - 1)
def strToI64 := signedConversion (2 ^ 63 - 1) (-2 ^ 63)
def strToU64 := unsignedConversion (2 ^ 64 - 1)
def strToInt := signedConversion (2 ^ 31 - 1) (-2 ^ 31)
def strToUint := unsignedConversion (2 ^ 32 - 1)
def strToLong := signedConversion (2 ^ 63 - 1) (-2 ^ 63)
def strToUlong := unsignedConversion (2 ^ 64 - 1)
def strToIntBase := signedBaseConversion (2 ^ 31 - 1) (-2 ^ 31)
def strToLongBase := signedBaseConversion (2 ^ 63 - 1) (-2 ^ 63)
def strToUlongBase := unsignedBaseConversion (2 ^ 64 - 1)

/-- `str_to_uintptr`, which has no test of the range. -/
def strToUintptr (str : Option (List UInt8)) (result : Option Int) : StoCall :=
  storing (do
    let temp ← validateAndParseUnsigned str 10
    .ok (temp : Int)) result

/-! ## What is accepted -/

variable {base : Nat} {s : List UInt8} {z : Int}

theorem ne_nil_of_scanRadix {r : Bool × Nat × List UInt8} (h : scanRadix base s = some r) :
    s ≠ [] := by
  rintro rfl
  rw [scanRadix_nil] at h
  cases h

/-- The only number that a string can be is the one that is scanned. -/
theorem wholeIn_scanned {neg : Bool} {m : Nat} {rest : List UInt8} {p : Bool → Nat → Prop}
    (h : scanRadix base s = some (neg, m, rest)) :
    (∃ neg m, WholeIn base s neg m ∧ p neg m) ↔ rest = [] ∧ p neg m := by
  simp only [← scanRadix_whole_iff, h]
  constructor
  · rintro ⟨neg', m', heq, hp⟩
    cases heq
    exact ⟨rfl, hp⟩
  · rintro ⟨rfl, hp⟩
    exact ⟨neg, m, rfl, hp⟩

theorem no_wholeIn {p : Bool → Nat → Prop} (h : scanRadix base s = none) :
    ¬ ∃ neg m, WholeIn base s neg m ∧ p neg m := by
  rintro ⟨neg, m, hwhole, -⟩
  rw [scanRadix_whole_iff.mpr hwhole] at h
  cases h

theorem validateAndParseSigned_iff : validateAndParseSigned (some s) base = .ok z ↔
    ∃ neg m, WholeIn base s neg m ∧ signedValue neg m = z ∧ -2 ^ 63 ≤ z ∧ z < 2 ^ 63 := by
  refine checkEnd_eq_ok_iff.trans ?_
  cases hscan : scanRadix base s with
  | none => exact iff_of_false (fun h => h.2.2.1 h.2.1) (no_wholeIn hscan)
  | some r =>
    obtain ⟨neg, m, rest⟩ := r
    rw [wholeIn_scanned hscan]
    cases neg with
    | true =>
      simp only [if_true, whole_iff (ne_nil_of_scanRadix hscan), signedValue]
      refine and_congr_right fun _ => ?_
      omega
    | false =>
      simp only [Bool.false_eq_true, if_false, whole_iff (ne_nil_of_scanRadix hscan), signedValue]
      refine and_congr_right fun _ => ?_
      omega

/-- A minus sign behind the white space is found. -/
theorem minus_iff {neg : Bool} {m : Nat} (h : WholeIn base s neg m) :
    (s.dropWhile isSkipped).head? = some 0x2D ↔ neg = true := by
  obtain ⟨spaces, sign, pre, digits, b, rfl, hspaces, hsign, hradix, hne, hdigits, -⟩ := h
  obtain ⟨c, t, hhead, hc⟩ := hradix.head hne hdigits
  rw [isSkipped_eq, List.dropWhile_append_of_pos hspaces, hhead, (scanSign_of_head hsign hc).1]
  cases hsign with
  | nothing => simpa using hc.2.1
  | plus => simp
  | minus => exact ⟨fun _ => rfl, fun _ => rfl⟩

theorem validateAndParseUnsigned_iff {n : Nat} :
    validateAndParseUnsigned (some s) base = .ok n ↔ WholeIn base s false n ∧ n < 2 ^ 64 := by
  have hparse : validateAndParseUnsigned (some s) base = .ok n ↔
      (s.dropWhile isSkipped).head? ≠ some 0x2D ∧ ∃ neg m, WholeIn base s neg m ∧ m < 2 ^ 64 ∧
        (if neg then (2 ^ 64 - m) % 2 ^ 64 else m) = n := by
    unfold validateAndParseUnsigned
    dsimp only
    split
    case isTrue h => simp [h]
    case isFalse h =>
      rw [and_iff_right h]
      refine checkEnd_eq_ok_iff.trans ?_
      unfold strtoumaxIn
      cases hscan : scanRadix base s with
      | none => exact iff_of_false (fun h => h.2.2.1 h.2.1) (no_wholeIn hscan)
      | some r =>
        obtain ⟨neg, m, rest⟩ := r
        rw [wholeIn_scanned hscan]
        exact whole_iff (ne_nil_of_scanRadix hscan)
  rw [hparse]
  exact without_minus_iff fun _ _ => minus_iff

/-- The string is a number of the type, written in the base; a minus sign is one of a signed
type only. -/
def Denotes (base : Nat) (signed : Bool) (lo hi : Int) (s : List UInt8) (z : Int) : Prop :=
  ∃ neg m, WholeIn base s neg m ∧ signedValue neg m = z ∧ (neg = true → signed = true) ∧
    lo ≤ z ∧ z ≤ hi

/-- The function stores the number that the string is, or it reports an error and stores
nothing. -/
def Converts (f : Option (List UInt8) → Option Int → StoCall) (base : Nat) (signed : Bool)
    (lo hi : Int) : Prop :=
  ∀ (s : CString) (old : Int),
    (∀ z, Denotes base signed lo hi s.bytes z →
      f (some s.bytes) (some old) = ⟨none, some z⟩) ∧
    ((¬ ∃ z, Denotes base signed lo hi s.bytes z) →
      ∃ err, f (some s.bytes) (some old) = ⟨some err, some old⟩)

/-- A conversion that succeeds with the right numbers. -/
theorem converts_of_iff {conversion : Option (List UInt8) → Except StoError Int} {signed : Bool}
    {lo hi : Int}
    (h : ∀ s z, conversion (some s) = .ok z ↔ Denotes base signed lo hi s z) :
    Converts (fun str => storing (conversion str)) base signed lo hi := by
  intro s old
  constructor
  · intro z hz
    change storing (conversion (some s.bytes)) (some old) = _
    rw [(h s.bytes z).mpr hz]
    rfl
  · intro hno
    cases hconv : conversion (some s.bytes) with
    | ok z => exact absurd ⟨z, (h s.bytes z).mp hconv⟩ hno
    | error err =>
      refine ⟨err, ?_⟩
      change storing (conversion (some s.bytes)) (some old) = _
      rw [hconv]
      rfl

theorem signedBaseConversion_converts {typeMax typeMin : Int} (hmax : typeMax < 2 ^ 63)
    (hmin : -2 ^ 63 ≤ typeMin) (base : Nat) :
    Converts (fun str => signedBaseConversion typeMax typeMin str base) base true typeMin
      typeMax := by
  refine converts_of_iff fun s z => ?_
  rw [ranged_iff, validateAndParseSigned_iff, Denotes]
  -- the range of the type lies within that of `intmax_t`
  constructor
  · rintro ⟨⟨neg, m, hwhole, hvalue, -⟩, hrange⟩
    exact ⟨neg, m, hwhole, hvalue, fun _ => rfl, hrange⟩
  · rintro ⟨neg, m, hwhole, hvalue, -, hrange⟩
    exact ⟨⟨neg, m, hwhole, hvalue, by omega⟩, hrange⟩

/-- A number without a minus sign is not negative. -/
theorem denotes_unsigned_iff {typeMax : Nat} : Denotes base false 0 typeMax s z ↔
    ∃ m : Nat, WholeIn base s false m ∧ (m : Int) = z ∧ m ≤ typeMax := by
  constructor
  · rintro ⟨neg, m, hwhole, hvalue, hneg, -, hhigh⟩
    cases neg with
    | true => cases hneg rfl
    | false =>
      have hm : (m : Int) = z := hvalue
      exact ⟨m, hwhole, hm, by omega⟩
  · rintro ⟨m, hwhole, rfl, hle⟩
    exact ⟨false, m, hwhole, rfl, nofun, by omega, by omega⟩

theorem unsignedBaseConversion_converts {typeMax : Nat} (hmax : typeMax < 2 ^ 64) (base : Nat) :
    Converts (fun str => unsignedBaseConversion typeMax str base) base false 0 typeMax := by
  refine converts_of_iff fun s z => ?_
  rw [denotes_unsigned_iff]
  have hbind : (do
      let temp ← validateAndParseUnsigned (some s) base
      if temp > typeMax then .error .overflow else .ok (temp : Int)) =
        (.ok z : Except StoError Int) ↔
      ∃ m, validateAndParseUnsigned (some s) base = .ok m ∧ (m : Int) = z ∧ m ≤ typeMax :=
    unsignedRanged_iff
  rw [hbind]
  simp only [validateAndParseUnsigned_iff]
  constructor
  · rintro ⟨m, ⟨hwhole, -⟩, hm⟩
    exact ⟨m, hwhole, hm⟩
  · rintro ⟨m, hwhole, hm, hle⟩
    exact ⟨m, ⟨hwhole, hle.trans_lt hmax⟩, hm, hle⟩

/-- The type of `str_to_uintptr` has every value that is read. -/
theorem strToUintptr_eq : strToUintptr = strToU64 := by
  funext str result
  have hsame : (do
        let temp ← validateAndParseUnsigned str 10
        (.ok (temp : Int) : Except StoError Int)) =
      (do
        let temp ← validateAndParseUnsigned str 10
        if temp > 2 ^ 64 - 1 then .error .overflow else .ok (temp : Int)) := by
    cases hparse : validateAndParseUnsigned str 10 with
    | error err => rfl
    | ok temp =>
      cases str with
      | none => cases hparse
      | some s =>
        have hlt := (validateAndParseUnsigned_iff.mp hparse).2
        change _ = if temp > 2 ^ 64 - 1 then _ else _
        rw [if_neg (by omega)]
        rfl
  rw [strToUintptr, hsame]
  rfl

theorem signedConversion_eq (typeMax typeMin : Int) (str : Option (List UInt8))
    (result : Option Int) : signedConversion typeMax typeMin str result =
      storing (Text.signedConversion typeMax typeMin str) result := by
  have hparse : validateAndParseSigned str 10 = Text.validateAndParseSigned str := by
    cases str with
    | none => rfl
    | some s => rw [validateAndParseSigned, strtoimaxIn_ten]; rfl
  rw [signedConversion, signedBaseConversion, hparse]
  rfl

theorem unsignedConversion_eq (typeMax : Nat) (str : Option (List UInt8)) (result : Option Int) :
    unsignedConversion typeMax str result =
      storing (Text.unsignedConversion typeMax str) result := by
  have hparse : validateAndParseUnsigned str 10 = Text.validateAndParseUnsigned str := by
    cases str with
    | none => rfl
    | some s => rw [validateAndParseUnsigned, strtoumaxIn_ten]; rfl
  rw [unsignedConversion, unsignedBaseConversion, hparse]
  rfl

/-- Every integer conversion accepts exactly the numbers of its type, in its base: it stores these,
and on any other string the result keeps its value. -/
theorem conversions_exact :
    Converts strToI8 10 true (-2 ^ 7) (2 ^ 7 - 1) ∧ Converts strToU8 10 false 0 (2 ^ 8 - 1) ∧
    Converts strToI16 10 true (-2 ^ 15) (2 ^ 15 - 1) ∧
    Converts strToU16 10 false 0 (2 ^ 16 - 1) ∧
    Converts strToI32 10 true (-2 ^ 31) (2 ^ 31 - 1) ∧
    Converts strToU32 10 false 0 (2 ^ 32 - 1) ∧
    Converts strToI64 10 true (-2 ^ 63) (2 ^ 63 - 1) ∧
    Converts strToU64 10 false 0 (2 ^ 64 - 1) ∧
    Converts strToInt 10 true (-2 ^ 31) (2 ^ 31 - 1) ∧
    Converts strToUint 10 false 0 (2 ^ 32 - 1) ∧
    Converts strToLong 10 true (-2 ^ 63) (2 ^ 63 - 1) ∧
    Converts strToUlong 10 false 0 (2 ^ 64 - 1) ∧
    Converts strToUintptr 10 false 0 (2 ^ 64 - 1) ∧
    ∀ base, base = 0 ∨ 2 ≤ base ∧ base ≤ 36 →
      Converts (fun str => strToIntBase str base) base true (-2 ^ 31) (2 ^ 31 - 1) ∧
      Converts (fun str => strToLongBase str base) base true (-2 ^ 63) (2 ^ 63 - 1) ∧
      Converts (fun str => strToUlongBase str base) base false 0 (2 ^ 64 - 1) := by
  have hsigned : ∀ typeMax typeMin : Int, typeMax < 2 ^ 63 → -2 ^ 63 ≤ typeMin → ∀ base : Nat,
      Converts (fun str => signedBaseConversion typeMax typeMin str base) base true typeMin
        typeMax := fun _ _ => signedBaseConversion_converts
  have hunsigned : ∀ typeMax : Nat, typeMax < 2 ^ 64 → ∀ base : Nat,
      Converts (fun str => unsignedBaseConversion typeMax str base) base false 0 typeMax :=
    fun _ => unsignedBaseConversion_converts
  refine ⟨hsigned _ _ (by decide) (by decide) 10, hunsigned _ (by decide) 10,
    hsigned _ _ (by decide) (by decide) 10, hunsigned _ (by decide) 10,
    hsigned _ _ (by decide) (by decide) 10, hunsigned _ (by decide) 10,
    hsigned _ _ (by decide) (by decide) 10, hunsigned _ (by decide) 10,
    hsigned _ _ (by decide) (by decide) 10, hunsigned _ (by decide) 10,
    hsigned _ _ (by decide) (by decide) 10, hunsigned _ (by decide) 10,
    strToUintptr_eq ▸ hunsigned _ (by decide) 10, fun base _ => ?_⟩
  exact ⟨hsigned _ _ (by decide) (by decide) base, hsigned _ _ (by decide) (by decide) base,
    hunsigned _ (by decide) base⟩

/-- `0x1F` in C notation, and `0x` without a digit. -/
example : strToIntBase (some [0x30, 0x78, 0x31, 0x46]) 0 (some 7) = ⟨none, some 31⟩ := by decide

example : strToIntBase (some [0x30, 0x78]) 16 (some 7) = ⟨some .invalid, some 7⟩ := by decide

end Solidc.Text.StrToNum
