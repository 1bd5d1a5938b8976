import Solidc.Lib.CNumber
import Mathlib.Data.List.Basic

/-! # Numbers of any base

`strtoimax` and `strtoumax` with their last argument (C locale, 64 bits): a base from 2 to 36, or 0
for a number written as in C. A hexadecimal number may have `0x` in front, and without a digit
behind it the number is the `0`.

* `WholeIn` — which strings are a number of a base, and which number;
* `scanRadix_whole_iff` — these are the strings that the functions read to their end;
* `scanRadix_ten` — base 10 is what `CNumber` has.
-/

namespace CLib

/-- The value of a digit; both cases of a letter count from 10. -/
def digitVal (c : UInt8) : Option Nat :=
  if 0x30 ≤ c ∧ c ≤ 0x39 then some (c.toNat - 0x30)
  else if 0x41 ≤ c ∧ c ≤ 0x5A then some (c.toNat - 0x41 + 10)
  else if 0x61 ≤ c ∧ c ≤ 0x7A then some (c.toNat - 0x61 + 10)
  else none

def isDigitIn (base : Nat) (c : UInt8) : Bool := (digitVal c).any (· < base)

/-- The value of a run of digits. -/
def valueIn (base : Nat) (digits : List UInt8) : Nat :=
  digits.foldl (fun n c => n * base + (digitVal c).getD 0) 0

/-- What follows `0x` or `0X`, if it starts with a digit. -/
def hexPrefixed : List UInt8 → Option (List UInt8)
  | 0x30 :: x :: rest =>
    if (x = 0x78 ∨ x = 0x58) ∧ rest.head?.any (isDigitIn 16) = true then some rest else none
  | _ => none

/-- The base of the digits, and where they start. -/
def radixAt (base : Nat) (s : List UInt8) : Nat × List UInt8 :=
  match if base = 0 ∨ base = 16 then hexPrefixed s else none with
  | some rest => (16, rest)
  | none => if base = 0 then (if s.head? = some 0x30 then 8 else 10, s) else (base, s)

/-- Sign and magnitude of the number at the start of a string, and the rest of the string. There is
none without a digit. -/
def scanRadix (base : Nat) (s : List UInt8) : Option (Bool × Nat × List UInt8) :=
  let (neg, t) := scanSign (s.dropWhile isSpace)
  let (b, t) := radixAt base t
  match t.takeWhile (isDigitIn b) with
  | [] => none
  | digits => some (neg, valueIn b digits, t.dropWhile (isDigitIn b))

/-- `strtoimax`: the value, what follows it, and whether `errno` becomes `ERANGE`. -/
def strtoimaxIn (base : Nat) (s : List UInt8) : Int × List UInt8 × Bool :=
  match scanRadix base s with
  | none => (0, s, false)
  | some (neg, m, rest) =>
    if neg then if m ≤ 2 ^ 63 then (-m, rest, false) else (-2 ^ 63, rest, true)
    else if m < 2 ^ 63 then (m, rest, false) else (2 ^ 63 - 1, rest, true)

/-- `strtoumax`; a minus sign negates the result. -/
def strtoumaxIn (base : Nat) (s : List UInt8) : Nat × List UInt8 × Bool :=
  match scanRadix base s with
  | none => (0, s, false)
  | some (neg, m, rest) =>
    if m < 2 ^ 64 then (if neg then (2 ^ 64 - m) % 2 ^ 64 else m, rest, false)
    else (2 ^ 64 - 1, rest, true)

/-! ## Strings that are numbers -/

/-- What may stand in front of digits that are read in base `b`. -/
inductive RadixOf (base : Nat) : List UInt8 → List UInt8 → Nat → Prop
  | plain {digits : List UInt8} : base ≠ 0 → RadixOf base [] digits base
  | hex {x : UInt8} {digits : List UInt8} : base = 0 ∨ base = 16 → x = 0x78 ∨ x = 0x58 →
      RadixOf base [0x30, x] digits 16
  | octal {digits : List UInt8} : base = 0 → digits.head? = some 0x30 → RadixOf base [] digits 8
  | decimal {digits : List UInt8} : base = 0 → digits.head? ≠ some 0x30 →
      RadixOf base [] digits 10

/-- The string is white space, a sign, a prefix that the base allows and digits of the number
`m`. -/
def WholeIn (base : Nat) (s : List UInt8) (neg : Bool) (m : Nat) : Prop :=
  ∃ spaces sign pre digits b, s = spaces ++ (sign ++ (pre ++ digits)) ∧
    (∀ c ∈ spaces, isSpace c = true) ∧ SignOf sign neg ∧ RadixOf base pre digits b ∧
    digits ≠ [] ∧ (∀ c ∈ digits, isDigitIn b c = true) ∧ valueIn b digits = m

variable {base b m : Nat} {s pre digits : List UInt8} {neg : Bool}

theorem digitVal_lt {c : UInt8} {v : Nat} (h : digitVal c = some v) :
    (0x30 ≤ c.toNat ∧ c.toNat ≤ 0x39 ∧ v = c.toNat - 0x30) ∨
      (0x41 ≤ c.toNat ∧ c.toNat ≤ 0x5A ∧ v = c.toNat - 0x41 + 10) ∨
      (0x61 ≤ c.toNat ∧ c.toNat ≤ 0x7A ∧ v = c.toNat - 0x61 + 10) := by
  unfold digitVal at h
  simp only [UInt8.le_iff_toNat_le, UInt8.reduceToNat] at h
  split at h
  · next hdigit => exact .inl ⟨hdigit.1, hdigit.2, (Option.some.inj h).symm⟩
  · split at h
    · next hupper => exact .inr (.inl ⟨hupper.1, hupper.2, (Option.some.inj h).symm⟩)
    · split at h
      · next hlower => exact .inr (.inr ⟨hlower.1, hlower.2, (Option.some.inj h).symm⟩)
      · cases h

theorem exists_digitVal {c : UInt8} (h : isDigitIn base c = true) :
    ∃ v, digitVal c = some v ∧ v < base := by
  unfold isDigitIn at h
  cases hv : digitVal c with
  | none => rw [hv] at h; cases h
  | some v => exact ⟨v, rfl, by simpa [hv] using h⟩

/-- A digit of any base is neither white space nor a sign. -/
theorem isDigitIn_ne {c : UInt8} (h : isDigitIn base c = true) :
    isSpace c = false ∧ c ≠ 0x2D ∧ c ≠ 0x2B := by
  obtain ⟨v, hv, -⟩ := exists_digitVal h
  have hrange := digitVal_lt hv
  have hlow : 0x30 ≤ c.toNat := by omega
  refine ⟨?_, ?_, ?_⟩
  · simp only [isSpace, Bool.or_eq_false_iff, Bool.and_eq_false_iff, decide_eq_false_iff_not,
      UInt8.le_iff_toNat_le, ← UInt8.toNat_inj]
    simp only [UInt8.reduceToNat]
    omega
  · rintro rfl
    exact absurd hlow (by decide)
  · rintro rfl
    exact absurd hlow (by decide)

/-- `x` is a digit only of bases beyond 33. -/
theorem not_isDigitIn_x {x : UInt8} (hx : x = 0x78 ∨ x = 0x58) (hb : b ≤ 16) :
    isDigitIn b x = false := by
  rw [Bool.eq_false_iff]
  intro h
  obtain ⟨v, hv, hlt⟩ := exists_digitVal h
  have hvx : digitVal x = some 33 := by rcases hx with rfl | rfl <;> decide
  rw [hvx] at hv
  obtain rfl := Option.some.inj hv
  omega

/-- Digits have no hexadecimal prefix themselves. -/
theorem hexPrefixed_digits (hdigits : ∀ c ∈ digits, isDigitIn b c = true) (hb : b ≤ 16) :
    hexPrefixed digits = none := by
  unfold hexPrefixed
  split
  · next x rest =>
    rw [if_neg]
    rintro ⟨hx, -⟩
    have hmem : x ∈ 0x30 :: x :: rest := List.mem_cons_of_mem _ List.mem_cons_self
    exact absurd (hdigits x hmem) (by rw [not_isDigitIn_x hx hb]; decide)
  · rfl

theorem radixAt_of_radixOf (h : RadixOf base pre digits b) (hne : digits ≠ [])
    (hdigits : ∀ c ∈ digits, isDigitIn b c = true) :
    radixAt base (pre ++ digits) = (b, digits) := by
  unfold radixAt
  cases h with
  | plain hbase =>
    have hnone : (if base = 0 ∨ base = 16 then hexPrefixed digits else none) = none := by
      split
      · next h16 => exact hexPrefixed_digits hdigits (by omega)
      · rfl
    rw [List.nil_append, hnone]
    exact if_neg hbase
  | @hex x _ hbase hx =>
    obtain ⟨c, l, rfl⟩ := List.exists_cons_of_ne_nil hne
    have hsome : hexPrefixed ([0x30, x] ++ c :: l) = some (c :: l) :=
      if_pos ⟨hx, hdigits c List.mem_cons_self⟩
    rw [if_pos hbase, hsome]
  | octal hbase hhead =>
    rw [List.nil_append, if_pos (.inl hbase), hexPrefixed_digits hdigits (by decide)]
    simp only [if_pos hbase, if_pos hhead]
  | decimal hbase hhead =>
    rw [List.nil_append, if_pos (.inl hbase), hexPrefixed_digits hdigits (by decide)]
    simp only [if_pos hbase, if_neg hhead]

theorem hexPrefixed_eq_some {t rest : List UInt8} (h : hexPrefixed t = some rest) :
    ∃ x, (x = 0x78 ∨ x = 0x58) ∧ t = [0x30, x] ++ rest := by
  unfold hexPrefixed at h
  split at h
  · next x l =>
    rw [Option.ite_none_right_eq_some, Option.some.injEq] at h
    obtain ⟨⟨hx, -⟩, rfl⟩ := h
    exact ⟨x, hx, rfl⟩
  · cases h

theorem radixAt_spec (base : Nat) (t : List UInt8) :
    ∃ pre, t = pre ++ (radixAt base t).2 ∧
      RadixOf base pre (radixAt base t).2 (radixAt base t).1 := by
  unfold radixAt
  split
  · next rest hhex =>
    split at hhex
    · next hbase =>
      obtain ⟨x, hx, rfl⟩ := hexPrefixed_eq_some hhex
      exact ⟨[0x30, x], rfl, .hex hbase hx⟩
    · cases hhex
  · by_cases hbase : base = 0
    · rw [if_pos hbase]
      by_cases hhead : t.head? = some 0x30
      · rw [if_pos hhead]
        exact ⟨[], rfl, .octal hbase hhead⟩
      · rw [if_neg hhead]
        exact ⟨[], rfl, .decimal hbase hhead⟩
    · rw [if_neg hbase]
      exact ⟨[], rfl, .plain hbase⟩

/-- The first character of a number is neither white space nor a sign. -/
theorem RadixOf.head (h : RadixOf base pre digits b) (hne : digits ≠ [])
    (hdigits : ∀ c ∈ digits, isDigitIn b c = true) :
    ∃ c t, pre ++ digits = c :: t ∧ isSpace c = false ∧ c ≠ 0x2D ∧ c ≠ 0x2B := by
  obtain ⟨c, l, rfl⟩ := List.exists_cons_of_ne_nil hne
  have hc := isDigitIn_ne (hdigits c List.mem_cons_self)
  cases h with
  | hex => exact ⟨0x30, _, rfl, by decide, by decide, by decide⟩
  | plain | octal | decimal => exact ⟨c, l, rfl, hc⟩

/-- The sign is found behind the white space. -/
theorem scanSign_of_head {sign t : List UInt8} {c : UInt8} (hsign : SignOf sign neg)
    (hc : isSpace c = false ∧ c ≠ 0x2D ∧ c ≠ 0x2B) :
    (sign ++ c :: t).dropWhile isSpace = sign ++ c :: t ∧
      scanSign (sign ++ c :: t) = (neg, c :: t) := by
  obtain ⟨hspace, hminus, hplus⟩ := hc
  cases hsign with
  | nothing =>
    refine ⟨List.dropWhile_cons_of_neg (by rw [hspace]; decide), ?_⟩
    rw [List.nil_append, scanSign]
    · rintro rest ⟨⟩
      exact hminus rfl
    · rintro rest ⟨⟩
      exact hplus rfl
  | plus => exact ⟨List.dropWhile_cons_of_neg (by decide), rfl⟩
  | minus => exact ⟨List.dropWhile_cons_of_neg (by decide), rfl⟩

theorem scanRadix_whole_iff : scanRadix base s = some (neg, m, []) ↔ WholeIn base s neg m := by
  constructor
  · intro h
    obtain ⟨sign, hsign, hsplit⟩ := scanSign_spec (s.dropWhile isSpace)
    obtain ⟨pre, hpre, hradix⟩ := radixAt_spec base (scanSign (s.dropWhile isSpace)).2
    unfold scanRadix at h
    dsimp only at h
    split at h
    · cases h
    case h_2 hne =>
      simp only [Option.some.injEq, Prod.mk.injEq, List.dropWhile_eq_nil_iff] at h
      obtain ⟨hneg, hvalue, hdigits⟩ := h
      rw [List.takeWhile_eq_self_iff.mpr hdigits] at hne hvalue
      refine ⟨s.takeWhile isSpace, sign, pre, _, _, ?_, fun c hc => List.mem_takeWhile_imp hc,
        hneg ▸ hsign, hradix, hne, hdigits, hvalue⟩
      rw [← hpre, ← hsplit, List.takeWhile_append_dropWhile]
  · rintro ⟨spaces, sign, pre, digits, b, rfl, hspaces, hsign, hradix, hne, hdigits, rfl⟩
    obtain ⟨c, t, hhead, hc⟩ := hradix.head hne hdigits
    obtain ⟨hskip, hscan⟩ := scanSign_of_head (t := t) hsign hc
    rw [← hhead] at hskip hscan
    unfold scanRadix
    rw [List.dropWhile_append_of_pos hspaces, hskip, hscan]
    dsimp only
    rw [radixAt_of_radixOf hradix hne hdigits]
    dsimp only
    rw [List.takeWhile_eq_self_iff.mpr hdigits, List.dropWhile_eq_nil_iff.mpr hdigits]
    cases digits with
    | nil => exact absurd rfl hne
    | cons c l => rfl

theorem scanRadix_nil (base : Nat) : scanRadix base [] = none := by
  obtain ⟨pre, hpre, -⟩ := radixAt_spec base []
  have hnil := (List.append_eq_nil_iff.mp hpre.symm).2
  change (match (radixAt base []).2.takeWhile (isDigitIn (radixAt base []).1) with
    | [] => none
    | digits => some (false, valueIn (radixAt base []).1 digits,
        (radixAt base []).2.dropWhile (isDigitIn (radixAt base []).1))) = none
  rw [hnil, List.takeWhile_nil]

/-! ## Base 10 -/

theorem isDigitIn_ten : isDigitIn 10 = isDigit := by
  funext c
  rw [Bool.eq_iff_iff]
  simp only [isDigit, Bool.and_eq_true, decide_eq_true_eq, UInt8.le_iff_toNat_le,
    UInt8.reduceToNat]
  constructor
  · intro h
    obtain ⟨v, hv, hlt⟩ := exists_digitVal h
    have := digitVal_lt hv
    omega
  · intro h
    have hv : digitVal c = some (c.toNat - 0x30) :=
      if_pos (by simpa only [UInt8.le_iff_toNat_le, UInt8.reduceToNat] using h)
    rw [isDigitIn, hv, Option.any_some, decide_eq_true_eq]
    omega

theorem valueIn_ten (hdigits : ∀ c ∈ digits, isDigit c = true) :
    valueIn 10 digits = digitsValue digits := by
  have hstep : ∀ n : Nat, ∀ c ∈ digits,
      n * 10 + (digitVal c).getD 0 = n * 10 + (c.toNat - 0x30) := by
    intro n c hc
    have hdigit := hdigits c hc
    rw [isDigit, Bool.and_eq_true, decide_eq_true_eq, decide_eq_true_eq] at hdigit
    rw [digitVal, if_pos hdigit, Option.getD_some]
  exact List.foldl_ext _ _ 0 hstep

theorem scanRadix_ten (s : List UInt8) : scanRadix 10 s = scanInteger s := by
  have hradix : ∀ t, radixAt 10 t = (10, t) := fun t => rfl
  have hvalue : ∀ t : List UInt8, valueIn 10 (t.takeWhile isDigit) =
      digitsValue (t.takeWhile isDigit) := fun t =>
    valueIn_ten fun c hc => List.mem_takeWhile_imp hc
  unfold scanRadix scanInteger
  dsimp only
  rw [hradix]
  dsimp only
  rw [isDigitIn_ten]
  have := hvalue (scanSign (s.dropWhile isSpace)).2
  cases hdigits : (scanSign (s.dropWhile isSpace)).2.takeWhile isDigit with
  | nil => rfl
  | cons c l =>
    rw [hdigits] at this
    dsimp only
    rw [this]

theorem strtoimaxIn_ten (s : List UInt8) : strtoimaxIn 10 s = strtoimax s := by
  have hscan := scanRadix_ten s
  cases hinteger : scanInteger s with
  | none => simp only [strtoimaxIn, strtoimax, hscan, hinteger]
  | some r => simp only [strtoimaxIn, strtoimax, hscan, hinteger]

theorem strtoumaxIn_ten (s : List UInt8) : strtoumaxIn 10 s = strtoumax s := by
  have hscan := scanRadix_ten s
  cases hinteger : scanInteger s with
  | none => simp only [strtoumaxIn, strtoumax, hscan, hinteger]
  | some r => simp only [strtoumaxIn, strtoumax, hscan, hinteger]

end CLib
