import Solidc.Lib.Scientific
import Solidc.Slice.Numbers

/-! # Slices to doubles

`ss_to_double` on the bytes of a slice: the integer of the digits, the power of ten that it is
multiplied by (or divided by) at the end, and the sign. The arithmetic on `int`s is checked. The
rounding of the last operation is not part of it: the double is the one that is closest to a
rational number, and that number is compared with the literal.

The code cuts the power of ten at 308, where it expects the double to be infinite or 0 anyway, and
reads no more than six digits of the exponent.

* `ssToDouble_literal` — what it makes of a literal;
* `ssToDouble_exact_iff` — for which literals that is their value.
-/

namespace Solidc.Slice

open CLib

/-! ## The code -/

def ulongMax : Nat := 2 ^ 64 - 1

/-- What the loop over the digits has read. -/
structure Mantissa where
  mantissa : Nat
  decShift : Int
  seenDot : Bool
  hasDigits : Bool
  saturated : Bool

def Mantissa.zero : Mantissa := ⟨0, 0, false, false, false⟩

/-- The body of the loop for a digit. -/
def Mantissa.digit (m : Mantissa) (c : UInt8) : Option Mantissa :=
  let d := c.toNat - 0x30
  if m.saturated = false then
    if m.mantissa > (ulongMax - d) / 10 then
      -- the mantissa is full: digits before the point still move the power of ten
      if m.seenDot = false then do
        let decShift ← checked32 (m.decShift + 1)
        some { m with hasDigits := true, saturated := true, decShift }
      else some { m with hasDigits := true, saturated := true }
    else
      if m.seenDot then do
        let decShift ← checked32 (m.decShift - 1)
        some { m with hasDigits := true, mantissa := (m.mantissa * 10 + d) % 2 ^ 64, decShift }
      else some { m with hasDigits := true, mantissa := (m.mantissa * 10 + d) % 2 ^ 64 }
  else if m.seenDot = false then do
    let decShift ← checked32 (m.decShift + 1)
    some { m with hasDigits := true, decShift }
  else some { m with hasDigits := true }

/-- The loop over the digits and the point, with what is left behind them. -/
def mantissaLoop : List UInt8 → Mantissa → Option (Mantissa × List UInt8)
  | [], m => some (m, [])
  | c :: rest, m =>
    if isDigit c then (m.digit c).bind (mantissaLoop rest)
    -- a second point ends the number
    else if c = 0x2E ∧ m.seenDot = false then mantissaLoop rest { m with seenDot := true }
    else some (m, c :: rest)

/-- The loop over the digits of the exponent. -/
def exponentLoop : List UInt8 → Int → Option Int
  | [], shift => some shift
  | c :: rest, shift =>
    if isDigit c then
      -- later digits are passed over
      if shift < 100000 then do
        let shift ← checked32 (shift * 10)
        let shift ← checked32 (shift + (c.toNat - 0x30))
        exponentLoop rest shift
      else exponentLoop rest shift
    else some shift

/-- The exponent behind the digits; there is no number when it has none. -/
def expShift : List UInt8 → Option (Option Int)
  | [] => some (some 0)
  | c :: rest =>
    if c = 0x65 ∨ c = 0x45 then
      let (neg, rest) := scanSign rest
      if (rest.head?.map isDigit).getD false = false then some none
      else do
        let shift ← exponentLoop rest 0
        if neg then
          let shift ← checked32 (-shift)
          some (some shift)
        else some (some shift)
    else some (some 0)

/-- The power of ten that the mantissa is multiplied by, or divided by when it is negative. -/
def appliedExp (total : Int) : Option Int :=
  if total ≠ 0 then do
    let abs ← if total < 0 then checked32 (-total) else some total
    let abs := if abs > 308 then 308 else abs
    some (if total < 0 then -abs else abs)
  else some 0

/-- `ss_to_double`: what it returns, and what it writes to `out`, unless that is NULL. -/
def ssToDouble (s : List UInt8) (out : Bool) : Option (StrSliceErr × Option Scientific) :=
  if out = false then some (.null, none)
  else do
    let (neg, rest) := scanSign s
    let (m, rest) ← mantissaLoop rest .zero
    if m.hasDigits = false then some (.notFound, none)
    else
      match ← expShift rest with
      | none => some (.invalid, none)
      | some shift => do
        let total ← checked32 (m.decShift + shift)
        let exp ← appliedExp total
        some (.ok, some ⟨neg, m.mantissa, exp⟩)

/-! ## Literals -/

/-- `e` or `E`, a sign, and digits. -/
structure ExponentPart where
  marker : UInt8
  sign : List UInt8
  neg : Bool
  digits : List UInt8
  marker_eq : marker = 0x65 ∨ marker = 0x45
  sign_spec : SignOf sign neg
  digits_ne : digits ≠ []
  isDigit_digits : ∀ c ∈ digits, isDigit c = true

/-- `[sign] digits* [. digits*] [e|E [sign] digits+]`, with at least one digit before the
exponent. -/
structure Literal where
  sign : List UInt8
  neg : Bool
  int : List UInt8
  frac : Option (List UInt8)
  exp : Option ExponentPart
  sign_spec : SignOf sign neg
  digits_ne : int ++ frac.getD [] ≠ []
  isDigit_int : ∀ c ∈ int, isDigit c = true
  isDigit_frac : ∀ c ∈ frac.getD [], isDigit c = true

def ExponentPart.bytes (x : ExponentPart) : List UInt8 := x.marker :: (x.sign ++ x.digits)

namespace Literal

/-- The exponent as it is written. -/
def expBytes (l : Literal) : List UInt8 := (l.exp.map ExponentPart.bytes).getD []

/-- The point, and the digits behind it. -/
def point (l : Literal) : List UInt8 := (l.frac.map (0x2E :: ·)).getD []

def bytes (l : Literal) : List UInt8 := l.sign ++ (l.int ++ (l.point ++ l.expBytes))

/-- The number of digits behind the point. -/
def places (l : Literal) : Nat := (l.frac.getD []).length

/-- The number that is written without the point. -/
def mantissa (l : Literal) : Nat := digitsValue (l.int ++ l.frac.getD [])

def expNeg (l : Literal) : Bool := (l.exp.map ExponentPart.neg).getD false

/-- The exponent without its sign. -/
def expMagnitude (l : Literal) : Nat := (l.exp.map fun x => digitsValue x.digits).getD 0

/-- The power of ten of the last digit. -/
def scale (l : Literal) : Int := signedValue l.expNeg l.expMagnitude - l.places

/-- The number that the literal stands for. -/
def value (l : Literal) : ℚ :=
  signOf l.neg * (((digitsValue l.int : ℚ) + digitsValue (l.frac.getD []) / 10 ^ l.places) *
    10 ^ signedValue l.expNeg l.expMagnitude)

/-- The sign, the mantissa and the power of ten that the code ends with are the literal. -/
def Exact (l : Literal) : Prop :=
  ∃ r, ssToDouble l.bytes true = some (.ok, some r) ∧ r.value = l.value

/-- The power of ten as the code computes it, which looks at six digits of the exponent. -/
def readScale (l : Literal) : Int := signedValue l.expNeg (firstSix l.expMagnitude) - l.places

/-- The digits behind the point can be counted, and the power of ten negated, in an `int`. -/
def Counted (l : Literal) : Prop := l.places ≤ 2 ^ 31 ∧ -2 ^ 31 < l.readScale

instance (l : Literal) : Decidable l.Counted := inferInstanceAs (Decidable (_ ∧ _))

end Literal

/-- The value of a literal as one integer and a power of ten. -/
theorem Literal.value_eq (l : Literal) :
    l.value = (⟨l.neg, l.mantissa, l.scale⟩ : Scientific).value := by
  unfold Literal.value Scientific.value Literal.mantissa Literal.scale Literal.places
  rw [positional_value]

/-! ## The digits -/

variable {ds rest : List UInt8} {c : UInt8}

/-- The guard refuses exactly the steps that would wrap. -/
theorem wide_guard_iff {m d : Nat} (hd : d ≤ 9) :
    m > (ulongMax - d) / 10 ↔ 2 ^ 64 ≤ m * 10 + d := by
  unfold ulongMax
  omega

namespace Mantissa

variable {m : Mantissa}

/-- How far digits move the power of ten: behind the point by one each. -/
def shifted (m : Mantissa) (n : Nat) : Int := if m.seenDot then m.decShift - n else m.decShift

/-- After digits that the mantissa has room for. -/
def after (m : Mantissa) (ds : List UInt8) : Mantissa :=
  { m with
    mantissa := valueFrom m.mantissa ds
    decShift := m.shifted ds.length
    hasDigits := m.hasDigits || !ds.isEmpty }

theorem digit_eq (hc : isDigit c = true) (hroom : m.saturated = false)
    (hfits : valueFrom m.mantissa [c] < 2 ^ 64) (hshift : Fits32 m.decShift) :
    m.digit c = if -2 ^ 31 ≤ m.shifted 1 then some (m.after [c]) else none := by
  obtain ⟨hlow, hhigh⟩ := digit_range hc
  obtain ⟨d, hd⟩ : ∃ d, d = c.toNat - 0x30 := ⟨_, rfl⟩
  have hvalue : valueFrom m.mantissa [c] = m.mantissa * 10 + d := by
    rw [hd]
    rfl
  rw [hvalue] at hfits
  have hguard : ¬ m.mantissa > (ulongMax - d) / 10 :=
    fun h => absurd ((wide_guard_iff (by omega)).mp h) (Nat.not_le_of_lt hfits)
  unfold Mantissa.digit Mantissa.after Mantissa.shifted
  rw [hvalue, ← hd]
  dsimp only
  rw [if_pos hroom, if_neg hguard, Nat.mod_eq_of_lt hfits]
  unfold Fits32 at hshift
  cases hdot : m.seenDot with
  | false =>
    rw [if_neg Bool.false_ne_true, if_neg Bool.false_ne_true, if_pos hshift.1]
    simp
  | true =>
    rw [if_pos rfl, if_pos rfl]
    by_cases hlast : -2 ^ 31 ≤ m.decShift - 1
    · rw [checked32_of_fits ⟨hlast, by omega⟩, if_pos (by omega)]
      simp
    · rw [checked32_of_not_fits fun h => hlast h.1, if_neg (by omega)]
      rfl

theorem shifted_le (m : Mantissa) (n : Nat) : m.shifted n ≤ m.decShift := by
  unfold shifted
  split
  · omega
  · exact Int.le_refl _

theorem shifted_zero (m : Mantissa) : m.shifted 0 = m.decShift := by
  unfold shifted
  split
  · exact Int.sub_zero _
  · rfl

theorem after_nil (m : Mantissa) : m.after [] = m := by
  simp [after, valueFrom, shifted_zero]

/-- Digits one after the other move the power of ten as all of them do. -/
theorem shifted_after (m : Mantissa) (c : UInt8) (n : Nat) :
    (m.after [c]).shifted n = m.shifted (n + 1) := by
  unfold shifted after shifted
  dsimp only
  split
  · rw [List.length_singleton]
    omega
  · rfl

theorem after_after (m : Mantissa) (c : UInt8) (ds : List UInt8) :
    (m.after [c]).after ds = m.after (c :: ds) := by
  have hshift := m.shifted_after c ds.length
  unfold after at hshift ⊢
  rw [hshift]
  simp [valueFrom]

/-- The loop over digits that the mantissa has room for. -/
theorem loop_digits (hds : ∀ c ∈ ds, isDigit c = true) (hroom : m.saturated = false)
    (hfits : valueFrom m.mantissa ds < 2 ^ 64) (hshift : Fits32 m.decShift) :
    mantissaLoop (ds ++ rest) m =
      if -2 ^ 31 ≤ m.shifted ds.length then mantissaLoop rest (m.after ds) else none := by
  -- the digits move the power of ten one by one, so if all of them may, the first may
  induction ds generalizing m with
  | nil =>
    rw [List.length_nil, shifted_zero, after_nil, if_pos hshift.1]
    rfl
  | cons c ds ih =>
    have hc : isDigit c = true := hds c List.mem_cons_self
    have hfirst : valueFrom m.mantissa [c] < 2 ^ 64 :=
      Nat.lt_of_le_of_lt (le_valueFrom _ ds) hfits
    rw [List.cons_append, mantissaLoop, if_pos hc, digit_eq hc hroom hfirst hshift]
    have hmore : m.shifted (ds.length + 1) ≤ m.shifted 1 := by
      have hle := (m.after [c]).shifted_le ds.length
      rwa [shifted_after] at hle
    by_cases hone : -2 ^ 31 ≤ m.shifted 1
    · have hstep : Fits32 (m.after [c]).decShift :=
        ⟨hone, Int.lt_of_le_of_lt (m.shifted_le 1) hshift.2⟩
      have hrest := ih (m := m.after [c]) (fun c h => hds c (List.mem_cons_of_mem _ h)) hroom hfits
        hstep
      rw [if_pos hone, Option.bind_some, hrest, shifted_after, after_after, List.length_cons]
    · rw [if_neg hone, Option.bind_none, List.length_cons, if_neg (by omega)]

/-- The loop over the point. -/
theorem loop_point (hdot : m.seenDot = false) :
    mantissaLoop (0x2E :: rest) m = mantissaLoop rest { m with seenDot := true } := by
  have hpoint : ¬ isDigit 0x2E = true := by decide
  rw [mantissaLoop, if_neg hpoint, if_pos ⟨rfl, hdot⟩]

/-- The loop ends at what is neither. -/
theorem loop_end (h : ∀ c, rest.head? = some c → isDigit c = false ∧ c ≠ 0x2E) :
    mantissaLoop rest m = some (m, rest) := by
  cases rest with
  | nil => rfl
  | cons c rest =>
    obtain ⟨hdigit, hpoint⟩ := h c rfl
    have hnot : ¬ (c = 0x2E ∧ m.seenDot = false) := fun heq => hpoint heq.1
    rw [mantissaLoop, hdigit, if_neg Bool.false_ne_true, if_neg hnot]

end Mantissa

/-! ## The exponent -/

/-- A digit more, unless there are six already. -/
theorem exponentLoop_cons {k : Nat} (hc : isDigit c = true) :
    exponentLoop (c :: rest) k =
      exponentLoop rest (if k < 10 ^ 5 then k * 10 + (c.toNat - 0x30) else k : Nat) := by
  obtain ⟨hlow, hhigh⟩ := digit_range hc
  rw [exponentLoop, if_pos hc]
  by_cases hshort : k < 10 ^ 5
  · have hbelow : (k : Int) < 100000 := by omega
    have hmul : Fits32 ((k : Int) * 10) := by
      unfold Fits32
      omega
    have hadd : Fits32 ((k : Int) * 10 + (c.toNat - 0x30)) := by
      unfold Fits32
      omega
    have hdigit : (c.toNat : Int) - 0x30 = (c.toNat - 0x30 : Nat) := by omega
    rw [if_pos hbelow, if_pos hshort]
    simp only [Option.bind_eq_bind]
    rw [checked32_of_fits hmul, Option.bind_some, checked32_of_fits hadd, Option.bind_some, hdigit,
      Int.natCast_add, Int.natCast_mul]
    rfl
  · have hlong : ¬ (k : Int) < 100000 := by omega
    rw [if_neg hlong, if_neg hshort]

/-- The digits of the exponent are dropped from the seventh on, leading zeros aside. -/
theorem exponentLoop_digits {n : Nat} (hds : ∀ c ∈ ds, isDigit c = true) :
    exponentLoop ds (firstSix n) = some ((firstSix (valueFrom n ds) : Nat) : Int) := by
  induction ds generalizing n with
  | nil => rfl
  | cons c ds ih =>
    have hc : isDigit c = true := hds c List.mem_cons_self
    obtain ⟨hlow, hhigh⟩ := digit_range hc
    have hd : c.toNat - 0x30 ≤ 9 := by omega
    calc exponentLoop (c :: ds) (firstSix n)
        = exponentLoop ds (firstSix (n * 10 + (c.toNat - 0x30)) : Nat) := by
          rw [exponentLoop_cons hc, firstSix_digit hd]
      _ = some ((firstSix (valueFrom n (c :: ds)) : Nat) : Int) :=
          ih fun c h => hds c (List.mem_cons_of_mem _ h)

theorem expShift_literal (l : Literal) :
    expShift l.expBytes = some (some (signedValue l.expNeg (firstSix l.expMagnitude))) := by
  unfold Literal.expBytes Literal.expNeg Literal.expMagnitude
  cases hexp : l.exp with
  | none =>
    have hzero : firstSix 0 = 0 := firstSix_of_lt (by decide)
    change some (some 0) = some (some (signedValue false (firstSix 0)))
    rw [hzero]
    rfl
  | some x =>
    have hhead : ∀ c, x.digits.head? = some c → c ≠ 0x2D ∧ c ≠ 0x2B :=
      fun c hc => (isDigit_ne (x.isDigit_digits c (List.mem_of_mem_head? hc))).2
    have hscan := scanSign_append_of_head x.sign_spec hhead
    have hfound : ¬ (x.digits.head?.map isDigit).getD false = false := by
      rw [head_isDigit_iff, List.takeWhile_eq_self_iff.mpr x.isDigit_digits]
      exact x.digits_ne
    have hloop := exponentLoop_digits (n := 0) x.isDigit_digits
    rw [firstSix_of_lt (by decide : 0 < 10 ^ 6)] at hloop
    change exponentLoop x.digits 0 = some ((firstSix (digitsValue x.digits) : Nat) : Int) at hloop
    have hsix := firstSix_lt (digitsValue x.digits)
    change expShift (x.marker :: (x.sign ++ x.digits)) =
      some (some (signedValue x.neg (firstSix (digitsValue x.digits))))
    rw [expShift, if_pos x.marker_eq, hscan]
    dsimp only
    rw [if_neg hfound, hloop]
    simp only [Option.bind_eq_bind, Option.bind_some]
    cases x.neg with
    | false => rfl
    | true =>
      have hneg : Fits32 (-(firstSix (digitsValue x.digits) : Int)) := by
        unfold Fits32
        omega
      rw [if_pos rfl, checked32_of_fits hneg]
      rfl

/-- The power of ten is cut at 308. -/
theorem appliedExp_eq {total : Int} (h : total < 2 ^ 31) :
    appliedExp total =
      if -2 ^ 31 < total then some (max (-308) (min 308 total)) else none := by
  unfold appliedExp
  by_cases hzero : total = 0
  · rw [if_neg (not_not.mpr hzero), hzero]
    rfl
  · rw [if_pos hzero]
    by_cases hneg : total < 0
    · rw [if_pos hneg]
      by_cases hlow : -2 ^ 31 < total
      · have hfits : Fits32 (-total) := by
          unfold Fits32
          omega
        rw [checked32_of_fits hfits, if_pos hlow]
        simp only [Option.bind_eq_bind, Option.bind_some, if_pos hneg, Option.some.injEq]
        split
        · omega
        · omega
      · have hout : ¬ Fits32 (-total) := by
          unfold Fits32
          omega
        rw [checked32_of_not_fits hout, if_neg hlow]
        rfl
    · rw [if_neg hneg, if_pos (by omega)]
      simp only [Option.bind_eq_bind, Option.bind_some, if_neg hneg, Option.some.injEq]
      split
      · omega
      · omega

/-! ## What is made of a literal -/

/-- The mantissa after the digits of a literal. -/
def Literal.read (l : Literal) : Mantissa := ⟨l.mantissa, -l.places, l.frac.isSome, true, false⟩

theorem Literal.scanSign_bytes (l : Literal) :
    scanSign l.bytes = (l.neg, l.int ++ (l.point ++ l.expBytes)) := by
  refine scanSign_append_of_head l.sign_spec fun c hc => ?_
  have hsome := l.digits_ne
  have hdigits := l.isDigit_int
  unfold Literal.point at hc
  cases hint : l.int with
  | cons c' ds =>
    rw [hint] at hc hdigits
    cases hc
    exact (isDigit_ne (hdigits _ List.mem_cons_self)).2
  | nil =>
    rw [hint] at hc hsome
    cases hfrac : l.frac with
    | none =>
      rw [hfrac] at hsome
      exact absurd rfl hsome
    | some f =>
      rw [hfrac] at hc
      cases hc
      decide

/-- What follows the digits is neither a digit nor a point. -/
theorem Literal.head_expBytes (l : Literal) :
    ∀ c, l.expBytes.head? = some c → isDigit c = false ∧ c ≠ 0x2E := by
  intro c hc
  unfold Literal.expBytes at hc
  cases hexp : l.exp with
  | none =>
    rw [hexp] at hc
    cases hc
  | some x =>
    rw [hexp] at hc
    cases hc
    rcases x.marker_eq with hmarker | hmarker
    · rw [hmarker]
      decide
    · rw [hmarker]
      decide

theorem mantissaLoop_literal (l : Literal) (h : l.mantissa < 2 ^ 64) :
    mantissaLoop (l.int ++ (l.point ++ l.expBytes)) .zero =
      if l.places ≤ 2 ^ 31 then some (l.read, l.expBytes) else none := by
  have hall : valueFrom (valueFrom 0 l.int) (l.frac.getD []) = l.mantissa :=
    (List.foldl_append ..).symm
  have hint : valueFrom 0 l.int < 2 ^ 64 :=
    Nat.lt_of_le_of_lt (le_valueFrom _ (l.frac.getD [])) (hall ▸ h)
  have hzero : Fits32 0 := by decide
  have hsome := l.digits_ne
  have hdigits := l.isDigit_frac
  have hafter : Mantissa.zero.after l.int =
      ⟨valueFrom 0 l.int, 0, false, !l.int.isEmpty, false⟩ := rfl
  have hstart : -2 ^ 31 ≤ Mantissa.zero.shifted l.int.length := hzero.1
  rw [Mantissa.loop_digits l.isDigit_int rfl hint hzero, if_pos hstart, hafter]
  unfold Literal.point Literal.read Literal.places
  cases hfrac : l.frac with
  | none =>
    -- no point: the digits before it are all
    rw [hfrac] at hall hsome
    have hread : (!l.int.isEmpty) = true := by simpa using hsome
    have hvalue : valueFrom 0 l.int = l.mantissa := hall
    change mantissaLoop l.expBytes _ = _
    rw [Mantissa.loop_end l.head_expBytes, hread, hvalue]
    rfl
  | some f =>
    rw [hfrac] at hall hsome hdigits
    have hread : (!l.int.isEmpty || !f.isEmpty) = true := by
      cases hempty : l.int.isEmpty with
      | false => rfl
      | true =>
        rw [List.isEmpty_iff.mp hempty] at hsome
        simpa using hsome
    have hvalue : valueFrom (valueFrom 0 l.int) f = l.mantissa := hall
    have hdigits : ∀ c ∈ f, isDigit c = true := hdigits
    change mantissaLoop (0x2E :: (f ++ l.expBytes)) _ = _
    rw [Mantissa.loop_point rfl, Mantissa.loop_digits hdigits rfl (hvalue ▸ h) hzero]
    unfold Mantissa.after Mantissa.shifted
    rw [hvalue, hread]
    change (if -2 ^ 31 ≤ 0 - (f.length : Int) then _ else none) =
      if f.length ≤ 2 ^ 31 then _ else none
    by_cases hplaces : f.length ≤ 2 ^ 31
    · rw [if_pos hplaces, if_pos (by omega), Mantissa.loop_end l.head_expBytes]
      simp
    · rw [if_neg hplaces, if_neg (by omega)]

/-- On every literal with a mantissa of 64 bits. -/
theorem ssToDouble_literal (l : Literal) (h : l.mantissa < 2 ^ 64) :
    ssToDouble l.bytes true = if l.Counted then
      some (.ok, some ⟨l.neg, l.mantissa, max (-308) (min 308 l.readScale)⟩) else none := by
  have hsix := firstSix_lt l.expMagnitude
  unfold ssToDouble
  rw [if_neg Bool.noConfusion, l.scanSign_bytes]
  dsimp only
  rw [mantissaLoop_literal l h]
  by_cases hplaces : l.places ≤ 2 ^ 31
  · have htotal : l.read.decShift + signedValue l.expNeg (firstSix l.expMagnitude) =
        l.readScale := by
      have hshift : l.read.decShift = -l.places := rfl
      rw [hshift, Literal.readScale]
      omega
    have hhigh : l.readScale < 2 ^ 31 := by
      unfold Literal.readScale signedValue
      split
      · omega
      · omega
    have hread : ¬ l.read.hasDigits = false := Bool.noConfusion
    rw [if_pos hplaces]
    simp only [Option.bind_eq_bind, Option.bind_some]
    rw [if_neg hread, expShift_literal, Option.bind_some]
    dsimp only
    rw [htotal]
    by_cases hlow : -2 ^ 31 ≤ l.readScale
    · rw [checked32_of_fits ⟨hlow, hhigh⟩, Option.bind_some, appliedExp_eq hhigh]
      by_cases hcounted : l.Counted
      · rw [if_pos hcounted, if_pos hcounted.2]
        rfl
      · rw [if_neg hcounted, if_neg fun hlast => hcounted ⟨hplaces, hlast⟩]
        rfl
    · have hnot : ¬ l.Counted := fun hcounted => hlow (Int.le_of_lt hcounted.2)
      rw [checked32_of_not_fits fun hfits => hlow hfits.1, if_neg hnot]
      rfl
  · have hnot : ¬ l.Counted := fun hcounted => hplaces hcounted.1
    rw [if_neg hplaces, if_neg hnot]
    rfl

/-- Cutting gives the power of ten of the literal only within the bounds; an exponent of seven
digits or more is also cut to the right one when that is the lower bound. -/
theorem Literal.cut_eq_iff (l : Literal) : max (-308) (min 308 l.readScale) = l.scale ↔
    |l.scale| ≤ 308 ∧ (l.expMagnitude < 10 ^ 6 ∨ l.scale = -308) := by
  unfold Literal.readScale Literal.scale
  rw [abs_le]
  rcases Nat.lt_or_ge l.expMagnitude (10 ^ 6) with hshort | hlong
  · rw [firstSix_of_lt hshort]
    omega
  · -- what is read has six digits still, so the sum is far outside of the bounds unless there are
    -- as many places behind the point
    have hsix := firstSix_range hlong
    unfold signedValue
    split
    · omega
    · omega

/-- The mantissa with the power of ten is the literal exactly when the digits behind the point can
be counted, and the mantissa is 0, or the power of ten is at most 308 either way and the exponent
has not lost digits. -/
theorem ssToDouble_exact_iff (l : Literal) (h : l.mantissa < 2 ^ 64) : l.Exact ↔
    l.Counted ∧ (l.mantissa = 0 ∨
      |l.scale| ≤ 308 ∧ (l.expMagnitude < 10 ^ 6 ∨ l.scale = -308)) := by
  have hvalue : (⟨l.neg, l.mantissa, max (-308) (min 308 l.readScale)⟩ : Scientific).value =
      l.value ↔ l.mantissa = 0 ∨
        |l.scale| ≤ 308 ∧ (l.expMagnitude < 10 ^ 6 ∨ l.scale = -308) := by
    rw [l.value_eq, Scientific.value_eq_iff, l.cut_eq_iff]
  rw [← hvalue, Literal.Exact, ssToDouble_literal l h]
  by_cases hcounted : l.Counted
  · rw [if_pos hcounted]
    constructor
    · rintro ⟨r, hr, hexact⟩
      cases hr
      exact ⟨hcounted, hexact⟩
    · exact fun hexact => ⟨_, rfl, hexact.2⟩
  · rw [if_neg hcounted]
    constructor
    · rintro ⟨r, hr, hexact⟩
      cases hr
    · exact fun hexact => absurd hexact.1 hcounted

/-- `-12.5e+3` -/
def shortLiteral : Literal where
  sign := [0x2D]
  neg := true
  int := [0x31, 0x32]
  frac := some [0x35]
  exp := some ⟨0x65, [0x2B], false, [0x33], .inl rfl, .plus, by decide,
    List.all_eq_true.mp (by decide)⟩
  sign_spec := .minus
  digits_ne := by decide
  isDigit_int := List.all_eq_true.mp (by decide)
  isDigit_frac := List.all_eq_true.mp (by decide)

theorem ssToDouble_exact_short : shortLiteral.mantissa < 2 ^ 64 ∧ shortLiteral.Exact := by
  refine ⟨by decide, (ssToDouble_exact_iff shortLiteral (by decide)).mpr ⟨⟨by decide, ?_⟩, .inr ?_⟩⟩
  · have hsix : firstSix 3 = 3 := firstSix_of_lt (by decide)
    change -2 ^ 31 < signedValue false (firstSix 3) - 1
    rw [hsix]
    decide
  · exact ⟨by decide, .inl (by decide)⟩

/-- `1e400` -/
def hugeLiteral : Literal where
  sign := []
  neg := false
  int := [0x31]
  frac := none
  exp := some ⟨0x65, [], false, [0x34, 0x30, 0x30], .inl rfl, .nothing, by decide,
    List.all_eq_true.mp (by decide)⟩
  sign_spec := .nothing
  digits_ne := by decide
  isDigit_int := List.all_eq_true.mp (by decide)
  isDigit_frac := List.all_eq_true.mp (by decide)

/-- The double is 10 ^ 308, although no double is as large as the literal. -/
theorem hugeLiteral_cut : hugeLiteral.mantissa < 2 ^ 64 ∧
    ssToDouble hugeLiteral.bytes true = some (.ok, some ⟨false, 1, 308⟩) ∧ ¬ hugeLiteral.Exact := by
  have hcut : ssToDouble hugeLiteral.bytes true = some (.ok, some ⟨false, 1, 308⟩) := by decide
  refine ⟨by decide, hcut, ?_⟩
  rintro ⟨r, hr, hvalue⟩
  rw [hcut] at hr
  cases hr
  rw [hugeLiteral.value_eq] at hvalue
  rcases Scientific.value_eq_iff.mp hvalue with hzero | hexp
  · cases hzero
  · exact absurd hexp (by decide)

end Solidc.Slice
