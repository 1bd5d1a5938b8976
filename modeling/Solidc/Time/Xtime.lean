import Solidc.Time.Calendar
import Mathlib.Algebra.BigOperators.Group.List.Basic
import Mathlib.Tactic.IntervalCases

/-! # Extended time

`xtime_parse`, `xtime_format` and `xtime_to_json`. A result is the text in the caller's buffer, or
the error code; times and offsets are far from the limits of their types.

* `xtimeParse_written` — a date, a fraction and an offset are parsed back to the moment they
  were written for;
* `xtime_round_trip` — so both text forms are.
-/

namespace Solidc.Time

open CLib Gregorian

/-! ## The code -/

/-- `xtime_error_t`, without `XTIME_OK`. -/
inductive XtimeError where
  | invalidArg | parseFailed | dateOutOfRange | bufferTooSmall | invalidTime | system
deriving DecidableEq

/-- `xtime_t`. -/
structure Xtime where
  seconds : Int
  nanoseconds : Nat
  tzOffset : Int
  hasTz : Bool
deriving DecidableEq

/-- `MAX_TZ_OFFSET`. -/
def maxTzOffset : Nat := 1439

/-- `XTIME_FMT_POSTGRES_TZ`. -/
def fmtPostgresTz : List Char := "%Y-%m-%d %H:%M:%S.%f%z".toList

def isLeapYear (year : Int) : Bool :=
  (year.tmod 4 = 0 && year.tmod 100 ≠ 0) || year.tmod 400 = 0

def daysInMonth (year month : Int) : Int :=
  if month < 0 ∨ month > 11 then 0
  else if month = 1 ∧ isLeapYear year = true then 29
  else [31, 28, 31, 30, 31, 30, 31, 31, 30, 31, 30, 31].getD month.toNat 0

/-- The hours and minutes behind the sign of `parse_tz_offset`. -/
def parseHoursMinutes (sign : Int) (str : List Char) : Option Int :=
  match str with
  | a :: b :: str =>
    if a.isDigit = false ∨ b.isDigit = false then none
    else
      let hours := decimalValue [a, b]
      let str := if str.head? = some ':' then str.tail else str
      let minutes : Nat := match str with
        | a :: b :: _ => if a.isDigit ∧ b.isDigit then decimalValue [a, b] else 0
        | _ => 0
      if hours > 23 ∨ minutes > 59 then none
      else
        let total := (hours * 60 + minutes) * sign
        if total.natAbs > maxTzOffset then none else some total
  | _ => none

/-- `parse_tz_offset`. -/
def parseTzOffset (str : List Char) : Option Int :=
  match str.dropWhile (fun c => c = ' ' || c = '\t') with
  | '+' :: str => parseHoursMinutes 1 str
  | '-' :: str => parseHoursMinutes (-1) str
  | 'Z' :: _ | 'z' :: _ => some 0
  | _ => none

/-- The separator before a specifier is taken back. -/
def stripSeparator : List Char → List Char
  | '.' :: out | ' ' :: out => out
  | out => out

/-- The format that `xtime_parse` hands to `strptime`; `out` is what is copied, from the end. -/
def parseFormat : List Char → List Char → List Char
  | [], out => out.reverse
  | '%' :: 'f' :: fmt, out | '%' :: 'z' :: fmt, out =>
    if out.length + 1 < 256 then parseFormat fmt (stripSeparator out) else out.reverse
  | c :: fmt, out => if out.length + 1 < 256 then parseFormat fmt (c :: out) else out.reverse

/-- `for (int y = 1970; y < year; y++)`, from `y` on. -/
def yearLoop (year y days : Int) : Int :=
  if y < year then yearLoop year (y + 1) (days + if isLeapYear y then 366 else 365) else days
termination_by (year - y).toNat

/-- `for (int m = 0; m < month; m++)`, from `m` on. -/
def monthLoop (year month m days : Int) : Int :=
  if m < month then monthLoop year month (m + 1) (days + daysInMonth year m) else days
termination_by (month - m).toNat

/-- The digits of the fraction: `nanos` and `multiplier` are the variables of the loop. -/
def fractionLoop : List Char → Nat → Nat → Nat × List Char
  | [], nanos, _ => (nanos, [])
  | c :: str, nanos, multiplier =>
    if c.isDigit then
      if multiplier ≥ 1 then
        fractionLoop str ((nanos + (c.toNat - '0'.toNat) * multiplier) % 2 ^ 32) (multiplier / 10)
      else fractionLoop str nanos multiplier
    else (nanos, c :: str)

/-- The fraction at the start of what `strptime` left. -/
def parseFraction (str : List Char) : Nat × List Char :=
  match str with
  | '.' :: str => fractionLoop str 0 100000000
  | str => (0, str)

/-- The part of `xtime_parse` behind the fraction: `seconds` are still those of the wall clock. -/
def parseZone (seconds : Int) (nanoseconds : Nat) (str : List Char) : Xtime :=
  match str.dropWhile (· = ' ') with
  | [] => ⟨seconds, nanoseconds, 0, false⟩
  | str =>
    match parseTzOffset str with
    | some tzOffset => ⟨seconds - tzOffset * 60, nanoseconds, tzOffset, true⟩
    | none => ⟨seconds, nanoseconds, 0, false⟩

variable (lib : Conversions)

/-- `xtime_parse`. -/
def xtimeParse (str format : Option (List Char)) : Except XtimeError Xtime :=
  match str, format with
  | some str, some format =>
    match strptime lib (parseFormat format []) str ⟨0, 0, 0, 0, 0, 0⟩ with
    | none => .error .parseFailed
    | some (tm, remaining) =>
      let year := tm.year + 1900
      if tm.mday < 1 ∨ tm.mday > daysInMonth year tm.mon then .error .dateOutOfRange
      else
        let days := monthLoop year tm.mon 0 (yearLoop year 1970 0) + (tm.mday - 1)
        let seconds := days * 86400 + tm.hour * 3600 + tm.min * 60 + tm.sec
        let (nanoseconds, remaining) := parseFraction remaining
        .ok (parseZone seconds nanoseconds remaining)
  | _, _ => .error .invalidArg

/-- The timestamp that is broken down: the wall clock's. -/
def wallClock (t : Xtime) : Int :=
  if t.hasTz ∧ t.tzOffset ≠ 0 then t.seconds + t.tzOffset * 60 else t.seconds

/-- A text is put behind the first `buf.length` characters of a buffer of `buflen`, if there is
room for it and its NUL. -/
def append (buflen : Nat) (buf text : List Char) : Except XtimeError (List Char) :=
  if buf.length + text.length ≥ buflen then .error .bufferTooSmall else .ok (buf ++ text)

/-- `"%c%02d:%02d"` with sign, hours and minutes of an offset. -/
def zoneText (tzOffset : Int) : List Char :=
  (if tzOffset ≥ 0 then '+' else '-') ::
    (formatInt 2 (tzOffset.natAbs / 60 : Nat) ++ ':' :: formatInt 2 (tzOffset.natAbs % 60 : Nat))

/-- The format that `xtime_format` hands to `strftime`, and whether it had `%f` and `%z`. -/
def formatFormat : List Char → List Char → Bool → Bool → List Char × Bool × Bool
  | [], out, hasF, hasZ => (out.reverse, hasF, hasZ)
  | '%' :: 'f' :: fmt, out, hasF, hasZ =>
    if out.length + 1 < 256 then
      formatFormat fmt (if out.head? = some '.' then out.tail else out) true hasZ
    else (out.reverse, hasF, hasZ)
  | '%' :: 'z' :: fmt, out, hasF, hasZ =>
    if out.length + 1 < 256 then formatFormat fmt out hasF true else (out.reverse, hasF, hasZ)
  | c :: fmt, out, hasF, hasZ =>
    if out.length + 1 < 256 then formatFormat fmt (c :: out) hasF hasZ
    else (out.reverse, hasF, hasZ)

/-- `while (frac_len > 1 && frac[frac_len - 1] == '0') frac_len--;`. -/
def trimLoop (frac : List Char) : Nat → Option Nat
  | n + 2 => do
    let c ← frac[n + 1]?
    if c = '0' then trimLoop frac (n + 1) else some (n + 2)
  | n => some n

/-- The fraction of `xtime_format`, in a buffer of 11 bytes; `none` is a write behind it. -/
def fractionText (nanoseconds : Nat) : Option (List Char) := do
  let text := '.' :: padded 9 nanoseconds
  let frac := text.take 10 ++ ['\x00']
  let fracLen ← trimLoop frac text.length
  if fracLen < 11 then some (frac.take fracLen) else none

/-- `xtime_format`; `none` is a write outside of its own buffer. -/
def xtimeFormat (t : Option Xtime) (format : Option (List Char)) (buf : Option Nat) :
    Option (Except XtimeError (List Char)) :=
  match t, format, buf with
  | some t, some format, some buflen =>
    if buflen = 0 then some (.error .invalidArg)
    else if format = "%s".toList then some (append buflen [] (formatInt 1 t.seconds))
    else
      let (fmt, hasF, hasZ) := formatFormat format [] false false
      match gmtimeR (wallClock t) with
      | none => some (.error .invalidTime)
      | some tm =>
        let text := strftime lib buflen fmt tm
        if text.length = 0 then some (.error .bufferTooSmall)
        else do
          let frac ← if hasF ∧ t.nanoseconds > 0 then fractionText t.nanoseconds else some []
          some do
            let text ← append buflen text frac
            if hasZ then append buflen text (zoneText t.tzOffset) else .ok text
  | _, _, _ => some (.error .invalidArg)

/-- `xtime_to_json`. -/
def xtimeToJson (t : Option Xtime) (buf : Option Nat) : Except XtimeError (List Char) :=
  match t, buf with
  | some t, some buflen =>
    if buflen = 0 then .error .invalidArg
    else
      match gmtimeR (wallClock t) with
      | none => .error .invalidTime
      | some tm => do
        let text ← append buflen [] (dateTime 'T' tm)
        let text ← if t.nanoseconds > 0 then append buflen text ('.' :: padded 9 t.nanoseconds)
          else .ok text
        append buflen text
          (if t.hasTz = false ∨ t.tzOffset = 0 then ['Z'] else zoneText t.tzOffset)
  | _, _ => .error .invalidArg

/-! ## Days -/

theorem isLeapYear_iff (year : Int) : isLeapYear year = true ↔ isLeap year := by
  have hmod : ∀ k : Int, year.tmod k = 0 ↔ year % k = 0 := fun k =>
    (Int.dvd_iff_tmod_eq_zero).symm.trans Int.dvd_iff_emod_eq_zero
  simp only [isLeapYear, isLeap, Bool.or_eq_true, Bool.and_eq_true, decide_eq_true_eq, hmod, ne_eq]

theorem daysInMonth_eq (year : Int) {month : Nat} (h : month < (monthLengths year).length) :
    daysInMonth year month = ((monthLengths year)[month] : Nat) := by
  have hleap := isLeapYear_iff year
  have hmonth : month < 12 := h
  unfold daysInMonth
  rw [if_neg (by omega)]
  by_cases hly : isLeap year
  · simp only [hleap.mpr hly, and_true]
    unfold monthLengths
    simp only [hly, if_true]
    interval_cases month <;> rfl
  · have hnot : ¬ isLeapYear year = true := fun h => hly (hleap.mp h)
    unfold monthLengths
    simp only [hnot, hly, if_false]
    interval_cases month <;> rfl

/-- The loop over the years adds their lengths. -/
theorem yearLoop_eq {year y : Int} (hy : y ≤ year) (days : Int) :
    yearLoop year y days = days + (daysBeforeYear year - daysBeforeYear y) := by
  fun_induction yearLoop year y days with
  | case1 y days hlt ih =>
    simp only [dite_eq_ite] at ih
    rw [ih (by omega), daysBeforeYear_succ, yearLength]
    simp only [isLeapYear_iff]
    omega
  | case2 y days hge =>
    obtain rfl : y = year := by omega
    omega

/-- The loop over the months adds theirs. -/
theorem monthLoop_eq {year : Int} {month : Nat} (hmonth : month ≤ (monthLengths year).length)
    (days : Int) : monthLoop year month 0 days = days + daysBeforeMonth year month := by
  suffices hfrom : ∀ k m days, m + k = month → monthLoop year month m days =
      days + (daysBeforeMonth year month - daysBeforeMonth year m) by
    have := hfrom month 0 days (Nat.zero_add _)
    have hzero : daysBeforeMonth year 0 = 0 := rfl
    rw [hzero] at this
    simpa using this
  intro k
  induction k with
  | zero =>
    intro m days hm
    obtain rfl : m = month := hm
    rw [monthLoop, if_neg (by omega)]
    omega
  | succ k ih =>
    intro m days hm
    have hlt : m < (monthLengths year).length := by omega
    have hnext := ih (m + 1) (days + daysInMonth year m) (by omega)
    rw [daysBeforeMonth_succ hlt, daysInMonth_eq year hlt] at hnext
    rw [monthLoop, if_pos (by omega), daysInMonth_eq year hlt]
    push_cast at hnext ⊢
    omega

theorem day_le_daysInMonth {date : Date} (h : date.Valid) :
    (date.day : Int) ≤ daysInMonth date.year date.month := by
  obtain ⟨-, hm, hle⟩ := h
  rw [daysInMonth_eq date.year hm]
  exact Int.ofNat_le.mpr hle

/-- The days of a date as `xtime_parse` counts them. -/
theorem loops_eq {date : Date} (hvalid : date.Valid) (hyear : 1970 ≤ date.year) :
    monthLoop date.year date.month 0 (yearLoop date.year 1970 0) + (date.day - 1) =
      date.dayNumber := by
  rw [monthLoop_eq (Nat.le_of_lt hvalid.2.1), yearLoop_eq hyear, daysBeforeYear_epoch,
    Date.dayNumber]
  omega

/-! ## Fractions -/

/-- The digits of a fraction are read up to the first other character. -/
theorem fractionLoop_append {l rest : List Char} (nanos : Nat) {j : Nat}
    (hl : ∀ c ∈ l, c.isDigit = true) (hrest : ∀ c ∈ rest.head?, c.isDigit = false)
    (hj : l.length ≤ j) (hfits : nanos + decimalValue l * 10 ^ (j - l.length) < 2 ^ 32) :
    fractionLoop (l ++ rest) nanos (10 ^ j / 10) =
      (nanos + decimalValue l * 10 ^ (j - l.length), rest) := by
  induction l generalizing nanos j with
  | nil =>
    have hzero : nanos + decimalValue [] * 10 ^ (j - ([] : List Char).length) = nanos := by
      simp [decimalValue]
    rw [hzero, List.nil_append]
    cases rest with
    | nil => rfl
    | cons c rest => rw [fractionLoop, hrest c rfl]; rfl
  | cons c l ih =>
    obtain ⟨k, rfl⟩ : ∃ k, j = k + 1 := ⟨j - 1, by rw [List.length_cons] at hj; omega⟩
    have hk : l.length ≤ k := Nat.le_of_succ_le_succ hj
    have hmult : 10 ^ (k + 1) / 10 = 10 ^ k := by
      rw [Nat.pow_succ, Nat.mul_div_cancel _ (by decide)]
    -- the digit stands for its place, whatever follows
    have hvalue : nanos + decimalValue (c :: l) * 10 ^ (k + 1 - (c :: l).length) =
        nanos + (c.toNat - '0'.toNat) * 10 ^ k + decimalValue l * 10 ^ (k - l.length) := by
      rw [decimalValue_cons, List.length_cons, Nat.add_sub_add_right, Nat.add_mul, Nat.mul_assoc,
        ← Nat.pow_add, Nat.add_sub_cancel' hk, Nat.add_assoc]
    rw [hvalue] at hfits ⊢
    have hmod : (nanos + (c.toNat - '0'.toNat) * 10 ^ k) % 2 ^ 32 =
        nanos + (c.toNat - '0'.toNat) * 10 ^ k := Nat.mod_eq_of_lt (by omega)
    rw [List.cons_append, fractionLoop, hl c List.mem_cons_self, if_pos rfl, hmult,
      if_pos (Nat.one_le_pow _ _ (by decide)), hmod]
    exact ih _ (fun x hx => hl x (List.mem_cons_of_mem c hx)) hk hfits

/-- A text for the fraction of a second, which may be left out when that is zero. -/
def FractionOf (frac : List Char) (nanoseconds : Nat) : Prop :=
  frac = [] ∧ nanoseconds = 0 ∨ ∃ l, frac = '.' :: l ∧ (∀ c ∈ l, c.isDigit = true) ∧
    l.length ≤ 9 ∧ decimalValue l * 10 ^ (9 - l.length) = nanoseconds

theorem parseFraction_append {frac : List Char} (rest : List Char) {nanoseconds : Nat}
    (hfrac : FractionOf frac nanoseconds) (hns : nanoseconds < 10 ^ 9)
    (hrest : ∀ c ∈ rest.head?, c.isDigit = false ∧ c ≠ '.') :
    parseFraction (frac ++ rest) = (nanoseconds, rest) := by
  rcases hfrac with ⟨rfl, rfl⟩ | ⟨l, rfl, hl, hlen, hvalue⟩
  · rw [List.nil_append]
    unfold parseFraction
    split
    · exact absurd rfl (hrest _ rfl).2
    · rfl
  · have hloop := fractionLoop_append 0 hl (fun c hc => (hrest c hc).1) hlen (by omega)
    rw [Nat.zero_add, hvalue] at hloop
    exact hloop

theorem fractionOf_padded {nanoseconds : Nat} (hns : nanoseconds < 10 ^ 9) :
    FractionOf ('.' :: padded 9 nanoseconds) nanoseconds := by
  have hlen := length_padded (by decide) hns
  refine .inr ⟨_, rfl, isDigit_padded 9 nanoseconds, hlen.le, ?_⟩
  rw [hlen, decimalValue_padded, Nat.sub_self, Nat.pow_zero, Nat.mul_one]

/-- Trimming takes zeros away from the end. -/
theorem trimLoop_spec (text rest : List Char) (n : Nat) (hpos : 0 < n) (hn : n ≤ text.length) :
    ∃ m, trimLoop (text ++ rest) n = some m ∧ 0 < m ∧ m ≤ n ∧
      text.take n = text.take m ++ List.replicate (n - m) '0' := by
  induction n with
  | zero => exact absurd hpos (Nat.lt_irrefl 0)
  | succ n ih =>
    cases n with
    | zero => exact ⟨1, rfl, Nat.one_pos, le_rfl, by simp⟩
    | succ n =>
      have hget : (text ++ rest)[n + 1]? = some text[n + 1] := by
        rw [List.getElem?_append_left hn, List.getElem?_eq_getElem hn]
      rw [trimLoop, hget]
      simp only [Option.bind_eq_bind, Option.bind_some]
      split
      case isTrue hzero =>
        obtain ⟨m, hrun, hm, hle, htake⟩ := ih (Nat.succ_pos n) (by omega)
        refine ⟨m, hrun, hm, by omega, ?_⟩
        rw [List.take_succ_eq_append_getElem hn, hzero, htake, List.append_assoc,
          ← List.replicate_succ', Nat.succ_sub hle]
      case isFalse => exact ⟨n + 1 + 1, rfl, Nat.succ_pos _, le_rfl, by simp⟩

theorem fractionText_fractionOf {nanoseconds : Nat} (hns : nanoseconds < 10 ^ 9) :
    ∃ frac, fractionText nanoseconds = some frac ∧ FractionOf frac nanoseconds ∧
      frac.length ≤ 10 := by
  have hlen := length_padded (by decide) hns
  have htext : ('.' :: padded 9 nanoseconds).length = 10 := by rw [List.length_cons, hlen]
  obtain ⟨m, hrun, hm, hle, htake⟩ := trimLoop_spec ('.' :: padded 9 nanoseconds) ['\x00'] 10
    (by decide) htext.ge
  obtain ⟨k, rfl⟩ : ∃ k, m = k + 1 := ⟨m - 1, by omega⟩
  have hall : ('.' :: padded 9 nanoseconds).take 10 = '.' :: padded 9 nanoseconds :=
    List.take_of_length_le htext.le
  have hpadded : padded 9 nanoseconds =
      (padded 9 nanoseconds).take k ++ List.replicate (9 - k) '0' := by
    rw [hall, List.take_succ_cons, List.cons_append, show 10 - (k + 1) = 9 - k by omega] at htake
    exact (List.cons.inj htake).2
  have hlen' : ((padded 9 nanoseconds).take k).length = k := by
    rw [List.length_take]
    omega
  refine ⟨'.' :: (padded 9 nanoseconds).take k, ?_, .inr ⟨_, rfl, ?_, ?_, ?_⟩, ?_⟩
  · have hkeep : ('.' :: padded 9 nanoseconds ++ ['\x00']).take (k + 1) =
        '.' :: (padded 9 nanoseconds).take k := by
      rw [List.take_append_of_le_length (by rw [htext]; exact hle), List.take_succ_cons]
    rw [fractionText, hall, htext, hrun]
    simp only [Option.bind_eq_bind, Option.bind_some, hkeep]
    exact if_pos (by omega)
  · exact fun c hc => isDigit_padded 9 nanoseconds c (List.mem_of_mem_take hc)
  · omega
  · rw [hlen', ← decimalValue_append_zeros, ← hpadded, decimalValue_padded]
  · rw [List.length_cons]
    omega

/-! ## Offsets -/

theorem padded_two {n : Nat} (hn : n < 100) : ∃ a b, padded 2 n = [a, b] ∧ a.isDigit = true ∧
    b.isDigit = true ∧ decimalValue [a, b] = n := by
  have hlen := length_padded (w := 2) (by decide) hn
  have hdigits := isDigit_padded 2 n
  have hvalue := decimalValue_padded 2 n
  obtain ⟨a, b, hab⟩ := List.length_eq_two.mp hlen
  rw [hab] at hdigits hvalue
  exact ⟨a, b, hab, hdigits a (by simp), hdigits b (by simp), hvalue⟩

/-- Hours and minutes with a colon between them. -/
theorem parseHoursMinutes_padded {sign : Int} (hsign : sign = 1 ∨ sign = -1) {hours minutes : Nat}
    (hh : hours ≤ 23) (hm : minutes ≤ 59) :
    parseHoursMinutes sign (padded 2 hours ++ ':' :: padded 2 minutes) =
      some ((hours * 60 + minutes) * sign) := by
  obtain ⟨a, b, hab, ha, hb, hhours⟩ := padded_two (by omega : hours < 100)
  obtain ⟨c, d, hcd, hc, hd, hminutes⟩ := padded_two (by omega : minutes < 100)
  have hrange : ¬ (hours > 23 ∨ minutes > 59) := by omega
  have htotal : ¬ (((hours : Int) * 60 + minutes) * sign).natAbs > maxTzOffset := by
    unfold maxTzOffset
    rcases hsign with rfl | rfl <;> omega
  rw [hab, hcd]
  simp only [parseHoursMinutes, List.cons_append, List.nil_append, ha, hb, hc, hd, hhours,
    hminutes, List.head?_cons, List.tail_cons, Bool.true_eq_false, or_self, and_self, if_true,
    if_false, hrange, htotal]

theorem zoneText_eq (tzOffset : Int) : zoneText tzOffset =
    (if tzOffset ≥ 0 then '+' else '-') ::
      (padded 2 (tzOffset.natAbs / 60) ++ ':' :: padded 2 (tzOffset.natAbs % 60)) := by
  rw [zoneText, formatInt_of_nonneg 2 (Int.natCast_nonneg _),
    formatInt_of_nonneg 2 (Int.natCast_nonneg _)]
  rfl

theorem parseTzOffset_zoneText {tzOffset : Int} (h : tzOffset.natAbs ≤ 1439) :
    parseTzOffset (zoneText tzOffset) = some tzOffset := by
  have hh : tzOffset.natAbs / 60 ≤ 23 := by omega
  have hm : tzOffset.natAbs % 60 ≤ 59 := by omega
  rw [zoneText_eq]
  split
  case isTrue hpos =>
    have hparse := parseHoursMinutes_padded (.inl rfl) hh hm
    rw [parseTzOffset, List.dropWhile_cons_of_neg (by decide)]
    refine hparse.trans (congrArg some ?_)
    omega
  case isFalse hneg =>
    have hparse := parseHoursMinutes_padded (.inr rfl) hh hm
    rw [parseTzOffset, List.dropWhile_cons_of_neg (by decide)]
    refine hparse.trans (congrArg some ?_)
    omega

theorem length_zoneText {tzOffset : Int} (h : tzOffset.natAbs ≤ 1439) :
    (zoneText tzOffset).length = 6 := by
  rw [zoneText_eq, List.length_cons, List.length_append, List.length_cons,
    length_padded (by decide) (by omega), length_padded (by decide) (by omega)]

/-- A text for an offset: what `parse_tz_offset` reads it as, and that no part of the date or the
fraction can run into it. -/
structure ZoneOf (zone : List Char) (tzOffset : Int) : Prop where
  parse : parseTzOffset zone = some tzOffset
  head : ∃ c rest, zone = c :: rest ∧ c.isDigit = false ∧ c ≠ '.' ∧ c ≠ ' '
  short : zone.length ≤ 6

theorem zoneOf_zoneText {tzOffset : Int} (h : tzOffset.natAbs ≤ 1439) :
    ZoneOf (zoneText tzOffset) tzOffset := by
  refine ⟨parseTzOffset_zoneText h, ⟨_, _, rfl, ?_⟩, (length_zoneText h).le⟩
  split <;> decide

theorem zoneOf_utc : ZoneOf ['Z'] 0 :=
  ⟨by decide, ⟨'Z', [], rfl, by decide, by decide, by decide⟩, by decide⟩

/-! ## Round trips -/

/-- The times that the text forms can express: the wall clock shows a year of four digits. -/
structure Xtime.Valid (t : Xtime) : Prop where
  nanoseconds : t.nanoseconds < 10 ^ 9
  offset : -1439 ≤ t.tzOffset ∧ t.tzOffset ≤ 1439
  utc : t.hasTz = false → t.tzOffset = 0
  year : 1970 ≤ (Date.ofDay ((t.seconds + 60 * t.tzOffset) / 86400)).year ∧
    (Date.ofDay ((t.seconds + 60 * t.tzOffset) / 86400)).year ≤ 9999

variable {t : Xtime}

theorem Xtime.Valid.wallClock_eq (h : t.Valid) : wallClock t = t.seconds + 60 * t.tzOffset := by
  unfold wallClock
  split
  case isTrue => omega
  case isFalse hutc =>
    have hzero : t.tzOffset = 0 := by
      by_contra hne
      cases htz : t.hasTz with
      | false => exact hne (h.utc htz)
      | true => exact hutc ⟨htz, hne⟩
    rw [hzero]
    omega

/-- What is written for a time is parsed as that time. -/
theorem xtimeParse_written (h : t.Valid) {fmt : List Char} {sep : Char}
    (hfmt : parseFormat fmt [] = dateTimeFormat sep) (hsep : sep ≠ '%') {frac zone : List Char}
    (hfrac : FractionOf frac t.nanoseconds) (hzone : ZoneOf zone t.tzOffset) {tm : Tm}
    (htm : gmtimeR (wallClock t) = some tm) :
    xtimeParse lib (some (dateTime sep tm ++ (frac ++ zone))) (some fmt) =
      .ok ⟨t.seconds, t.nanoseconds, t.tzOffset, true⟩ := by
  rw [h.wallClock_eq] at htm
  obtain ⟨tm', htm', hwritten, hyear, hmon, hday, hsum⟩ := gmtimeR_eq h.year
  obtain rfl : tm = tm' := Option.some.inj (htm.symm.trans htm')
  have hvalid := valid_ofDay ((t.seconds + 60 * t.tzOffset) / 86400)
  have hnumber := dayNumber_ofDay ((t.seconds + 60 * t.tzOffset) / 86400)
  have hloops := loops_eq hvalid h.year.1
  have hlast := day_le_daysInMonth hvalid
  obtain ⟨c, rest, rfl, hdigit, hdot, hspace⟩ := hzone.head
  have hfraction := parseFraction_append (c :: rest) hfrac h.nanoseconds
    (by rintro x ⟨⟩; exact ⟨hdigit, hdot⟩)
  have hskip : (c :: rest).dropWhile (fun c => decide (c = ' ')) = c :: rest :=
    List.dropWhile_cons_of_neg (by simpa using hspace)
  rw [← hyear, ← hmon, ← hday, hnumber] at hloops
  rw [← hyear, ← hmon, ← hday] at hlast
  have hdate : ¬ (tm.mday < 1 ∨ tm.mday > daysInMonth (tm.year + 1900) tm.mon) := by
    have := hwritten.mday
    omega
  unfold xtimeParse
  simp only [hfmt, strptime_dateTime lib hwritten hsep]
  rw [if_neg hdate, hloops, hsum, hfraction]
  unfold parseZone
  simp only [hskip, hzone.parse]
  rw [show t.seconds + 60 * t.tzOffset - t.tzOffset * 60 = t.seconds by omega]

theorem append_eq_ok_iff {buflen : Nat} {buf text out : List Char} :
    append buflen buf text = .ok out ↔ (buf ++ text).length < buflen ∧ buf ++ text = out := by
  unfold append
  rw [List.length_append]
  split
  case isTrue hfull => exact ⟨nofun, fun h => absurd h.1 (Nat.not_lt_of_le hfull)⟩
  case isFalse hroom =>
    rw [Except.ok.injEq]
    exact ⟨fun h => ⟨Nat.lt_of_not_le hroom, h⟩, fun h => h.2⟩

/-- A text is appended and then more is done with the buffer. -/
theorem append_bind_eq_ok_iff {buflen : Nat} {buf text out : List Char}
    {f : List Char → Except XtimeError (List Char)} :
    (append buflen buf text >>= f) = .ok out ↔
      (buf ++ text).length < buflen ∧ f (buf ++ text) = .ok out := by
  cases happend : append buflen buf text with
  | error e =>
    refine ⟨nofun, fun ⟨hlen, _⟩ => ?_⟩
    rw [append_eq_ok_iff.mpr ⟨hlen, rfl⟩] at happend
    cases happend
  | ok buf' =>
    obtain ⟨hlen, rfl⟩ := append_eq_ok_iff.mp happend
    exact ⟨fun h => ⟨hlen, h⟩, fun h => h.2⟩

/-- The text of `xtime_to_json`. -/
theorem xtimeToJson_eq (h : t.Valid) : ∃ tm frac zone, gmtimeR (wallClock t) = some tm ∧
    tm.Written ∧ FractionOf frac t.nanoseconds ∧ frac.length ≤ 10 ∧ ZoneOf zone t.tzOffset ∧
    ∀ buflen text, xtimeToJson (some t) (some buflen) = .ok text ↔
      (dateTime 'T' tm ++ (frac ++ zone)).length < buflen ∧
        dateTime 'T' tm ++ (frac ++ zone) = text := by
  obtain ⟨tm, htm, hwritten, -⟩ := gmtimeR_eq h.year
  rw [← h.wallClock_eq] at htm
  have hoffset : t.tzOffset.natAbs ≤ 1439 := by
    have := h.offset
    omega
  obtain ⟨zone, hzoneText, hzone⟩ : ∃ zone,
      (if t.hasTz = false ∨ t.tzOffset = 0 then ['Z'] else zoneText t.tzOffset) = zone ∧
        ZoneOf zone t.tzOffset := by
    split
    case isTrue hutc =>
      rw [hutc.elim h.utc id]
      exact ⟨_, rfl, zoneOf_utc⟩
    case isFalse => exact ⟨_, rfl, zoneOf_zoneText hoffset⟩
  obtain ⟨frac, hfrac, hshort, hfraction⟩ : ∃ frac, FractionOf frac t.nanoseconds ∧
      frac.length ≤ 10 ∧ ∀ buflen (text : List Char)
        (f : List Char → Except XtimeError (List Char)),
        text.length < buflen →
        (if t.nanoseconds > 0 then append buflen text ('.' :: padded 9 t.nanoseconds) >>= f
          else Except.ok text >>= f) = append buflen text frac >>= f := by
    by_cases hns : t.nanoseconds > 0
    · refine ⟨_, fractionOf_padded h.nanoseconds, ?_, fun buflen text f _ => if_pos hns⟩
      rw [List.length_cons, length_padded (by decide) h.nanoseconds]
    · refine ⟨[], .inl ⟨rfl, by omega⟩, Nat.zero_le _, fun buflen text f hlt => ?_⟩
      -- no fraction is written, but the text so far must still fit
      have hnothing : append buflen text [] = .ok text :=
        append_eq_ok_iff.mpr ⟨by rwa [List.append_nil], List.append_nil text⟩
      rw [if_neg hns, hnothing]
  refine ⟨tm, frac, zone, htm, hwritten, hfrac, hshort, hzone, fun buflen text => ?_⟩
  simp only [xtimeToJson, htm, hzoneText]
  split
  case isTrue hzero => exact ⟨nofun, fun h => absurd h.1 (hzero ▸ Nat.not_lt_zero _)⟩
  case isFalse =>
    rw [append_bind_eq_ok_iff, List.nil_append]
    constructor
    · rintro ⟨hlt, hrest⟩
      rw [hfraction buflen _ _ hlt, append_bind_eq_ok_iff, append_eq_ok_iff,
        List.append_assoc] at hrest
      exact hrest.2
    · rintro ⟨hlen, htext⟩
      have hlt : (dateTime 'T' tm).length < buflen := by
        rw [List.length_append] at hlen
        omega
      refine ⟨hlt, ?_⟩
      rw [hfraction buflen _ _ hlt, append_bind_eq_ok_iff, append_eq_ok_iff, List.append_assoc]
      refine ⟨?_, hlen, htext⟩
      rw [List.length_append, List.length_append] at *
      omega

/-- The text of `xtime_format` for `XTIME_FMT_POSTGRES_TZ`. -/
theorem xtimeFormat_eq (h : t.Valid) : ∃ tm frac zone, gmtimeR (wallClock t) = some tm ∧
    tm.Written ∧ FractionOf frac t.nanoseconds ∧ frac.length ≤ 10 ∧ ZoneOf zone t.tzOffset ∧
    ∀ buflen, ∃ r, xtimeFormat lib (some t) (some fmtPostgresTz) (some buflen) = some r ∧
      ∀ text, r = .ok text ↔ (dateTime ' ' tm ++ (frac ++ zone)).length < buflen ∧
        dateTime ' ' tm ++ (frac ++ zone) = text := by
  obtain ⟨tm, htm, hwritten, -⟩ := gmtimeR_eq h.year
  rw [← h.wallClock_eq] at htm
  have hoffset : t.tzOffset.natAbs ≤ 1439 := by
    have := h.offset
    omega
  have hfmt : formatFormat fmtPostgresTz [] false false = (dateTimeFormat ' ', true, true) := by
    decide
  have hunix : ¬ fmtPostgresTz = "%s".toList := by decide
  have hlen := length_dateTime hwritten ' '
  obtain ⟨frac, hfrac, hshort, hfraction⟩ : ∃ frac, FractionOf frac t.nanoseconds ∧
      frac.length ≤ 10 ∧ ∀ f : List Char → Option (Except XtimeError (List Char)),
        (if t.nanoseconds > 0 then (fractionText t.nanoseconds).bind f else f []) = f frac := by
    by_cases hns : t.nanoseconds > 0
    · obtain ⟨frac, htext, hfrac, hshort⟩ := fractionText_fractionOf h.nanoseconds
      exact ⟨frac, hfrac, hshort, fun f => by rw [if_pos hns, htext, Option.bind_some]⟩
    · exact ⟨[], .inl ⟨rfl, by omega⟩, Nat.zero_le _, fun f => if_neg hns⟩
  refine ⟨tm, frac, zoneText t.tzOffset, htm, hwritten, hfrac, hshort, zoneOf_zoneText hoffset,
    fun buflen => ?_⟩
  simp only [xtimeFormat, hunix, hfmt, htm, if_false, strftime,
    formatTm_dateTime lib hwritten (by decide : ' ' ≠ '%')]
  by_cases hroom : (dateTime ' ' tm).length < buflen
  · rw [if_neg (by omega), if_pos hroom, if_neg (by omega)]
    simp only [Option.bind_eq_bind, Option.bind_some, if_true, true_and]
    refine ⟨_, hfraction _, fun text => ?_⟩
    rw [append_bind_eq_ok_iff, append_eq_ok_iff, List.append_assoc]
    refine ⟨fun h => h.2, fun h => ⟨?_, h⟩⟩
    have := h.1
    rw [List.length_append, List.length_append] at *
    omega
  · -- the date does not fit
    have htotal : ¬ (dateTime ' ' tm ++ (frac ++ zoneText t.tzOffset)).length < buflen := by
      rw [List.length_append]
      omega
    by_cases hzero : buflen = 0
    · rw [if_pos hzero]
      exact ⟨_, rfl, fun text => ⟨nofun, fun h => absurd h.1 htotal⟩⟩
    · rw [if_neg hzero, if_neg hroom, if_pos List.length_nil]
      exact ⟨_, rfl, fun text => ⟨nofun, fun h => absurd h.1 htotal⟩⟩

/-- The text is parsed to the same moment, with the same offset. -/
def ParsesBack (t : Xtime) (format text : List Char) : Prop :=
  ∃ t', xtimeParse lib (some text) (some format) = .ok t' ∧ t'.seconds = t.seconds ∧
    t'.nanoseconds = t.nanoseconds ∧ t'.tzOffset = t.tzOffset

/-- Both text forms are parsed back, and 36 bytes are enough for each of them. -/
theorem xtime_round_trip (h : t.Valid) (buflen : Nat) :
    (∀ text, xtimeToJson (some t) (some buflen) = .ok text →
      ParsesBack lib t "%Y-%m-%dT%H:%M:%S.%f%z".toList text) ∧
    (36 ≤ buflen → ∃ text, xtimeToJson (some t) (some buflen) = .ok text) ∧
    (∀ text, xtimeFormat lib (some t) (some fmtPostgresTz) (some buflen) = some (.ok text) →
      ParsesBack lib t fmtPostgresTz text) ∧
    (36 ≤ buflen → ∃ text,
      xtimeFormat lib (some t) (some fmtPostgresTz) (some buflen) = some (.ok text)) := by
  have hjson : parseFormat "%Y-%m-%dT%H:%M:%S.%f%z".toList [] = dateTimeFormat 'T' := by decide
  have hpostgres : parseFormat fmtPostgresTz [] = dateTimeFormat ' ' := by decide
  -- the longest text has 35 characters
  have hfits : ∀ {sep tm frac zone}, Tm.Written tm → frac.length ≤ 10 → ZoneOf zone t.tzOffset →
      36 ≤ buflen → (dateTime sep tm ++ (frac ++ zone)).length < buflen := by
    intro sep tm frac zone hwritten hfrac hzone hlen
    have := hzone.short
    rw [List.length_append, List.length_append, length_dateTime hwritten]
    omega
  obtain ⟨tm, frac, zone, htm, hwritten, hfrac, hshort, hzone, htext⟩ := xtimeToJson_eq h
  obtain ⟨tm', frac', zone', htm', hwritten', hfrac', hshort', hzone', hformat⟩ :=
    xtimeFormat_eq lib h
  obtain ⟨r, hr, htext'⟩ := hformat buflen
  refine ⟨fun text hok => ?_, fun hlen => ?_, fun text hok => ?_, fun hlen => ?_⟩
  · obtain ⟨-, rfl⟩ := (htext buflen text).mp hok
    exact ⟨_, xtimeParse_written lib h hjson (by decide) hfrac hzone htm, rfl, rfl, rfl⟩
  · exact ⟨_, (htext buflen _).mpr ⟨hfits hwritten hshort hzone hlen, rfl⟩⟩
  · obtain ⟨-, rfl⟩ := (htext' text).mp (Option.some.inj (hr.symm.trans hok))
    exact ⟨_, xtimeParse_written lib h hpostgres (by decide) hfrac' hzone' htm', rfl, rfl, rfl⟩
  · have hok := (htext' _).mpr ⟨hfits hwritten' hshort' hzone' hlen, rfl⟩
    exact ⟨_, hr.trans (congrArg some hok)⟩

theorem xtime_round_trip_evening :
    ParsesBack ⟨fun _ _ => [], fun _ _ _ => none⟩ ⟨86400, 500, -90, true⟩
      "%Y-%m-%dT%H:%M:%S.%f%z".toList "1970-01-01T22:30:00.000000500-01:30".toList := by
  have hvalid : Xtime.Valid ⟨86400, 500, -90, true⟩ :=
    ⟨by decide, by decide, nofun, by decide⟩
  exact (xtime_round_trip _ hvalid 36).1 _ rfl

end Solidc.Time
