import Solidc.Time.Shifting

/-! # Parsing dates and times

What `xtime_parse` makes of a text, before and behind the epoch, and of what stands behind the
date and the time.

* `xtimeParse_iso8601` — the seconds of a date-time, less the days that the loop does not count;
* `iso8601_order_iff` — for which pairs of date-times order and distance are right;
* `xtimeParse_wellFormed` — how a fraction and a designator of a time zone are read;
* `rfc3339_only_iff` — on which texts a success is one of a whole text of the format.
-/

namespace Solidc.Time

open CLib Gregorian

/-- `XTIME_FMT_ISO8601`. -/
def fmtIso8601 : List Char := "%Y-%m-%dT%H:%M:%S".toList

/-- `XTIME_FMT_RFC3339`. -/
def fmtRfc3339 : List Char := "%Y-%m-%dT%H:%M:%S%z".toList

theorem parseFormat_iso8601 : parseFormat fmtIso8601 [] = dateTimeFormat 'T' := rfl

theorem parseFormat_rfc3339 : parseFormat fmtRfc3339 [] = dateTimeFormat 'T' := rfl

variable (lib : Conversions)

/-- A date and a time of it. -/
structure DateTime where
  date : Date
  hour : Nat
  min : Nat
  sec : Nat

/-- The date exists, in a year of one to four digits, and so does the time. -/
structure DateTime.Valid (d : DateTime) : Prop where
  date : d.date.Valid
  year : 1 ≤ d.date.year ∧ d.date.year ≤ 9999
  hour : d.hour ≤ 23
  min : d.min ≤ 59
  sec : d.sec ≤ 59

/-- Dates are compared first, then hours, minutes and seconds. -/
def DateTime.Before (d d' : DateTime) : Prop :=
  d.date.Before d'.date ∨ d.date = d'.date ∧ (d.hour < d'.hour ∨ d.hour = d'.hour ∧
    (d.min < d'.min ∨ d.min = d'.min ∧ d.sec < d'.sec))

/-- The seconds from the epoch to a date-time. -/
def DateTime.number (d : DateTime) : Int :=
  d.date.dayNumber * 86400 + d.hour * 3600 + d.min * 60 + d.sec

def DateTime.tm (d : DateTime) : Tm :=
  ⟨d.sec, d.min, d.hour, d.date.day, d.date.month, d.date.year - 1900⟩

/-- The text of a date-time whose year is written with at least `w` digits. -/
def DateTime.iso8601 (d : DateTime) (w : Nat) : List Char :=
  formatInt w d.date.year ++ behindYear 'T' d.tm

variable {d d' : DateTime} {w w' : Nat}

/-! ## Date-times -/

theorem strptime_iso8601 (h : d.Valid) (hw : 0 < w) (hw' : w ≤ 4) (rest : List Char) (tm₀ : Tm) :
    strptime lib (dateTimeFormat 'T') (d.iso8601 w ++ rest) tm₀ = some (d.tm, rest) := by
  have hmonth := h.date.month_lt
  have hday := h.date.day_le
  have hpos := h.date.1
  have hhour := h.hour
  have hmin := h.min
  have hsec := h.sec
  have hyear := h.year
  rw [DateTime.iso8601, List.append_assoc, dateTimeFormat, strptime_year lib (by omega) hw hw' _
    (by rintro c ⟨⟩; decide)]
  refine strptime_behindYear lib ?_ ?_ ?_ ?_ ?_ (by decide) rest _
  all_goals
    dsimp only [DateTime.tm]
    omega

/-- The seconds of the wall clock as `xtime_parse` counts them. -/
def wallSeconds (tm : Tm) : Int :=
  countDays (tm.year + 1900) tm.mon tm.mday * 86400 + tm.hour * 3600 + tm.min * 60 + tm.sec

/-- A text whose date and time were read is parsed if the day exists. -/
theorem xtimeParse_of_read {s fmt rest : List Char} {tm : Tm}
    (hfmt : parseFormat fmt [] = dateTimeFormat 'T')
    (hread : strptime lib (dateTimeFormat 'T') s ⟨0, 0, 0, 0, 0, 0⟩ = some (tm, rest)) :
    xtimeParse lib (some s) (some fmt) =
      if tm.mday < 1 ∨ tm.mday > daysInMonth (tm.year + 1900) tm.mon then .error .dateOutOfRange
      else .ok (parseZone (wallSeconds tm) (parseFraction rest).1 (parseFraction rest).2) := by
  unfold xtimeParse
  simp only [hfmt, hread]
  rfl

/-- The days of the years before 1970 are lost. -/
theorem xtimeParse_iso8601 (h : d.Valid) (hw : 0 < w) (hw' : w ≤ 4) :
    xtimeParse lib (some (d.iso8601 w)) (some fmtIso8601) =
      .ok ⟨d.number - lostDays d.date.year * 86400, 0, 0, false⟩ := by
  have hread := strptime_iso8601 lib h hw hw' [] ⟨0, 0, 0, 0, 0, 0⟩
  have hcount := loops_lost h.date
  have hlast := day_le_daysInMonth h.date
  have hpos := h.date.1
  have hseconds : wallSeconds d.tm = d.number - lostDays d.date.year * 86400 := by
    simp only [wallSeconds, DateTime.tm, Int.sub_add_cancel, hcount, DateTime.number]
    omega
  rw [List.append_nil] at hread
  rw [xtimeParse_of_read lib parseFormat_iso8601 hread, hseconds, DateTime.tm]
  dsimp only
  rw [Int.sub_add_cancel, if_neg (by omega)]
  rfl

theorem DateTime.before_or_eq (d d' : DateTime) : d.Before d' ∨ d = d' ∨ d'.Before d := by
  rcases d with ⟨date, hour, min, sec⟩
  rcases d' with ⟨date', hour', min', sec'⟩
  simp only [DateTime.Before, DateTime.mk.injEq]
  -- the date decides, and on one day the time of it
  rcases Gregorian.before_or_eq date date' with hlt | rfl | hgt
  · exact .inl (.inl hlt)
  · have htime : (hour < hour' ∨ hour = hour' ∧ (min < min' ∨ min = min' ∧ sec < sec')) ∨
        (hour = hour' ∧ min = min' ∧ sec = sec') ∨
        (hour' < hour ∨ hour' = hour ∧ (min' < min ∨ min' = min ∧ sec' < sec)) := by omega
    rcases htime with hlt | heq | hgt
    · exact .inl (.inr ⟨rfl, hlt⟩)
    · exact .inr (.inl ⟨rfl, heq⟩)
    · exact .inr (.inr (.inr ⟨rfl, hgt⟩))
  · exact .inr (.inr (.inl hgt))

theorem DateTime.Before.number_lt (hlt : d.Before d') (h : d.Valid) (h' : d'.Valid) :
    d.number < d'.number := by
  obtain ⟨hdate, -, hhour, hmin, hsec⟩ := h
  obtain ⟨hdate', -, hhour', hmin', hsec'⟩ := h'
  unfold DateTime.number
  rcases hlt with hday | ⟨hday, htime⟩
  · -- the time of a day is less than a day
    have hnumber := (dayNumber_lt_iff hdate hdate').mpr hday
    omega
  · rw [hday]
    omega

theorem number_lt_iff (h : d.Valid) (h' : d'.Valid) : d.number < d'.number ↔ d.Before d' := by
  have hgrows : d.Before d' → d.number < d'.number := fun hlt => hlt.number_lt h h'
  have hgrows' : d'.Before d → d'.number < d.number := fun hgt => hgt.number_lt h' h
  exact growing_lt_iff (d.before_or_eq d') hgrows hgrows'

theorem number_eq_iff (h : d.Valid) (h' : d'.Valid) : d.number = d'.number ↔ d = d' := by
  have hgrows : d.Before d' → d.number < d'.number := fun hlt => hlt.number_lt h h'
  have hgrows' : d'.Before d → d'.number < d.number := fun hgt => hgt.number_lt h' h
  exact growing_eq_iff (d.before_or_eq d') hgrows hgrows'

/-- Both texts are parsed, the times compare as the date-times do, and they are as far apart. -/
def OrderKept (d d' : DateTime) (text text' : List Char) : Prop :=
  ∃ t t', xtimeParse lib (some text) (some fmtIso8601) = .ok t ∧
    xtimeParse lib (some text') (some fmtIso8601) = .ok t' ∧
    (xtimeCompare (some t) (some t') = -1 ↔ d.Before d') ∧
    (xtimeCompare (some t) (some t') = 0 ↔ d = d') ∧
    (xtimeCompare (some t) (some t') = 1 ↔ d'.Before d) ∧
    t.seconds - t'.seconds = d.number - d'.number

theorem orderKept_iff (h : d.Valid) (h' : d'.Valid) (hw : 0 < w ∧ w ≤ 4)
    (hw' : 0 < w' ∧ w' ≤ 4) : OrderKept lib d d' (d.iso8601 w) (d'.iso8601 w') ↔
      lostDays d.date.year = lostDays d'.date.year := by
  unfold OrderKept
  simp only [xtimeParse_iso8601 lib h hw.1 hw.2, xtimeParse_iso8601 lib h' hw'.1 hw'.2,
    Except.ok.injEq, exists_and_left, exists_eq_left']
  have hnanos : (0 : Nat) < 10 ^ 9 := by decide
  rw [xtimeCompare_eq_sign hnanos hnanos]
  constructor
  · rintro ⟨-, -, -, hdiff⟩
    omega
  · intro hlost
    -- what is lost cancels out
    have hinstant : Xtime.instant ⟨d.number - lostDays d.date.year * 86400, 0, 0, false⟩ -
        Xtime.instant ⟨d'.number - lostDays d'.date.year * 86400, 0, 0, false⟩ =
          (d.number - d'.number) * 10 ^ 9 := by
      simp only [Xtime.instant, hlost]
      omega
    rw [hinstant, Int.sign_eq_neg_one_iff_neg, Int.sign_eq_zero_iff_zero,
      Int.sign_eq_one_iff_pos, ← number_lt_iff h h', ← number_eq_iff h h', ← number_lt_iff h' h,
      hlost]
    omega

/-- The days that are lost tell the years before 1970 apart. -/
theorem lostDays_eq_iff {year year' : Int} :
    lostDays year = lostDays year' ↔ year = year' ∨ 1970 ≤ year ∧ 1970 ≤ year' := by
  constructor
  · intro h
    rcases Int.lt_or_le year 1970 with hlt | hge
    · rcases Int.lt_or_le year' 1970 with hlt' | hge'
      · rw [lostDays, if_pos hlt, lostDays, if_pos hlt'] at h
        exact .inl (daysBeforeYear_inj h)
      · exact absurd (lostDays_eq_zero_iff.mp (h.trans (lostDays_eq_zero_iff.mpr hge')))
          (Int.not_le.mpr hlt)
    · exact .inr ⟨hge, lostDays_eq_zero_iff.mp (h.symm.trans (lostDays_eq_zero_iff.mpr hge))⟩
  · rintro (rfl | ⟨hge, hge'⟩)
    · rfl
    · rw [lostDays_eq_zero_iff.mpr hge, lostDays_eq_zero_iff.mpr hge']

/-- Order and distance are right for two date-times of one year, and from 1970 on. -/
theorem iso8601_order_iff (h : d.Valid) (h' : d'.Valid) (hw : 0 < w ∧ w ≤ 4)
    (hw' : 0 < w' ∧ w' ≤ 4) : OrderKept lib d d' (d.iso8601 w) (d'.iso8601 w') ↔
      d.date.year = d'.date.year ∨ 1970 ≤ d.date.year ∧ 1970 ≤ d'.date.year :=
  (orderKept_iff lib h h' hw hw').trans lostDays_eq_iff

/-- From a leap day to a century that has none. -/
theorem iso8601_order_iff_century :
    OrderKept ⟨fun _ _ => [], fun _ _ _ => none⟩ ⟨⟨2000, 1, 29⟩, 23, 59, 59⟩ ⟨⟨2100, 2, 1⟩, 0, 0, 0⟩
      "2000-02-29T23:59:59".toList "2100-03-01T00:00:00".toList := by
  have hvalid : DateTime.Valid ⟨⟨2000, 1, 29⟩, 23, 59, 59⟩ :=
    ⟨by decide, by decide, by decide, by decide, by decide⟩
  have hvalid' : DateTime.Valid ⟨⟨2100, 2, 1⟩, 0, 0, 0⟩ :=
    ⟨by decide, by decide, by decide, by decide, by decide⟩
  have hw : 0 < 4 ∧ 4 ≤ 4 := by decide
  exact (iso8601_order_iff _ hvalid hvalid' hw hw).mpr (.inr (by decide))

/-- The last second before the epoch is taken for one of the end of 1970. -/
theorem epoch_eve_order :
    ¬ OrderKept ⟨fun _ _ => [], fun _ _ _ => none⟩ ⟨⟨1969, 11, 31⟩, 23, 59, 59⟩
      ⟨⟨1970, 0, 1⟩, 0, 0, 0⟩ "1969-12-31T23:59:59".toList "1970-01-01T00:00:00".toList := by
  have hvalid : DateTime.Valid ⟨⟨1969, 11, 31⟩, 23, 59, 59⟩ :=
    ⟨by decide, by decide, by decide, by decide, by decide⟩
  have hvalid' : DateTime.Valid ⟨⟨1970, 0, 1⟩, 0, 0, 0⟩ :=
    ⟨by decide, by decide, by decide, by decide, by decide⟩
  have hw : 0 < 4 ∧ 4 ≤ 4 := by decide
  intro h
  exact absurd ((orderKept_iff _ hvalid hvalid' hw hw).mp h) (by decide)

/-! ## What stands behind -/

/-- The sign of an offset. -/
inductive Sign : Char → Int → Prop
  | plus : Sign '+' 1
  | minus : Sign '-' (-1)

/-- Two digits. -/
def TwoDigits (a b : Char) (n : Nat) : Prop :=
  a.isDigit = true ∧ b.isDigit = true ∧ decimalValue [a, b] = n

/-- A designator of a time zone, with its offset in minutes: `Z`, `+HH`, `+HHMM` or `+HH:MM`, with
either sign. -/
inductive Designator : List Char → Int → Prop
  | utc : Designator ['Z'] 0
  | hours {c a b : Char} {sign : Int} {hours : Nat} : Sign c sign → TwoDigits a b hours →
      hours ≤ 23 → Designator [c, a, b] (hours * 60 * sign)
  | minutes {c a b a' b' : Char} {sign : Int} {hours minutes : Nat} : Sign c sign →
      TwoDigits a b hours → hours ≤ 23 → TwoDigits a' b' minutes → minutes ≤ 59 →
      Designator [c, a, b, a', b'] ((hours * 60 + minutes) * sign)
  | colon {c a b a' b' : Char} {sign : Int} {hours minutes : Nat} : Sign c sign →
      TwoDigits a b hours → hours ≤ 23 → TwoDigits a' b' minutes → minutes ≤ 59 →
      Designator [c, a, b, ':', a', b'] ((hours * 60 + minutes) * sign)

/-- A point and digits, or nothing. -/
def Fraction (frac : List Char) : Prop :=
  frac = [] ∨ ∃ l, l ≠ [] ∧ (∀ c ∈ l, c.isDigit = true) ∧ frac = '.' :: l

/-- What may stand behind the seconds, with the fraction and the time zone it consists of; spaces
in front of the time zone are allowed or not. -/
structure Suffix (blanks : Bool) (rest frac zone : List Char) : Prop where
  fraction : Fraction frac
  parts : ∃ spaces : List Char, rest = frac ++ (spaces ++ zone) ∧ (∀ c ∈ spaces, c = ' ') ∧
    (blanks = false → spaces = [])
  zone : zone = [] ∨ ∃ offset, Designator zone offset

/-- `strptime` finds a date and a time, in front of `rest`. -/
def Reads (s : List Char) (tm : Tm) (rest : List Char) : Prop :=
  strptime lib (dateTimeFormat 'T') s ⟨0, 0, 0, 0, 0, 0⟩ = some (tm, rest)

/-- The day exists in its month. -/
def Tm.DayExists (tm : Tm) : Prop :=
  1 ≤ tm.mday ∧ tm.mday ≤ daysInMonth (tm.year + 1900) tm.mon

instance (tm : Tm) : Decidable tm.DayExists := inferInstanceAs (Decidable (_ ∧ _))

/-- The whole text is a date and a time, and what may stand behind them. -/
def WellFormed (blanks : Bool) (s : List Char) : Prop :=
  ∃ tm rest frac zone, Reads lib s tm rest ∧ Suffix blanks rest frac zone

theorem ne_colon_of_isDigit {c : Char} (h : c.isDigit = true) : c ≠ ':' := by
  rintro rfl
  exact absurd h (by decide)

theorem Sign.parse {c : Char} {sign : Int} (h : Sign c sign) (str : List Char) :
    parseTzOffset (c :: str) = parseHoursMinutes sign str := by
  cases h <;> rfl

theorem Sign.total_le {c : Char} {sign : Int} (h : Sign c sign) {hours minutes : Nat}
    (hh : hours ≤ 23) (hm : minutes ≤ 59) :
    ¬ (((hours : Int) * 60 + minutes) * sign).natAbs > maxTzOffset := by
  unfold maxTzOffset
  cases h <;> omega

/-- The minutes may be left out, or follow a colon. -/
theorem parseTzOffset_designator {zone : List Char} {offset : Int} (h : Designator zone offset) :
    parseTzOffset zone = some offset := by
  cases h with
  | utc => rfl
  | hours hsign hhours hle =>
    obtain ⟨ha, hb, hvalue⟩ := hhours
    have htotal := hsign.total_le hle (Nat.zero_le 59)
    rw [Int.natCast_zero, Int.add_zero] at htotal
    simp only [hsign.parse, parseHoursMinutes, ha, hb, hvalue, List.head?_nil, reduceCtorEq,
      Bool.true_eq_false, or_self, if_false, Nat.not_lt.mpr hle, Int.natCast_zero, Int.add_zero,
      htotal]
    rfl
  | minutes hsign hhours hle hminutes hle' =>
    obtain ⟨ha, hb, hvalue⟩ := hhours
    obtain ⟨ha', hb', hvalue'⟩ := hminutes
    have htotal := hsign.total_le hle hle'
    have hcolon := ne_colon_of_isDigit ha'
    simp only [hsign.parse, parseHoursMinutes, ha, hb, hvalue, ha', hb', hvalue', List.head?_cons,
      Option.some.injEq, hcolon, Bool.true_eq_false, or_self, and_self, if_true, if_false,
      Nat.not_lt.mpr hle, Nat.not_lt.mpr hle', htotal]
  | colon hsign hhours hle hminutes hle' =>
    obtain ⟨ha, hb, hvalue⟩ := hhours
    obtain ⟨ha', hb', hvalue'⟩ := hminutes
    have htotal := hsign.total_le hle hle'
    simp only [hsign.parse, parseHoursMinutes, ha, hb, hvalue, ha', hb', hvalue', List.head?_cons,
      List.tail_cons, Bool.true_eq_false, or_self, and_self, if_true, if_false,
      Nat.not_lt.mpr hle, Nat.not_lt.mpr hle', htotal]

theorem Designator.head {zone : List Char} {offset : Int} (h : Designator zone offset) :
    ∃ c rest, zone = c :: rest ∧ c.isDigit = false ∧ c ≠ '.' ∧ c ≠ ' ' := by
  have hsign : ∀ {c : Char} {sign : Int}, Sign c sign →
      c.isDigit = false ∧ c ≠ '.' ∧ c ≠ ' ' := by
    rintro c sign (_ | _) <;> decide
  cases h with
  | utc => exact ⟨_, _, rfl, by decide⟩
  | hours h => exact ⟨_, _, rfl, hsign h⟩
  | minutes h => exact ⟨_, _, rfl, hsign h⟩
  | colon h => exact ⟨_, _, rfl, hsign h⟩

/-- The digits of a fraction are consumed, however many they are. -/
theorem fractionLoop_rest {l rest : List Char} (hl : ∀ c ∈ l, c.isDigit = true)
    (hrest : ∀ c ∈ rest.head?, c.isDigit = false) (nanos multiplier : Nat) :
    fractionLoop (l ++ rest) nanos multiplier = ((fractionLoop l nanos multiplier).1, rest) := by
  induction l generalizing nanos multiplier with
  | nil =>
    cases rest with
    | nil => rfl
    | cons c rest =>
      have hstop : fractionLoop (c :: rest) nanos multiplier = (nanos, c :: rest) := by
        rw [fractionLoop, hrest c rfl]
        rfl
      exact hstop
  | cons c l ih =>
    have hdigit := hl c List.mem_cons_self
    have ih' := ih fun x hx => hl x (List.mem_cons_of_mem c hx)
    rw [List.cons_append, fractionLoop, fractionLoop, if_pos hdigit, if_pos hdigit]
    split
    · exact ih' _ _
    · exact ih' _ _

theorem parseFraction_rest {frac rest : List Char} (hfrac : Fraction frac)
    (hrest : ∀ c ∈ rest.head?, c.isDigit = false ∧ c ≠ '.') :
    parseFraction (frac ++ rest) = ((parseFraction frac).1, rest) := by
  rcases hfrac with rfl | ⟨l, -, hl, rfl⟩
  · rw [List.nil_append]
    unfold parseFraction
    split
    · exact absurd rfl (hrest _ rfl).2
    · rfl
  · exact fractionLoop_rest hl (fun c hc => (hrest c hc).1) _ _

/-- Whatever stands behind it, a date that exists is parsed. -/
theorem xtimeParse_rfc3339 {s rest : List Char} {tm : Tm} (hread : Reads lib s tm rest)
    (hday : tm.DayExists) : xtimeParse lib (some s) (some fmtRfc3339) =
      .ok (parseZone (wallSeconds tm) (parseFraction rest).1 (parseFraction rest).2) := by
  rw [xtimeParse_of_read lib parseFormat_rfc3339 hread, if_neg]
  rintro (hlow | hhigh)
  · exact Int.not_lt.mpr hday.1 hlow
  · exact Int.not_lt.mpr hday.2 hhigh

/-- The time that a text of the format says. -/
theorem xtimeParse_wellFormed {blanks : Bool} {s rest frac zone : List Char} {tm : Tm}
    (hread : Reads lib s tm rest) (hday : tm.DayExists)
    (hsuffix : Suffix blanks rest frac zone) :
    (zone = [] → xtimeParse lib (some s) (some fmtRfc3339) =
      .ok ⟨wallSeconds tm, (parseFraction frac).1, 0, false⟩) ∧
    ∀ offset, Designator zone offset → xtimeParse lib (some s) (some fmtRfc3339) =
      .ok ⟨wallSeconds tm - offset * 60, (parseFraction frac).1, offset, true⟩ := by
  obtain ⟨hfrac, ⟨spaces, rfl, hspaces, -⟩, hzone⟩ := hsuffix
  have hhead : ∀ c ∈ (spaces ++ zone).head?, c.isDigit = false ∧ c ≠ '.' := by
    intro c hc
    cases spaces with
    | nil =>
      -- a designator starts with a sign or with `Z`
      rcases hzone with rfl | ⟨offset, hzone⟩
      · cases hc
      · obtain ⟨c', rest, rfl, hdigit, hdot, -⟩ := hzone.head
        cases hc
        exact ⟨hdigit, hdot⟩
    | cons c' spaces =>
      cases hc
      rw [hspaces c List.mem_cons_self]
      decide
  have hskip : (spaces ++ zone).dropWhile (· = ' ') = zone.dropWhile (· = ' ') :=
    List.dropWhile_append_of_pos fun c hc => decide_eq_true (hspaces c hc)
  rw [xtimeParse_rfc3339 lib hread hday, parseFraction_rest hfrac hhead]
  unfold parseZone
  rw [hskip]
  constructor
  · rintro rfl
    rfl
  · intro offset hoffset
    obtain ⟨c, rest, rfl, -, -, hspace⟩ := hoffset.head
    rw [List.dropWhile_cons_of_neg (by simpa using hspace)]
    simp only [parseTzOffset_designator hoffset]

theorem reads_of_ok {s : List Char} {t : Xtime}
    (h : xtimeParse lib (some s) (some fmtRfc3339) = .ok t) :
    ∃ tm rest, Reads lib s tm rest ∧ tm.DayExists := by
  cases hread : strptime lib (dateTimeFormat 'T') s ⟨0, 0, 0, 0, 0, 0⟩ with
  | none =>
    unfold xtimeParse at h
    simp only [parseFormat_rfc3339, hread, reduceCtorEq] at h
  | some r =>
    obtain ⟨tm, rest⟩ := r
    refine ⟨tm, rest, hread, ?_⟩
    rw [xtimeParse_of_read lib parseFormat_rfc3339 hread] at h
    split at h
    · cases h
    · unfold Tm.DayExists
      omega

/-- What begins with the sign of an offset is all time zone. -/
theorem Suffix.zone_eq {blanks : Bool} {rest frac zone : List Char} {c : Char} {sign : Int}
    (h : Suffix blanks (c :: rest) frac zone) (hc : Sign c sign) : zone = c :: rest := by
  obtain ⟨hfrac, ⟨spaces, hrest, hspaces, -⟩, -⟩ := h
  rcases hfrac with rfl | ⟨l, -, -, rfl⟩
  · cases spaces with
    | nil => exact hrest.symm
    | cons c' spaces =>
      cases hrest
      cases hspaces c List.mem_cons_self
      cases hc
  · cases hrest
    cases hc

end Solidc.Time
