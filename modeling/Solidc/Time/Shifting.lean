import Solidc.Time.Arithmetic

/-! # Months and years

`xtime_add_months` and `xtime_add_years` take the date apart, move it and count its days again,
with a loop that starts at 1970.

* `loops_lost` — what the loop counts for any year: the days of the years before 1970 are lost;
* `addMonths_eq`, `addYears_eq` — the two functions by the calendar;
* `shifts_exact_iff` — they are right exactly where the new year is not before 1970;
* `addMonths_eq_addYears` — twelve months are a year.
-/

namespace Solidc.Time

open CLib Gregorian

/-! ## The code -/

/-- The days since the epoch as `xtime.c` counts them; they fit into `int64_t` for every `int` that
is a year. -/
def countDays (year month day : Int) : Int :=
  monthLoop year month 0 (yearLoop year 1970 0) + (day - 1)

/-- The seconds since midnight. -/
def timeOfDaySeconds (seconds : Int) : Int :=
  let n := seconds.tmod 86400
  if n < 0 then n + 86400 else n

/-- `xtime_add_months`. -/
def xtimeAddMonths (t : Option Xtime) (months : Int) : Option (Except XtimeError Xtime) :=
  match t with
  | none => some (.error .invalidArg)
  | some t =>
    match gmtimeR t.seconds with
    | none => some (.error .invalidTime)
    | some tm => do
      let totalMonths ← checked32 (tm.mon + months)
      let yearAdjust := if totalMonths.tmod 12 < 0 then totalMonths.tdiv 12 - 1
        else totalMonths.tdiv 12
      let newMonth := if totalMonths.tmod 12 < 0 then totalMonths.tmod 12 + 12
        else totalMonths.tmod 12
      let year ← checked32 (tm.year + 1900)
      let newYear ← checked32 (year + yearAdjust)
      let maxDay := daysInMonth newYear newMonth
      let newDay := if tm.mday > maxDay then maxDay else tm.mday
      some (.ok { t with
        seconds := countDays newYear newMonth newDay * 86400 + timeOfDaySeconds t.seconds })

/-- `xtime_add_years`. -/
def xtimeAddYears (t : Option Xtime) (years : Int) : Option (Except XtimeError Xtime) :=
  match t with
  | none => some (.error .invalidArg)
  | some t =>
    match gmtimeR t.seconds with
    | none => some (.error .invalidTime)
    | some tm => do
      let year ← checked32 (tm.year + 1900)
      let newYear ← checked32 (year + years)
      let newDay := if tm.mon = 1 ∧ tm.mday = 29 ∧ isLeapYear newYear = false then 28 else tm.mday
      some (.ok { t with
        seconds := countDays newYear tm.mon newDay * 86400 + timeOfDaySeconds t.seconds })

/-! ## Days -/

/-- The days of the years before 1970 that the loop does not count. -/
def lostDays (year : Int) : Int := if year < 1970 then daysBeforeYear year else 0

theorem lostDays_eq_zero_iff {year : Int} : lostDays year = 0 ↔ 1970 ≤ year := by
  unfold lostDays
  split
  case isTrue h =>
    have hneg := daysBeforeYear_neg h
    exact ⟨fun h0 => absurd h0 (by omega), fun hge => absurd hge (by omega)⟩
  case isFalse h => exact ⟨fun _ => Int.not_lt.mp h, fun _ => rfl⟩

theorem loops_lost {date : Date} (h : date.Valid) :
    countDays date.year date.month date.day = date.dayNumber - lostDays date.year := by
  unfold countDays
  rw [monthLoop_eq (Nat.le_of_lt h.2.1)]
  unfold lostDays Date.dayNumber
  split
  case isTrue hlt =>
    -- the loop over the years does not run
    rw [yearLoop, if_neg (by omega)]
    omega
  case isFalse hge =>
    rw [yearLoop_eq (Int.not_lt.mp hge), daysBeforeYear_epoch]
    omega

theorem timeOfDaySeconds_eq (seconds : Int) : timeOfDaySeconds seconds = seconds % 86400 := by
  unfold timeOfDaySeconds
  rcases Int.le_total 0 seconds with hpos | hneg
  · rw [Int.tmod_eq_emod_of_nonneg hpos, if_neg (by omega)]
  · have hmod := Int.neg_tmod (-seconds) 86400
    rw [Int.neg_neg, Int.tmod_eq_emod_of_nonneg (by omega : 0 ≤ -seconds)] at hmod
    rw [hmod]
    dsimp only
    split <;> omega

/-- The date of a time. -/
def Xtime.date (t : Xtime) : Date := Date.ofDay (t.seconds / 86400)

/-- The same time of another day. -/
def Xtime.onDate (t : Xtime) (date : Date) : Xtime :=
  { t with seconds := date.dayNumber * 86400 + t.seconds % 86400 }

variable {t : Xtime} {n : Int}

/-- `gmtime_r` finds the date, or its year does not fit. -/
theorem gmtimeR_cases (t : Xtime) : gmtimeR t.seconds = none ∨ ∃ tm, gmtimeR t.seconds = some tm ∧
    tm.year + 1900 = t.date.year ∧ tm.mon = t.date.month ∧ tm.mday = t.date.day := by
  unfold gmtimeR
  dsimp only
  split
  case isTrue h => exact .inr ⟨_, rfl, Int.sub_add_cancel _ _, rfl, rfl⟩
  case isFalse h => exact .inl rfl

theorem gmtimeR_date (h : -2 ^ 31 + 1900 ≤ t.date.year) (h' : t.date.year < 2 ^ 31) :
    ∃ tm, gmtimeR t.seconds = some tm ∧ tm.year + 1900 = t.date.year ∧
      tm.mon = t.date.month ∧ tm.mday = t.date.day := by
  have hfits : -(2 ^ 31) ≤ (Date.ofDay (t.seconds / 86400)).year - 1900 ∧
      (Date.ofDay (t.seconds / 86400)).year - 1900 < 2 ^ 31 := by
    unfold Xtime.date at h h'
    omega
  exact ⟨_, if_pos hfits, Int.sub_add_cancel _ _, rfl, rfl⟩

theorem valid_date (t : Xtime) : t.date.Valid := valid_ofDay _

/-! ## The two functions by the calendar -/

/-- The correction for negative months makes the truncating division one that rounds down. -/
theorem floor_months (total : Int) :
    (if total.tmod 12 < 0 then total.tdiv 12 - 1 else total.tdiv 12) = total / 12 ∧
      (if total.tmod 12 < 0 then total.tmod 12 + 12 else total.tmod 12) = total % 12 := by
  have hsplit := Int.mul_tdiv_add_tmod total 12
  rcases Int.le_total 0 total with hpos | hneg
  · have hrem : total.tmod 12 = total % 12 := Int.tmod_eq_emod_of_nonneg hpos
    rw [hrem] at hsplit ⊢
    split <;> omega
  · have hrem := Int.neg_tmod (-total) 12
    rw [Int.neg_neg, Int.tmod_eq_emod_of_nonneg (by omega : 0 ≤ -total)] at hrem
    rw [hrem] at hsplit ⊢
    split <;> omega

/-- The time of `t` on a date, as far as the loop from 1970 on counts its days. -/
def Xtime.countedOn (t : Xtime) (date : Date) : Xtime :=
  { t with seconds := (date.dayNumber - lostDays date.year) * 86400 + t.seconds % 86400 }

theorem countedOn_eq_iff (t : Xtime) (date : Date) :
    t.countedOn date = t.onDate date ↔ 1970 ≤ date.year := by
  rw [← lostDays_eq_zero_iff]
  constructor
  · intro h
    have hseconds := congrArg Xtime.seconds h
    simp only [Xtime.countedOn, Xtime.onDate] at hseconds
    omega
  · intro h
    rw [Xtime.countedOn, h, Int.sub_zero, Xtime.onDate]

/-- The day is cut to the length of the month. -/
theorem clamp_eq (year : Int) {month : Nat} (day : Nat) (hmonth : month < 12) :
    (if (day : Int) > daysInMonth year month then daysInMonth year month else day) =
      (min day ((monthLengths year).getD month 0) : Nat) := by
  have hm : month < (monthLengths year).length := hmonth
  rw [daysInMonth_eq year hm, getD_monthLengths hm]
  split <;> omega

theorem fits32_year {year : Int} (h : 1 ≤ year ∧ year ≤ 9999) : Fits32 year := by
  constructor <;> omega

theorem addMonths_eq {tm : Tm} (htm : gmtimeR t.seconds = some tm)
    (hyear : tm.year + 1900 = t.date.year) (hmon : tm.mon = t.date.month)
    (hday : tm.mday = t.date.day) (hfits : Fits32 t.date.year) (hn : Fits32 (t.date.month + n))
    (hnew : Fits32 (t.date.addMonths n).year) :
    xtimeAddMonths (some t) n = some (.ok (t.countedOn (t.date.addMonths n))) := by
  obtain ⟨hdiv, hmod⟩ := floor_months (t.date.month + n)
  have hy : t.date.year + (t.date.month + n) / 12 = (t.date.addMonths n).year := by
    simp only [Date.addMonths]
    omega
  have hm : ((t.date.month : Int) + n) % 12 = (t.date.addMonths n).month := by
    simp only [Date.addMonths]
    omega
  have hvalid := (valid_date t).addMonths n
  have hclamp := clamp_eq (t.date.addMonths n).year t.date.day hvalid.month_lt
  have hcount := loops_lost hvalid
  delta xtimeAddMonths
  simp only [htm, hyear, hmon, hday, Option.bind_eq_bind, timeOfDaySeconds_eq]
  -- month, year and day are those of the moved date
  rw [checked32_of_fits hn, Option.bind_some, hdiv, hmod, checked32_of_fits hfits, Option.bind_some,
    hy, checked32_of_fits hnew, Option.bind_some, hm, hclamp]
  exact congrArg (fun days => some (Except.ok
    { t with seconds := days * 86400 + t.seconds % 86400 })) hcount

/-- A day that exists in one year is cut only if it is the leap day. -/
theorem leapDay_eq {date : Date} (h : date.Valid) (n : Int) :
    (if (date.month : Int) = 1 ∧ (date.day : Int) = 29 ∧ isLeapYear (date.year + n) = false then 28
      else (date.day : Int)) = (date.addYears n).day := by
  have hday := h.eq_min
  have hleap := isLeapYear_iff (date.year + n)
  simp only [Date.addYears]
  by_cases hmonth : date.month = 1
  · rw [hmonth, february_eq] at hday ⊢
    cases hly : isLeapYear (date.year + n) with
    | true =>
      -- February has room for every day of it
      rw [if_pos (hleap.mp hly)]
      split at hday <;> simp <;> omega
    | false =>
      have hnot : ¬ isLeap (date.year + n) := fun hl => by
        rw [hleap.mpr hl] at hly
        cases hly
      rw [if_neg hnot]
      -- the day is the 29th only if its own year is a leap year
      split at hday
      · rcases Nat.lt_or_ge date.day 29 with hlt | hge
        · rw [if_neg (by omega)]
          omega
        · rw [if_pos ⟨rfl, by omega, rfl⟩]
          omega
      · rw [if_neg (by omega)]
        omega
  · rw [monthLengths_eq hmonth _ date.year, ← hday, if_neg (by omega)]

theorem addYears_eq {tm : Tm} (htm : gmtimeR t.seconds = some tm)
    (hyear : tm.year + 1900 = t.date.year) (hmon : tm.mon = t.date.month)
    (hday : tm.mday = t.date.day) (hfits : Fits32 t.date.year)
    (hnew : Fits32 (t.date.addYears n).year) :
    xtimeAddYears (some t) n = some (.ok (t.countedOn (t.date.addYears n))) := by
  have hleap := leapDay_eq (valid_date t) n
  have hcount := loops_lost ((valid_date t).addYears n)
  have hy : t.date.year + n = (t.date.addYears n).year := rfl
  rw [hy] at hleap
  delta xtimeAddYears
  simp only [htm, hyear, hmon, hday, Option.bind_eq_bind, timeOfDaySeconds_eq]
  rw [checked32_of_fits hfits, Option.bind_some, hy, checked32_of_fits hnew, Option.bind_some,
    hleap]
  exact congrArg (fun days => some (Except.ok
    { t with seconds := days * 86400 + t.seconds % 86400 })) hcount

/-! ## Where they are right -/

theorem addMonths_exact_iff (hyear : 1 ≤ t.date.year ∧ t.date.year ≤ 9999)
    (hnew : 1 ≤ (t.date.addMonths n).year ∧ (t.date.addMonths n).year ≤ 9999) :
    xtimeAddMonths (some t) n = some (.ok (t.onDate (t.date.addMonths n))) ↔
      1970 ≤ (t.date.addMonths n).year := by
  obtain ⟨tm, htm, hy, hm, hd⟩ := gmtimeR_date (t := t) (by omega) (by omega)
  have hmonth := (valid_date t).month_lt
  have hn : Fits32 (t.date.month + n) := by
    simp only [Date.addMonths] at hnew
    constructor <;> omega
  rw [addMonths_eq htm hy hm hd (fits32_year hyear) hn (fits32_year hnew), Option.some.injEq,
    Except.ok.injEq, countedOn_eq_iff]

theorem addYears_exact_iff (hyear : 1 ≤ t.date.year ∧ t.date.year ≤ 9999)
    (hnew : 1 ≤ (t.date.addYears n).year ∧ (t.date.addYears n).year ≤ 9999) :
    xtimeAddYears (some t) n = some (.ok (t.onDate (t.date.addYears n))) ↔
      1970 ≤ (t.date.addYears n).year := by
  obtain ⟨tm, htm, hy, hm, hd⟩ := gmtimeR_date (t := t) (by omega) (by omega)
  rw [addYears_eq htm hy hm hd (fits32_year hyear) (fits32_year hnew), Option.some.injEq,
    Except.ok.injEq, countedOn_eq_iff]

/-- `xtime_add_months` and `xtime_add_years` give the same time of the moved date, for years of one
to four digits, exactly if that date is not before 1970. -/
theorem shifts_exact_iff (t : Xtime) (hyear : 1 ≤ t.date.year ∧ t.date.year ≤ 9999) (n : Int) :
    (1 ≤ (t.date.addMonths n).year ∧ (t.date.addMonths n).year ≤ 9999 →
      (xtimeAddMonths (some t) n = some (.ok (t.onDate (t.date.addMonths n))) ↔
        1970 ≤ (t.date.addMonths n).year)) ∧
    (1 ≤ (t.date.addYears n).year ∧ (t.date.addYears n).year ≤ 9999 →
      (xtimeAddYears (some t) n = some (.ok (t.onDate (t.date.addYears n))) ↔
        1970 ≤ (t.date.addYears n).year)) :=
  ⟨addMonths_exact_iff hyear, addYears_exact_iff hyear⟩

/-- From the end of January 2024 to the leap day, and from there to the end of February 2023. -/
theorem shifts_exact_iff_leapDay :
    xtimeAddMonths (some ⟨1706659200, 0, 0, false⟩) 1 =
        some (.ok (Xtime.onDate ⟨1706659200, 0, 0, false⟩ ⟨2024, 1, 29⟩)) ∧
      xtimeAddYears (some ⟨1709164800, 0, 0, false⟩) (-1) =
        some (.ok (Xtime.onDate ⟨1709164800, 0, 0, false⟩ ⟨2023, 1, 28⟩)) :=
  ⟨((shifts_exact_iff ⟨1706659200, 0, 0, false⟩ (by decide) 1).1 (by decide)).mpr (by decide),
    ((shifts_exact_iff ⟨1709164800, 0, 0, false⟩ (by decide) (-1)).2 (by decide)).mpr (by decide)⟩

/-- A month before the epoch is taken for one of 1970. -/
theorem month_before_epoch :
    (Xtime.date ⟨0, 0, 0, false⟩).addMonths (-1) = ⟨1969, 11, 1⟩ ∧
      xtimeAddMonths (some ⟨0, 0, 0, false⟩) (-1) ≠
        some (.ok (Xtime.onDate ⟨0, 0, 0, false⟩ ⟨1969, 11, 1⟩)) := by
  refine ⟨rfl, fun h => ?_⟩
  exact absurd ((addMonths_exact_iff (by decide) (by decide)).mp h) (by decide)

/-! ## Twelve months -/

/-- Twelve times the months lead to the same time, or fail in the same way, as the years. -/
theorem addMonths_eq_addYears (t : Xtime) (n : Int) (hn : Fits32 (12 * n))
    (hn' : Fits32 (12 * n + 11)) :
    xtimeAddMonths (some t) (12 * n) = xtimeAddYears (some t) n := by
  rcases gmtimeR_cases t with hnone | ⟨tm, htm, hyear, hmon, hday⟩
  · delta xtimeAddMonths xtimeAddYears
    simp only [hnone]
  · have hmonth := (valid_date t).month_lt
    have htotal : Fits32 (t.date.month + 12 * n) := by
      unfold Fits32 at hn hn' ⊢
      omega
    have hsame := addMonths_twelve hmonth n
    by_cases hfits : Fits32 t.date.year
    · by_cases hnew : Fits32 (t.date.addYears n).year
      · rw [addYears_eq htm hyear hmon hday hfits hnew,
          addMonths_eq htm hyear hmon hday hfits htotal (by rwa [hsame]), hsame]
      · -- the new year does not fit, so its computation is undefined in both
        have hy : t.date.year + (t.date.month + 12 * n) / 12 = (t.date.addYears n).year := by
          simp only [Date.addYears]
          omega
        have hy' : t.date.year + n = (t.date.addYears n).year := rfl
        obtain ⟨hdiv, -⟩ := floor_months (t.date.month + 12 * n)
        delta xtimeAddMonths xtimeAddYears
        simp only [htm, hyear, hmon, Option.bind_eq_bind, checked32_of_fits htotal,
          checked32_of_fits hfits, Option.bind_some, hdiv, hy, hy', checked32_of_not_fits hnew,
          Option.bind_none]
    · delta xtimeAddMonths xtimeAddYears
      simp only [htm, hyear, hmon, Option.bind_eq_bind, checked32_of_fits htotal,
        checked32_of_not_fits hfits, Option.bind_some, Option.bind_none]

theorem addMonths_eq_addYears_decade :
    xtimeAddMonths (some ⟨1709164800, 5, 60, true⟩) (12 * -10) =
      xtimeAddYears (some ⟨1709164800, 5, 60, true⟩) (-10) :=
  addMonths_eq_addYears _ _ (by decide) (by decide)

end Solidc.Time
