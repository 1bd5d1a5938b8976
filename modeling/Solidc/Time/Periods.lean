import Solidc.Time.Shifting
import Mathlib.Order.Bounds.Defs

/-! # Periods of the calendar

The functions of `xtime.c` that truncate a time, and those that go to the first or the last
nanosecond of a period of the calendar. Truncation is C's division, which rounds up below zero.

* `daysFrom_eq`, `startOfWeek_eq` — the results by the number of the day;
* `starts_iff`, `ends_iff` — the first and the last second of a period of whole days;
* `periods_exact_iff` — for which times each of the nine functions is right.
-/

namespace Solidc.Time

open CLib Gregorian

/-! ## The code -/

/-- `t->seconds = (t->seconds / unit) * unit; t->nanoseconds = 0;`. -/
def truncateTo (unit : Int) (t : Option Xtime) : Except XtimeError Xtime :=
  match t with
  | none => .error .invalidArg
  | some t => .ok { t with seconds := t.seconds.tdiv unit * unit, nanoseconds := 0 }

/-- `xtime_truncate_to_minute`. -/
def xtimeTruncateToMinute : Option Xtime → Except XtimeError Xtime := truncateTo 60

/-- `xtime_truncate_to_hour`. -/
def xtimeTruncateToHour : Option Xtime → Except XtimeError Xtime := truncateTo 3600

/-- `xtime_truncate_to_day`. -/
def xtimeTruncateToDay : Option Xtime → Except XtimeError Xtime := truncateTo 86400

/-- What `gmtime_r` also fills in: the day of the week, from Sunday, and the day of the year. -/
structure TmDay extends Tm where
  wday : Int
  yday : Int

/-- `gmtime_r`, with the days of the week and the year. -/
def gmtimeDayR (timestamp : Int) : Option TmDay :=
  (gmtimeR timestamp).map fun tm =>
    { tm with
      wday := (timestamp / 86400 + 4) % 7
      yday := timestamp / 86400 - daysBeforeYear (tm.year + 1900) }

/-- `xtime_start_of_week`. -/
def xtimeStartOfWeek (t : Option Xtime) : Option (Except XtimeError Xtime) :=
  match xtimeTruncateToDay t with
  | .error e => some (.error e)
  | .ok result =>
    match gmtimeDayR result.seconds with
    | none => some (.error .invalidTime)
    | some tm =>
      let daysToMonday := if tm.wday = 0 then 6 else tm.wday - 1
      xtimeAddDays (some result) (-daysToMonday)

/-- The broken-down time of `t` gives a number of days; they are added to the truncated time. -/
def daysFrom (days : TmDay → Option Int) (t : Option Xtime) : Option (Except XtimeError Xtime) :=
  match t with
  | none => some (.error .invalidArg)
  | some t =>
    match gmtimeDayR t.seconds with
    | none => some (.error .invalidTime)
    | some tm => do
      let n ← days tm
      match xtimeTruncateToDay (some t) with
      | .error e => some (.error e)
      | .ok result => xtimeAddDays (some result) n

/-- `result->seconds += 86399; result->nanoseconds = 999999999;`. -/
def toDayEnd (r : Except XtimeError Xtime) : Option (Except XtimeError Xtime) :=
  match r with
  | .error e => some (.error e)
  | .ok result => do
    let seconds ← checked64 (result.seconds + 86399)
    some (.ok { result with seconds, nanoseconds := 999999999 })

/-- `xtime_start_of_month`. -/
def xtimeStartOfMonth : Option Xtime → Option (Except XtimeError Xtime) :=
  daysFrom fun tm => some (-(tm.mday - 1))

/-- `xtime_start_of_year`. -/
def xtimeStartOfYear : Option Xtime → Option (Except XtimeError Xtime) :=
  daysFrom fun tm => some (-tm.yday)

/-- `xtime_end_of_day`. -/
def xtimeEndOfDay (t : Option Xtime) : Option (Except XtimeError Xtime) :=
  toDayEnd (xtimeTruncateToDay t)

/-- `xtime_end_of_month`. -/
def xtimeEndOfMonth (t : Option Xtime) : Option (Except XtimeError Xtime) := do
  let r ← daysFrom (fun tm => do
    let year ← checked32 (tm.year + 1900)
    some (daysInMonth year tm.mon - tm.mday)) t
  toDayEnd r

/-- `xtime_end_of_year`. -/
def xtimeEndOfYear (t : Option Xtime) : Option (Except XtimeError Xtime) := do
  let r ← daysFrom (fun tm => do
    let year ← checked32 (tm.year + 1900)
    let totalDaysInYear := if isLeapYear year then 366 else 365
    some (totalDaysInYear - 1 - tm.yday)) t
  toDayEnd r

/-! ## Periods -/

/-- The day of a second. -/
def dayOf (s : Int) : Int := s / 86400

/-- The week of a second; weeks begin on Monday, and 1970-01-01 was a Thursday. -/
def weekOf (s : Int) : Int := (dayOf s + 3) / 7

/-- The month of a second, with its year. -/
def monthOf (s : Int) : Int × Nat := ((Date.ofDay (dayOf s)).year, (Date.ofDay (dayOf s)).month)

/-- The year of a second. -/
def yearOf (s : Int) : Int := (Date.ofDay (dayOf s)).year

/-- `r` is the greatest multiple of `unit` seconds that is not later than `t`. -/
def Truncated (unit : Int) (t r : Xtime) : Prop :=
  IsGreatest {s | unit ∣ s ∧ s ≤ t.seconds} r.seconds ∧ r.nanoseconds = 0

variable {α : Type*}

/-- `r` is the first nanosecond of the period of `t`. -/
def Starts (period : Int → α) (t r : Xtime) : Prop :=
  IsLeast {s | period s = period t.seconds} r.seconds ∧ r.nanoseconds = 0

/-- `r` is the last nanosecond of the period of `t`. -/
def Ends (period : Int → α) (t r : Xtime) : Prop :=
  IsGreatest {s | period s = period t.seconds} r.seconds ∧ r.nanoseconds = 999999999

variable {period : Int → α} {t r : Xtime} {unit lo hi : Int}

/-- A period starts no later than the times in it. -/
theorem Starts.compare_le (h : Starts period t r) : xtimeCompare (some r) (some t) ≤ 0 := by
  have hle : r.seconds ≤ t.seconds := h.1.2 rfl
  have hnanos := h.2
  simp only [xtimeCompare]
  split
  · decide
  · rw [if_neg (by omega)]
    split
    · decide
    · rw [if_neg (by omega)]

/-- A period ends no earlier. -/
theorem Ends.compare_le (h : Ends period t r) (hns : t.nanoseconds < 10 ^ 9) :
    xtimeCompare (some t) (some r) ≤ 0 := by
  have hle : t.seconds ≤ r.seconds := h.1.2 rfl
  have hnanos := h.2
  simp only [xtimeCompare]
  split
  · decide
  · rw [if_neg (by omega)]
    split
    · decide
    · rw [if_neg (by omega)]

/-- `f` truncates `t` to `unit` seconds. -/
def Truncates (f : Option Xtime → Except XtimeError Xtime) (unit : Int) (t : Xtime) : Prop :=
  ∃ r, f (some t) = .ok r ∧ Truncated unit t r

/-- `f` goes to the start of the period of `t`, which is no later. -/
def GoesToStart (f : Option Xtime → Option (Except XtimeError Xtime)) (period : Int → α)
    (t : Xtime) : Prop :=
  ∃ r, f (some t) = some (.ok r) ∧ Starts period t r ∧ xtimeCompare (some r) (some t) ≤ 0

/-- `f` goes to the end of the period of `t`, which is no earlier. -/
def GoesToEnd (f : Option Xtime → Option (Except XtimeError Xtime)) (period : Int → α)
    (t : Xtime) : Prop :=
  ∃ r, f (some t) = some (.ok r) ∧ Ends period t r ∧
    (t.nanoseconds < 10 ^ 9 → xtimeCompare (some t) (some r) ≤ 0)

theorem goesToStart_iff {f : Option Xtime → Option (Except XtimeError Xtime)}
    (hf : f (some t) = some (.ok r)) : GoesToStart f period t ↔ Starts period t r := by
  simp only [GoesToStart, hf, Option.some.injEq, Except.ok.injEq, exists_eq_left']
  exact and_iff_left_of_imp Starts.compare_le

theorem goesToEnd_iff {f : Option Xtime → Option (Except XtimeError Xtime)}
    (hf : f (some t) = some (.ok r)) : GoesToEnd f period t ↔ Ends period t r := by
  simp only [GoesToEnd, hf, Option.some.injEq, Except.ok.injEq, exists_eq_left']
  exact and_iff_left_of_imp Ends.compare_le

/-- The first second of a period of the days from `lo` up to `hi`. -/
theorem starts_iff (h : ∀ s, period s = period t.seconds ↔ lo ≤ dayOf s ∧ dayOf s < hi) :
    Starts period t r ↔ r.seconds = lo * 86400 ∧ r.nanoseconds = 0 := by
  have hin := (h t.seconds).mp rfl
  have hleast : IsLeast {s | period s = period t.seconds} (lo * 86400) := by
    constructor
    · have hday : dayOf (lo * 86400) = lo := Int.mul_ediv_cancel _ (by decide)
      exact (h _).mpr (by omega)
    · intro s hs
      have hlow := ((h s).mp hs).1
      unfold dayOf at hlow
      omega
  constructor
  · rintro ⟨hr, hns⟩
    exact ⟨hr.unique hleast, hns⟩
  · rintro ⟨hr, hns⟩
    exact ⟨hr ▸ hleast, hns⟩

/-- The last second of a period of the days from `lo` up to `hi`. -/
theorem ends_iff (h : ∀ s, period s = period t.seconds ↔ lo ≤ dayOf s ∧ dayOf s < hi) :
    Ends period t r ↔ r.seconds = hi * 86400 - 1 ∧ r.nanoseconds = 999999999 := by
  have hin := (h t.seconds).mp rfl
  have hgreatest : IsGreatest {s | period s = period t.seconds} (hi * 86400 - 1) := by
    constructor
    · have hday : dayOf (hi * 86400 - 1) = hi - 1 := by
        unfold dayOf
        omega
      exact (h _).mpr (by omega)
    · intro s hs
      have hhigh := ((h s).mp hs).2
      unfold dayOf at hhigh
      omega
  constructor
  · rintro ⟨hr, hns⟩
    exact ⟨hr.unique hgreatest, hns⟩
  · rintro ⟨hr, hns⟩
    exact ⟨hr ▸ hgreatest, hns⟩

theorem dayOf_period (s : Int) :
    dayOf s = dayOf t.seconds ↔ dayOf t.seconds ≤ dayOf s ∧ dayOf s < dayOf t.seconds + 1 := by
  omega

theorem weekOf_period (s : Int) : weekOf s = weekOf t.seconds ↔
    7 * weekOf t.seconds - 3 ≤ dayOf s ∧ dayOf s < 7 * weekOf t.seconds + 4 := by
  unfold weekOf
  omega

theorem monthOf_period (s : Int) : monthOf s = monthOf t.seconds ↔
    dayOf t.seconds - (t.date.day - 1) ≤ dayOf s ∧ dayOf s < dayOf t.seconds - (t.date.day - 1) +
      (monthLengths t.date.year).getD t.date.month 0 := by
  have hnumber : t.date.dayNumber = dayOf t.seconds := dayNumber_ofDay _
  rw [← hnumber, ← month_eq_iff (valid_date t), monthOf, Prod.ext_iff]
  rfl

theorem yearOf_period (s : Int) : yearOf s = yearOf t.seconds ↔
    daysBeforeYear t.date.year ≤ dayOf s ∧ dayOf s < daysBeforeYear (t.date.year + 1) :=
  year_eq_iff (dayOf s) t.date.year

/-- A day of the year, from 0. -/
theorem yday_range (t : Xtime) : 0 ≤ dayOf t.seconds - daysBeforeYear t.date.year ∧
    dayOf t.seconds - daysBeforeYear t.date.year < yearLength t.date.year := by
  obtain ⟨hlow, hhigh⟩ := (yearOf_period t.seconds).mp rfl
  rw [daysBeforeYear_succ] at hhigh
  omega

/-! ## Truncation -/

/-- Division rounds down from the epoch on, and for multiples. -/
theorem truncated_iff (hunit : 0 < unit) : Truncated unit t r ↔
    r.seconds = t.seconds / unit * unit ∧ r.nanoseconds = 0 := by
  have hgreatest : IsGreatest {s | unit ∣ s ∧ s ≤ t.seconds} (t.seconds / unit * unit) := by
    constructor
    · exact ⟨Int.dvd_mul_left _ _, Int.ediv_mul_le _ (Int.ne_of_gt hunit)⟩
    · rintro s ⟨⟨k, rfl⟩, hle⟩
      rw [Int.mul_comm] at hle ⊢
      exact Int.mul_le_mul_of_nonneg_right ((Int.le_ediv_iff_mul_le hunit).mpr hle)
        (Int.le_of_lt hunit)
  constructor
  · rintro ⟨hr, hns⟩
    exact ⟨hr.unique hgreatest, hns⟩
  · rintro ⟨hr, hns⟩
    exact ⟨hr ▸ hgreatest, hns⟩

/-- Otherwise it rounds up. -/
theorem tdiv_cases (hunit : 0 < unit) (s : Int) :
    (0 ≤ s ∨ unit ∣ s) ∧ s.tdiv unit = s / unit ∨
      ¬ (0 ≤ s ∨ unit ∣ s) ∧ s.tdiv unit = s / unit + 1 := by
  have hdiv := Int.tdiv_eq_ediv (a := s) (b := unit)
  split at hdiv
  case isTrue h => exact .inl ⟨h, by rw [hdiv, Int.add_zero]⟩
  case isFalse h => exact .inr ⟨h, by rw [hdiv, Int.sign_eq_one_of_pos hunit]⟩

theorem truncateTo_exact_iff (hunit : 0 < unit) (t : Xtime) :
    Truncates (truncateTo unit) unit t ↔ 0 ≤ t.seconds ∨ unit ∣ t.seconds := by
  have hresult : Truncates (truncateTo unit) unit t ↔
      t.seconds.tdiv unit * unit = t.seconds / unit * unit := by
    simp only [Truncates, truncateTo, Except.ok.injEq, exists_eq_left', truncated_iff hunit,
      and_true]
  rw [hresult]
  rcases tdiv_cases hunit t.seconds with ⟨h, heq⟩ | ⟨h, heq⟩
  · exact ⟨fun _ => h, fun _ => by rw [heq]⟩
  · refine ⟨fun hsame => ?_, fun h' => absurd h' h⟩
    rw [heq, Int.add_mul, Int.one_mul] at hsame
    omega

/-! ## Days from midnight -/

/-- The time of `t` that is `n` days behind the midnight to which it is truncated. -/
def Xtime.daysBehind (t : Xtime) (n : Int) : Xtime :=
  { t with seconds := (t.seconds.tdiv 86400 + n) * 86400, nanoseconds := 0 }

/-- Days are counted from midnight, where truncation rounds down. -/
theorem starts_daysBehind_iff {n : Int}
    (h : ∀ s, period s = period t.seconds ↔ lo ≤ dayOf s ∧ dayOf s < hi)
    (hn : lo = dayOf t.seconds + n) :
    Starts period t (t.daysBehind n) ↔ 0 ≤ t.seconds ∨ 86400 ∣ t.seconds := by
  rw [starts_iff h, hn]
  simp only [Xtime.daysBehind, and_true, dayOf]
  rcases tdiv_cases (by decide : (0 : Int) < 86400) t.seconds with ⟨hgood, heq⟩ | ⟨hbad, heq⟩
  · exact ⟨fun _ => hgood, fun _ => by rw [heq]⟩
  · refine ⟨fun hsame => ?_, fun hgood => absurd hgood hbad⟩
    rw [heq] at hsame
    omega

theorem ends_daysBehind_iff {n : Int}
    (h : ∀ s, period s = period t.seconds ↔ lo ≤ dayOf s ∧ dayOf s < hi)
    (hn : hi = dayOf t.seconds + n + 1) :
    Ends period t { t with
        seconds := (t.seconds.tdiv 86400 + n + 1) * 86400 - 1, nanoseconds := 999999999 } ↔
      0 ≤ t.seconds ∨ 86400 ∣ t.seconds := by
  rw [ends_iff h, hn]
  simp only [and_true, dayOf]
  rcases tdiv_cases (by decide : (0 : Int) < 86400) t.seconds with ⟨hgood, heq⟩ | ⟨hbad, heq⟩
  · exact ⟨fun _ => hgood, fun _ => by rw [heq]⟩
  · refine ⟨fun hsame => ?_, fun hgood => absurd hgood hbad⟩
    rw [heq] at hsame
    omega

section range

variable (hsec : -2 ^ 55 ≤ t.seconds ∧ t.seconds ≤ 2 ^ 55)

include hsec

theorem year_range : -2 ^ 31 + 1900 ≤ t.date.year ∧ t.date.year < 2 ^ 31 := by
  obtain ⟨hlow, hhigh⟩ := (year_eq_iff (dayOf t.seconds) t.date.year).mp rfl
  unfold daysBeforeYear dayOf at hlow hhigh
  omega

theorem tdiv_range : -2 ^ 39 ≤ t.seconds.tdiv 86400 ∧ t.seconds.tdiv 86400 ≤ 2 ^ 39 := by
  rcases tdiv_cases (by decide : (0 : Int) < 86400) t.seconds with ⟨-, heq⟩ | ⟨-, heq⟩
  · rw [heq]
    omega
  · rw [heq]
    omega

theorem gmtimeDayR_eq : ∃ tm : TmDay, gmtimeDayR t.seconds = some tm ∧
    tm.year + 1900 = t.date.year ∧ tm.mon = t.date.month ∧ tm.mday = t.date.day ∧
    tm.wday = (dayOf t.seconds + 4) % 7 ∧
    tm.yday = dayOf t.seconds - daysBeforeYear t.date.year := by
  obtain ⟨hlow, hhigh⟩ := year_range hsec
  obtain ⟨tm, htm, hyear, hmon, hday⟩ := gmtimeR_date hlow hhigh
  refine ⟨_, by rw [gmtimeDayR, htm, Option.map_some], hyear, hmon, hday, rfl, ?_⟩
  rw [← hyear]
  rfl

theorem addDays_eq {n : Int} (hn : -400 ≤ n ∧ n ≤ 400) :
    xtimeAddDays (some { t with seconds := t.seconds.tdiv 86400 * 86400, nanoseconds := 0 }) n =
      some (.ok (t.daysBehind n)) := by
  have hday := tdiv_range hsec
  have hsum : t.seconds.tdiv 86400 * 86400 + n * 86400 = (t.seconds.tdiv 86400 + n) * 86400 := by
    omega
  simp only [xtimeAddDays, xtimeAddSeconds, Option.bind_eq_bind]
  rw [checked64_bind (by omega) (by omega), checked64_bind (by omega) (by omega), hsum]
  rfl

theorem daysFrom_eq {days : TmDay → Option Int} {tm : TmDay} {n : Int}
    (htm : gmtimeDayR t.seconds = some tm) (hdays : days tm = some n)
    (hn : -400 ≤ n ∧ n ≤ 400) : daysFrom days (some t) = some (.ok (t.daysBehind n)) := by
  have hadd := addDays_eq hsec hn
  delta daysFrom
  simp only [htm, hdays, Option.bind_eq_bind, Option.bind_some, xtimeTruncateToDay, truncateTo]
  exact hadd

/-- The last nanosecond of the day `n` days behind. -/
theorem toDayEnd_eq {n : Int} (hn : -400 ≤ n ∧ n ≤ 400) :
    toDayEnd (.ok (t.daysBehind n)) = some (.ok
      { t with seconds := (t.seconds.tdiv 86400 + n + 1) * 86400 - 1, nanoseconds := 999999999 }) := by
  have hday := tdiv_range hsec
  have hsum : (t.seconds.tdiv 86400 + n) * 86400 + 86399 =
      (t.seconds.tdiv 86400 + n + 1) * 86400 - 1 := by omega
  simp only [toDayEnd, Xtime.daysBehind, Option.bind_eq_bind]
  rw [checked64_bind (by omega) (by omega), hsum]

/-! ## The nine functions -/

/-- The week is asked for after truncation: it is the wrong one where a Sunday becomes a Monday. -/
theorem startOfWeek_exact_iff :
    GoesToStart xtimeStartOfWeek weekOf t ↔
      0 ≤ t.seconds ∨ 86400 ∣ t.seconds ∨ (dayOf t.seconds + 4) % 7 ≠ 0 := by
  have hcases := tdiv_cases (by decide : (0 : Int) < 86400) t.seconds
  have htrunc : -2 ^ 55 ≤ t.seconds.tdiv 86400 * 86400 ∧
      t.seconds.tdiv 86400 * 86400 ≤ 2 ^ 55 := by omega
  obtain ⟨tm, htm, -, -, -, hwday, -⟩ := gmtimeDayR_eq
    (t := { t with seconds := t.seconds.tdiv 86400 * 86400, nanoseconds := 0 }) htrunc
  have hday : dayOf (t.seconds.tdiv 86400 * 86400) = t.seconds.tdiv 86400 :=
    Int.mul_ediv_cancel _ (by decide)
  have hback : (if tm.wday = 0 then 6 else tm.wday - 1) = (t.seconds.tdiv 86400 + 3) % 7 := by
    rw [hwday, hday]
    split <;> omega
  have hresult : xtimeStartOfWeek (some t) =
      some (.ok (t.daysBehind (-((t.seconds.tdiv 86400 + 3) % 7)))) := by
    rw [← addDays_eq hsec (by omega), ← hback]
    simp only [xtimeStartOfWeek, xtimeTruncateToDay, truncateTo, htm]
  rw [goesToStart_iff hresult, starts_iff weekOf_period]
  simp only [Xtime.daysBehind, and_true, weekOf, dayOf]
  omega

theorem startOf_exact_iff {days : TmDay → Option Int} {tm : TmDay} {n : Int}
    (htm : gmtimeDayR t.seconds = some tm) (hdays : days tm = some n)
    (h : ∀ s, period s = period t.seconds ↔ lo ≤ dayOf s ∧ dayOf s < hi)
    (hlo : lo = dayOf t.seconds + n) (hn : -400 ≤ n ∧ n ≤ 400) :
    GoesToStart (daysFrom days) period t ↔ 0 ≤ t.seconds ∨ 86400 ∣ t.seconds := by
  rw [goesToStart_iff (daysFrom_eq hsec htm hdays hn)]
  exact starts_daysBehind_iff h hlo

theorem endOf_exact_iff {days : TmDay → Option Int} {tm : TmDay} {n : Int}
    (htm : gmtimeDayR t.seconds = some tm) (hdays : days tm = some n)
    (h : ∀ s, period s = period t.seconds ↔ lo ≤ dayOf s ∧ dayOf s < hi)
    (hhi : hi = dayOf t.seconds + n + 1) (hn : -400 ≤ n ∧ n ≤ 400) :
    GoesToEnd (fun t => do let r ← daysFrom days t; toDayEnd r) period t ↔
      0 ≤ t.seconds ∨ 86400 ∣ t.seconds := by
  have hresult := toDayEnd_eq hsec hn
  rw [← Option.bind_some (.ok (t.daysBehind n)) toDayEnd, ← daysFrom_eq hsec htm hdays hn]
    at hresult
  rw [goesToEnd_iff hresult]
  exact ends_daysBehind_iff h hhi

theorem startOfMonth_exact_iff :
    GoesToStart xtimeStartOfMonth monthOf t ↔ 0 ≤ t.seconds ∨ 86400 ∣ t.seconds := by
  obtain ⟨tm, htm, -, -, hmday, -, -⟩ := gmtimeDayR_eq hsec
  have hday := (valid_date t).day_le
  have hpos := (valid_date t).1
  exact startOf_exact_iff hsec htm rfl monthOf_period (by omega) (by omega)

theorem startOfYear_exact_iff :
    GoesToStart xtimeStartOfYear yearOf t ↔ 0 ≤ t.seconds ∨ 86400 ∣ t.seconds := by
  obtain ⟨tm, htm, -, -, -, -, hyday⟩ := gmtimeDayR_eq hsec
  obtain ⟨hlow, hhigh⟩ := yday_range t
  have hlength := yearLength_le t.date.year
  exact startOf_exact_iff hsec htm rfl yearOf_period (by omega) (by omega)

theorem endOfDay_exact_iff :
    GoesToEnd xtimeEndOfDay dayOf t ↔ 0 ≤ t.seconds ∨ 86400 ∣ t.seconds := by
  have hresult : xtimeEndOfDay (some t) = some (.ok { t with
      seconds := (t.seconds.tdiv 86400 + 0 + 1) * 86400 - 1, nanoseconds := 999999999 }) := by
    rw [← toDayEnd_eq hsec (by decide), Xtime.daysBehind, Int.add_zero]
    rfl
  rw [goesToEnd_iff hresult]
  exact ends_daysBehind_iff dayOf_period (by omega)

theorem endOfMonth_exact_iff :
    GoesToEnd xtimeEndOfMonth monthOf t ↔ 0 ≤ t.seconds ∨ 86400 ∣ t.seconds := by
  obtain ⟨tm, htm, hyear, hmon, hmday, -, -⟩ := gmtimeDayR_eq hsec
  have hrange := year_range hsec
  have hvalid := valid_date t
  have hlength := getD_monthLengths hvalid.2.1
  have hdays : (do
      let year ← checked32 (tm.year + 1900)
      some (daysInMonth year tm.mon - tm.mday)) =
        some (((monthLengths t.date.year).getD t.date.month 0 : Nat) - (t.date.day : Int)) := by
    rw [hyear, checked32_of_fits ⟨by omega, by omega⟩, hmon, hmday, hlength,
      ← daysInMonth_eq _ hvalid.2.1]
    rfl
  have hday := hvalid.eq_min
  have hmax := (valid_date t).day_le
  have hlen : (monthLengths t.date.year).getD t.date.month 0 ≤ 31 :=
    hlength ▸ monthLengths_le _ hvalid.2.1
  exact endOf_exact_iff hsec htm hdays monthOf_period (by omega) (by omega)

theorem endOfYear_exact_iff :
    GoesToEnd xtimeEndOfYear yearOf t ↔ 0 ≤ t.seconds ∨ 86400 ∣ t.seconds := by
  obtain ⟨tm, htm, hyear, -, -, -, hyday⟩ := gmtimeDayR_eq hsec
  have hrange := year_range hsec
  have hlength : (if isLeapYear t.date.year then 366 else 365) = yearLength t.date.year := by
    simp only [isLeapYear_iff, yearLength]
  have hdays : (do
      let year ← checked32 (tm.year + 1900)
      let totalDaysInYear := if isLeapYear year then 366 else 365
      some (totalDaysInYear - 1 - tm.yday)) =
        some (yearLength t.date.year - 1 - (dayOf t.seconds - daysBeforeYear t.date.year)) := by
    rw [hyear, checked32_of_fits ⟨by omega, by omega⟩, hyday, ← hlength]
    rfl
  obtain ⟨hlow, hhigh⟩ := yday_range t
  have hmax := yearLength_le t.date.year
  have hsucc := daysBeforeYear_succ t.date.year
  exact endOf_exact_iff hsec htm hdays yearOf_period (by omega) (by omega)

end range

/-- Which of the nine functions are right: those that truncate to a unit from 1970 on and for its
multiples, `xtime_start_of_week` unless it truncates a Sunday up to a Monday, and the others from
1970 on and for whole days. -/
theorem periods_exact_iff (t : Xtime) (hsec : -2 ^ 55 ≤ t.seconds ∧ t.seconds ≤ 2 ^ 55) :
    (Truncates xtimeTruncateToMinute 60 t ↔ 0 ≤ t.seconds ∨ 60 ∣ t.seconds) ∧
      (Truncates xtimeTruncateToHour 3600 t ↔ 0 ≤ t.seconds ∨ 3600 ∣ t.seconds) ∧
      (Truncates xtimeTruncateToDay 86400 t ↔ 0 ≤ t.seconds ∨ 86400 ∣ t.seconds) ∧
      (GoesToStart xtimeStartOfWeek weekOf t ↔
        0 ≤ t.seconds ∨ 86400 ∣ t.seconds ∨ (dayOf t.seconds + 4) % 7 ≠ 0) ∧
      (GoesToStart xtimeStartOfMonth monthOf t ↔ 0 ≤ t.seconds ∨ 86400 ∣ t.seconds) ∧
      (GoesToStart xtimeStartOfYear yearOf t ↔ 0 ≤ t.seconds ∨ 86400 ∣ t.seconds) ∧
      (GoesToEnd xtimeEndOfDay dayOf t ↔ 0 ≤ t.seconds ∨ 86400 ∣ t.seconds) ∧
      (GoesToEnd xtimeEndOfMonth monthOf t ↔ 0 ≤ t.seconds ∨ 86400 ∣ t.seconds) ∧
      (GoesToEnd xtimeEndOfYear yearOf t ↔ 0 ≤ t.seconds ∨ 86400 ∣ t.seconds) :=
  ⟨truncateTo_exact_iff (by decide) t, truncateTo_exact_iff (by decide) t,
    truncateTo_exact_iff (by decide) t, startOfWeek_exact_iff hsec, startOfMonth_exact_iff hsec,
    startOfYear_exact_iff hsec, endOfDay_exact_iff hsec, endOfMonth_exact_iff hsec,
    endOfYear_exact_iff hsec⟩

/-- A leap day. -/
theorem periods_exact_iff_leapDay :
    GoesToEnd xtimeEndOfMonth monthOf ⟨1709164800, 5, 0, false⟩ :=
  (periods_exact_iff _ (by decide)).2.2.2.2.2.2.2.1.mpr (.inl (by decide))

/-- The second before the epoch is truncated to the minute behind it. -/
theorem second_before_epoch :
    ¬ Truncates xtimeTruncateToMinute 60 ⟨-1, 0, 0, false⟩ := by
  rintro ⟨r, hr, hgreatest, -⟩
  cases hr
  exact absurd hgreatest.1.2 (by decide)

end Solidc.Time
