import Mathlib.Data.Int.Notation
import Mathlib.Tactic.Common
import Mathlib.Algebra.Order.Group.Int
import Mathlib.Algebra.BigOperators.Group.List.Basic
import Mathlib.Algebra.Order.BigOperators.Group.List
import Mathlib.Algebra.Order.Group.Nat
import Mathlib.Algebra.Ring.Nat

/-! # The proleptic Gregorian calendar

Days are numbered from 1970-01-01, which is day 0; months from 0 and days of a month from 1, as
in `struct tm`.

* `daysBeforeYear`, `daysBeforeMonth`, `Date.dayNumber` — from a date to its number;
* `Date.ofDay` — the date of a day, with `dayNumber_ofDay` and `valid_ofDay`;
* `Date.addMonths`, `Date.addYears` — a date moved, at most to the last day of its month;
* `dayNumber_lt_iff`, `ofDay_dayNumber` — dates are numbered in their order, each once;
* `year_eq_iff`, `month_eq_iff` — the days of a year and those of a month;
* `day_ofDay_succ` — the day of the month goes up by one, or back to one from 28 at least.
-/

namespace Gregorian

def isLeap (year : Int) : Prop := year % 4 = 0 ∧ year % 100 ≠ 0 ∨ year % 400 = 0

instance (year : Int) : Decidable (isLeap year) := inferInstanceAs (Decidable (_ ∨ _))

def yearLength (year : Int) : Int := if isLeap year then 366 else 365

theorem yearLength_le (year : Int) : yearLength year ≤ 366 := by
  unfold yearLength
  split <;> decide

/-- The lengths of the months of a year. -/
def monthLengths (year : Int) : List Nat :=
  [31, if isLeap year then 29 else 28, 31, 30, 31, 30, 31, 31, 30, 31, 30, 31]

/-- The number of the first day of a year: a leap day every 4 years, but not every 100 years, but
every 400 years. -/
def daysBeforeYear (year : Int) : Int :=
  365 * (year - 1970) + ((year - 1) / 4 - (year - 1) / 100 + (year - 1) / 400) - 477

def daysBeforeMonth (year : Int) (month : Nat) : Nat := ((monthLengths year).take month).sum

structure Date where
  year : Int
  month : Nat
  day : Nat

/-- The date exists. -/
def Date.Valid (d : Date) : Prop :=
  1 ≤ d.day ∧ ∃ h : d.month < (monthLengths d.year).length, d.day ≤ (monthLengths d.year)[d.month]

instance (d : Date) : Decidable d.Valid := inferInstanceAs (Decidable (_ ∧ _))

/-- The number of a date. -/
def Date.dayNumber (d : Date) : Int :=
  daysBeforeYear d.year + daysBeforeMonth d.year d.month + (d.day - 1)

/-- The year of a day: an estimate by the mean length of a year is wrong by one at most. -/
def yearOfDay (n : Int) : Int :=
  let guess := 1970 + n * 400 / 146097
  if n < daysBeforeYear guess then guess - 1
  else if daysBeforeYear (guess + 1) ≤ n then guess + 1
  else guess

/-- The month of a day of the year and the day of that month, both from 0. -/
def monthOfDay : List Nat → Nat → Nat × Nat
  | [], n => (0, n)
  | l :: ls, n => if n < l then (0, n) else ((monthOfDay ls (n - l)).1 + 1, (monthOfDay ls (n - l)).2)

/-- The date of a day. -/
def Date.ofDay (n : Int) : Date :=
  let year := yearOfDay n
  let (month, day) := monthOfDay (monthLengths year) (n - daysBeforeYear year).toNat
  ⟨year, month, day + 1⟩

/-- The date `n` months later. A day that its month does not have becomes the last one. -/
def Date.addMonths (d : Date) (n : Int) : Date :=
  let year := (d.year * 12 + d.month + n) / 12
  let month := ((d.year * 12 + d.month + n) % 12).toNat
  ⟨year, month, min d.day ((monthLengths year).getD month 0)⟩

/-- The date `n` years later. -/
def Date.addYears (d : Date) (n : Int) : Date :=
  ⟨d.year + n, d.month, min d.day ((monthLengths (d.year + n)).getD d.month 0)⟩

theorem daysBeforeYear_epoch : daysBeforeYear 1970 = 0 := by decide

theorem daysBeforeYear_succ (year : Int) :
    daysBeforeYear (year + 1) = daysBeforeYear year + yearLength year := by
  by_cases hleap : isLeap year
  · rw [yearLength, if_pos hleap]
    unfold isLeap at hleap
    unfold daysBeforeYear
    omega
  · rw [yearLength, if_neg hleap]
    unfold isLeap at hleap
    unfold daysBeforeYear
    omega

theorem sum_monthLengths (year : Int) : ((monthLengths year).sum : Int) = yearLength year := by
  unfold monthLengths yearLength
  split <;> rfl

theorem yearOfDay_spec (n : Int) :
    daysBeforeYear (yearOfDay n) ≤ n ∧ n < daysBeforeYear (yearOfDay n + 1) := by
  unfold yearOfDay
  dsimp only
  have hlow : daysBeforeYear (1970 + n * 400 / 146097 - 1) ≤ n := by
    unfold daysBeforeYear
    omega
  have hhigh : n < daysBeforeYear (1970 + n * 400 / 146097 + 1 + 1) := by
    unfold daysBeforeYear
    omega
  split
  case isTrue h => exact ⟨hlow, by rwa [Int.sub_add_cancel]⟩
  case isFalse h =>
    split
    case isTrue h' => exact ⟨h', hhigh⟩
    case isFalse h' => exact ⟨Int.not_lt.mp h, Int.not_le.mp h'⟩

theorem monthOfDay_spec {ls : List Nat} {n : Nat} (h : n < ls.sum) :
    (ls.take (monthOfDay ls n).1).sum + (monthOfDay ls n).2 = n ∧
      ∃ hm : (monthOfDay ls n).1 < ls.length, (monthOfDay ls n).2 < ls[(monthOfDay ls n).1] := by
  induction ls generalizing n with
  | nil => simp at h
  | cons l ls ih =>
    rw [List.sum_cons] at h
    by_cases hn : n < l
    · have hfirst : monthOfDay (l :: ls) n = (0, n) := if_pos hn
      rw [hfirst]
      exact ⟨by simp, Nat.succ_pos _, hn⟩
    · obtain ⟨hsum, hm, hlt⟩ := ih (n := n - l) (by omega)
      have hnext : monthOfDay (l :: ls) n =
          ((monthOfDay ls (n - l)).1 + 1, (monthOfDay ls (n - l)).2) := if_neg hn
      rw [hnext]
      refine ⟨?_, Nat.succ_lt_succ hm, hlt⟩
      simp only [List.take_succ_cons, List.sum_cons]
      omega

/-- The day of the year. -/
theorem dayOfYear_spec (n : Int) :
    ((n - daysBeforeYear (yearOfDay n)).toNat : Int) = n - daysBeforeYear (yearOfDay n) ∧
      (n - daysBeforeYear (yearOfDay n)).toNat < (monthLengths (yearOfDay n)).sum := by
  obtain ⟨hlow, hhigh⟩ := yearOfDay_spec n
  rw [daysBeforeYear_succ, ← sum_monthLengths] at hhigh
  omega

theorem valid_ofDay (n : Int) : (Date.ofDay n).Valid := by
  obtain ⟨-, hm, hlt⟩ := monthOfDay_spec (dayOfYear_spec n).2
  exact ⟨Nat.succ_pos _, hm, hlt⟩

/-- The date of a day has the number of that day. -/
theorem dayNumber_ofDay (n : Int) : (Date.ofDay n).dayNumber = n := by
  obtain ⟨hday, hlt⟩ := dayOfYear_spec n
  obtain ⟨hsum, -⟩ := monthOfDay_spec hlt
  simp only [Date.dayNumber, Date.ofDay, daysBeforeMonth]
  omega

theorem Date.Valid.month_lt {d : Date} (h : d.Valid) : d.month < 12 := h.2.1

theorem monthLengths_le (year : Int) {month : Nat} (h : month < (monthLengths year).length) :
    (monthLengths year)[month] ≤ 31 := by
  have hall : ∀ l ∈ monthLengths year, l ≤ 31 := by
    unfold monthLengths
    split <;> decide
  exact hall _ (List.getElem_mem h)

theorem Date.Valid.day_le {d : Date} (h : d.Valid) : d.day ≤ 31 := by
  obtain ⟨-, hm, hle⟩ := h
  exact hle.trans (monthLengths_le d.year hm)

theorem getD_monthLengths {year : Int} {month : Nat} (h : month < (monthLengths year).length) :
    (monthLengths year).getD month 0 = (monthLengths year)[month] := by
  rw [List.getD_eq_getElem?_getD, List.getElem?_eq_getElem h, Option.getD_some]

theorem Date.Valid.eq_min {d : Date} (h : d.Valid) :
    d.day = min d.day ((monthLengths d.year).getD d.month 0) := by
  obtain ⟨-, hm, hle⟩ := h
  rw [getD_monthLengths hm]
  exact (Nat.min_eq_left hle).symm

/-! ## Moving dates -/

theorem monthLengths_pos (year : Int) {month : Nat} (h : month < (monthLengths year).length) :
    28 ≤ (monthLengths year)[month] := by
  have hall : ∀ l ∈ monthLengths year, 28 ≤ l := by
    unfold monthLengths
    split <;> decide
  exact hall _ (List.getElem_mem h)

/-- A day that is cut to the length of its month exists. -/
theorem valid_min {year : Int} {month day : Nat} (hmonth : month < 12) (hday : 1 ≤ day) :
    Date.Valid ⟨year, month, min day ((monthLengths year).getD month 0)⟩ := by
  have hm : month < (monthLengths year).length := hmonth
  have hlen := monthLengths_pos year hm
  rw [Date.Valid, getD_monthLengths hm]
  exact ⟨Nat.le_min.mpr ⟨hday, by omega⟩, hm, Nat.min_le_right _ _⟩

theorem Date.Valid.addMonths {d : Date} (h : d.Valid) (n : Int) : (d.addMonths n).Valid :=
  valid_min (by omega) h.1

theorem Date.Valid.addYears {d : Date} (h : d.Valid) (n : Int) : (d.addYears n).Valid :=
  valid_min h.month_lt h.1

/-- Only February is longer in some years. -/
theorem monthLengths_eq {month : Nat} (h : month ≠ 1) (year year' : Int) :
    (monthLengths year).getD month 0 = (monthLengths year').getD month 0 := by
  unfold monthLengths
  match month, h with
  | 0, _ => rfl
  | _ + 2, _ => rfl

theorem february_eq (year : Int) :
    (monthLengths year).getD 1 0 = if isLeap year then 29 else 28 := rfl

/-- Twelve months are a year. -/
theorem addMonths_twelve {d : Date} (h : d.month < 12) (n : Int) :
    d.addMonths (12 * n) = d.addYears n := by
  have hyear : (d.year * 12 + d.month + 12 * n) / 12 = d.year + n := by omega
  have hmonth : ((d.year * 12 + d.month + 12 * n) % 12).toNat = d.month := by omega
  rw [Date.addMonths, hyear, hmonth, Date.addYears]

/-- The years before the epoch begin before it. -/
theorem daysBeforeYear_neg {year : Int} (h : year < 1970) : daysBeforeYear year < 0 := by
  unfold daysBeforeYear
  omega

/-! ## The order of dates -/

/-- Year, month and day are compared in this order. -/
def Date.Before (d d' : Date) : Prop :=
  d.year < d'.year ∨ d.year = d'.year ∧
    (d.month < d'.month ∨ d.month = d'.month ∧ d.day < d'.day)

/-- Numbers that grow along a total order decide it. -/
theorem growing_lt_iff {α : Type} {f : α → Int} {before : α → α → Prop} {x y : α}
    (htotal : before x y ∨ x = y ∨ before y x) (h : before x y → f x < f y)
    (h' : before y x → f y < f x) : f x < f y ↔ before x y := by
  refine ⟨fun hlt => ?_, h⟩
  rcases htotal with hbefore | rfl | hafter
  · exact hbefore
  · exact absurd hlt (Int.lt_irrefl _)
  · exact absurd (h' hafter) (Int.not_lt.mpr (Int.le_of_lt hlt))

/-- And no two of them are the same. -/
theorem growing_eq_iff {α : Type} {f : α → Int} {before : α → α → Prop} {x y : α}
    (htotal : before x y ∨ x = y ∨ before y x) (h : before x y → f x < f y)
    (h' : before y x → f y < f x) : f x = f y ↔ x = y := by
  refine ⟨fun heq => ?_, fun heq => by rw [heq]⟩
  rcases htotal with hbefore | hsame | hafter
  · exact absurd heq (Int.ne_of_lt (h hbefore))
  · exact hsame
  · exact absurd heq (Int.ne_of_gt (h' hafter))

theorem before_or_eq (d d' : Date) : d.Before d' ∨ d = d' ∨ d'.Before d := by
  rcases d with ⟨y, m, n⟩
  rcases d' with ⟨y', m', n'⟩
  simp only [Date.Before, Date.mk.injEq]
  omega

theorem daysBeforeYear_le {year year' : Int} (h : year ≤ year') :
    daysBeforeYear year ≤ daysBeforeYear year' := by
  unfold daysBeforeYear
  omega

theorem daysBeforeYear_inj {year year' : Int} (h : daysBeforeYear year = daysBeforeYear year') :
    year = year' := by
  unfold daysBeforeYear at h
  omega

theorem daysBeforeMonth_le (year : Int) {month month' : Nat} (h : month ≤ month') :
    daysBeforeMonth year month ≤ daysBeforeMonth year month' :=
  List.Sublist.sum_le_sum (List.take_sublist_take_left h) fun _ _ => Nat.zero_le _

theorem daysBeforeMonth_succ {year : Int} {month : Nat} (h : month < (monthLengths year).length) :
    daysBeforeMonth year (month + 1) = daysBeforeMonth year month + (monthLengths year)[month] := by
  rw [daysBeforeMonth, List.sum_take_succ _ _ h, daysBeforeMonth]

/-- A date is one of the days of its month, and that one of its year. -/
theorem Date.Valid.dayNumber_bounds {d : Date} (h : d.Valid) :
    daysBeforeYear d.year + daysBeforeMonth d.year d.month ≤ d.dayNumber ∧
      d.dayNumber < daysBeforeYear d.year + daysBeforeMonth d.year (d.month + 1) ∧
      (daysBeforeMonth d.year (d.month + 1) : Int) ≤ yearLength d.year := by
  obtain ⟨hday, hm, hle⟩ := h
  have hsucc := daysBeforeMonth_succ hm
  have hall : daysBeforeMonth d.year (monthLengths d.year).length = (monthLengths d.year).sum := by
    rw [daysBeforeMonth, List.take_length]
  have hnext : d.month + 1 ≤ (monthLengths d.year).length := hm
  have hyear := daysBeforeMonth_le d.year hnext
  have hsum := sum_monthLengths d.year
  unfold Date.dayNumber
  rw [hall] at hyear
  omega

theorem Date.Before.dayNumber_lt {d d' : Date} (hlt : d.Before d') (h : d.Valid) (h' : d'.Valid) :
    d.dayNumber < d'.dayNumber := by
  obtain ⟨-, hhigh, hmonth⟩ := h.dayNumber_bounds
  obtain ⟨hlow, -, -⟩ := h'.dayNumber_bounds
  rcases hlt with hyear | ⟨hyear, hmon | ⟨hmon, hday⟩⟩
  · have hle := daysBeforeYear_le (Int.add_one_le_of_lt hyear)
    rw [daysBeforeYear_succ] at hle
    omega
  · have hnext : d.month + 1 ≤ d'.month := hmon
    have hle := daysBeforeMonth_le d.year hnext
    rw [← hyear] at hlow
    omega
  · unfold Date.dayNumber
    rw [hyear, hmon]
    omega

/-- Dates are numbered in their order. -/
theorem dayNumber_lt_iff {d d' : Date} (h : d.Valid) (h' : d'.Valid) :
    d.dayNumber < d'.dayNumber ↔ d.Before d' := by
  have hgrows : d.Before d' → d.dayNumber < d'.dayNumber := fun hlt => hlt.dayNumber_lt h h'
  have hgrows' : d'.Before d → d'.dayNumber < d.dayNumber := fun hgt => hgt.dayNumber_lt h' h
  exact growing_lt_iff (before_or_eq d d') hgrows hgrows'

theorem Date.Valid.dayNumber_inj {d d' : Date} (h : d.Valid) (h' : d'.Valid)
    (heq : d.dayNumber = d'.dayNumber) : d = d' := by
  have hgrows : d.Before d' → d.dayNumber < d'.dayNumber := fun hlt => hlt.dayNumber_lt h h'
  have hgrows' : d'.Before d → d'.dayNumber < d.dayNumber := fun hgt => hgt.dayNumber_lt h' h
  exact (growing_eq_iff (before_or_eq d d') hgrows hgrows').mp heq

theorem ofDay_dayNumber {d : Date} (h : d.Valid) : Date.ofDay d.dayNumber = d :=
  (valid_ofDay _).dayNumber_inj h (dayNumber_ofDay _)

/-- The days of a year. -/
theorem year_eq_iff (n year : Int) :
    (Date.ofDay n).year = year ↔ daysBeforeYear year ≤ n ∧ n < daysBeforeYear (year + 1) := by
  obtain ⟨hlow, hhigh⟩ := yearOfDay_spec n
  change yearOfDay n = year ↔ _
  constructor
  · rintro rfl
    exact ⟨hlow, hhigh⟩
  · rintro ⟨hlow', hhigh'⟩
    rcases Int.lt_trichotomy (yearOfDay n) year with hlt | heq | hgt
    · have hle := daysBeforeYear_le (Int.add_one_le_of_lt hlt)
      omega
    · exact heq
    · have hle := daysBeforeYear_le (Int.add_one_le_of_lt hgt)
      omega

/-- The days of the month of a date. -/
theorem month_eq_iff {d : Date} (h : d.Valid) (n : Int) :
    (Date.ofDay n).year = d.year ∧ (Date.ofDay n).month = d.month ↔
      d.dayNumber - (d.day - 1) ≤ n ∧
        n < d.dayNumber - (d.day - 1) + (monthLengths d.year).getD d.month 0 := by
  have hm := h.2.1
  have hfirst : d.dayNumber - (d.day - 1) =
      daysBeforeYear d.year + daysBeforeMonth d.year d.month := by
    unfold Date.dayNumber
    omega
  rw [hfirst, getD_monthLengths hm]
  constructor
  · rintro ⟨hyear, hmonth⟩
    obtain ⟨hlow, hhigh, -⟩ := (valid_ofDay n).dayNumber_bounds
    rw [dayNumber_ofDay, hyear, hmonth] at hlow hhigh
    rw [daysBeforeMonth_succ hm] at hhigh
    omega
  · rintro ⟨hlow, hhigh⟩
    -- the day has a date in this month, and only one date
    have hday : (((n - (daysBeforeYear d.year + daysBeforeMonth d.year d.month)).toNat + 1 : Nat) :
        Int) - 1 = n - (daysBeforeYear d.year + daysBeforeMonth d.year d.month) := by omega
    have hvalid : Date.Valid ⟨d.year, d.month,
        (n - (daysBeforeYear d.year + daysBeforeMonth d.year d.month)).toNat + 1⟩ :=
      ⟨Nat.succ_pos _, hm, by dsimp only; omega⟩
    have hnumber : Date.dayNumber ⟨d.year, d.month,
        (n - (daysBeforeYear d.year + daysBeforeMonth d.year d.month)).toNat + 1⟩ = n := by
      simp only [Date.dayNumber]
      omega
    have hdate := ofDay_dayNumber hvalid
    rw [hnumber] at hdate
    rw [hdate]
    exact ⟨rfl, rfl⟩

/-! ## The next day -/

/-- The day after a date is the next one of its month, or the first one of the next month. -/
theorem day_ofDay_succ (n : Int) :
    (Date.ofDay (n + 1)).day = (Date.ofDay n).day + 1 ∨
      (Date.ofDay (n + 1)).day = 1 ∧ 28 ≤ (Date.ofDay n).day := by
  obtain ⟨hday, hm, hle⟩ := valid_ofDay n
  have hn := dayNumber_ofDay n
  have hlen := monthLengths_pos _ hm
  generalize Date.ofDay n = d at hday hm hle hn hlen ⊢
  rw [← hn]
  have hsucc := daysBeforeMonth_succ hm
  by_cases hlast : d.day < (monthLengths d.year)[d.month]
  · -- the month has one more day
    left
    have hvalid : Date.Valid ⟨d.year, d.month, d.day + 1⟩ := ⟨Nat.succ_pos _, hm, hlast⟩
    have hnumber : Date.dayNumber ⟨d.year, d.month, d.day + 1⟩ = d.dayNumber + 1 := by
      simp only [Date.dayNumber]
      omega
    rw [← hnumber, ofDay_dayNumber hvalid]
  right
  by_cases hmonth : d.month + 1 < (monthLengths d.year).length
  · -- the last day of a month that is not the last of its year
    have hpos := monthLengths_pos d.year hmonth
    have hvalid : Date.Valid ⟨d.year, d.month + 1, 1⟩ := ⟨le_rfl, hmonth, by dsimp only; omega⟩
    have hnumber : Date.dayNumber ⟨d.year, d.month + 1, 1⟩ = d.dayNumber + 1 := by
      simp only [Date.dayNumber]
      omega
    rw [← hnumber, ofDay_dayNumber hvalid]
    exact ⟨rfl, by omega⟩
  · -- the last day of a year
    have hyear : d.month + 1 = (monthLengths d.year).length :=
      le_antisymm hm (Nat.le_of_not_lt hmonth)
    have hall : daysBeforeMonth d.year (d.month + 1) = (monthLengths d.year).sum := by
      rw [daysBeforeMonth, hyear, List.take_length]
    have hsum := sum_monthLengths d.year
    have hvalid : Date.Valid ⟨d.year + 1, 0, 1⟩ := by
      have hpos := monthLengths_pos (d.year + 1) (Nat.succ_pos 11)
      exact ⟨le_rfl, Nat.succ_pos 11, by dsimp only; omega⟩
    have hnumber : Date.dayNumber ⟨d.year + 1, 0, 1⟩ = d.dayNumber + 1 := by
      simp only [Date.dayNumber, daysBeforeYear_succ, daysBeforeMonth, List.take_zero,
        List.sum_nil] at hall hsucc ⊢
      omega
    rw [← hnumber, ofDay_dayNumber hvalid]
    exact ⟨rfl, by omega⟩

end Gregorian
