import Solidc.Time.Xtime
import Solidc.Lib.Signed

/-! # The offset of the local zone

`get_local_tz_offset` compares the fields of a moment in UTC with those of the local zone, and
`xtime_now` keeps the result with the time. The month and the year are not compared: a large
difference of the days of the month can only come from the end of a month. `localtime_r` is a
parameter, NULL where it has no fields to give.

* `day_carry` — what becomes of the difference of the days of the month;
* `getLocalTzOffset_eq` — the offset of the zone, whatever the shift crosses;
* `wallClock_xtimeNow` — so the present time is shown as the local one.
-/

namespace Solidc.Time

open CLib Gregorian

/-! ## The code -/

variable (localtimeR : Int → Option Tm)

/-- "Adjust for day boundaries". -/
def adjustDays (dayDiff : Int) : Int :=
  if dayDiff > 1 then -1 else if dayDiff < -1 then 1 else dayDiff

/-- `get_local_tz_offset`; the fields are far from the limits of `int`. -/
def getLocalTzOffset (timestamp : Int) : Int :=
  match gmtimeR timestamp with
  | none => 0
  | some utcTm =>
    match localtimeR timestamp with
    | none => 0
    | some localTm =>
      let dayDiff := adjustDays (localTm.mday - utcTm.mday)
      let hourDiff := localTm.hour - utcTm.hour
      let minDiff := localTm.min - utcTm.min
      let totalMinutes := dayDiff * 24 * 60 + hourDiff * 60 + minDiff
      if totalMinutes.natAbs > maxTzOffset then 0 else toInt16 totalMinutes

/-- `xtime_now`, given what `clock_gettime` reads. -/
def xtimeNow (clock : Option (Int × Nat)) (t : Option Xtime) : Except XtimeError Xtime :=
  match t with
  | none => .error .invalidArg
  | some _ =>
    match clock with
    | none => .error .system
    | some (seconds, nanoseconds) =>
      .ok ⟨seconds, nanoseconds, getLocalTzOffset localtimeR seconds, true⟩

/-- `xtime_utc_now`. -/
def xtimeUtcNow (clock : Option (Int × Nat)) (t : Option Xtime) : Except XtimeError Xtime :=
  match xtimeNow localtimeR clock t with
  | .error e => .error e
  | .ok t => .ok { t with tzOffset := 0, hasTz := false }

/-! ## The fields of a moment -/

/-- The calendar year of a moment is one of `struct tm`. -/
def YearFits (timestamp : Int) : Prop :=
  -(2 ^ 31) ≤ (Date.ofDay (timestamp / 86400)).year - 1900 ∧
    (Date.ofDay (timestamp / 86400)).year - 1900 < 2 ^ 31

instance (timestamp : Int) : Decidable (YearFits timestamp) := inferInstanceAs (Decidable (_ ∧ _))

/-- The calendar fields of a moment. -/
def calendarTm (timestamp : Int) : Tm where
  sec := timestamp % 60
  min := timestamp / 60 % 60
  hour := timestamp / 3600 % 24
  mday := (Date.ofDay (timestamp / 86400)).day
  mon := (Date.ofDay (timestamp / 86400)).month
  year := (Date.ofDay (timestamp / 86400)).year - 1900

theorem gmtimeR_fits {timestamp : Int} (h : YearFits timestamp) :
    gmtimeR timestamp = some (calendarTm timestamp) := if_pos h

/-- The fields below the day count the minutes. -/
theorem minutes_eq (timestamp : Int) :
    timestamp / 60 = timestamp / 86400 * 24 * 60 + (calendarTm timestamp).hour * 60 +
      (calendarTm timestamp).min := by
  simp only [calendarTm]
  omega

/-- Moments on the same day or on two days in a row: from the days of the month comes the
difference of the days. -/
theorem day_carry {n m : Int} (h : n = m ∨ n = m + 1 ∨ m = n + 1) :
    adjustDays ((Date.ofDay n).day - (Date.ofDay m).day) = n - m := by
  unfold adjustDays
  rcases h with rfl | rfl | rfl
  · rw [if_neg (by omega), if_neg (by omega)]
    omega
  · -- forwards: one day more, or from the end of a month to the first
    rcases day_ofDay_succ m with hnext | ⟨hfirst, hlast⟩
    · rw [hnext, if_neg (by omega), if_neg (by omega)]
      omega
    · rw [hfirst, if_neg (by omega), if_pos (by omega)]
      omega
  · -- backwards: one day less, or from the first to the end of a month
    rcases day_ofDay_succ n with hnext | ⟨hfirst, hlast⟩
    · rw [hnext, if_neg (by omega), if_neg (by omega)]
      omega
    · rw [hfirst, if_pos (by omega)]
      omega

/-! ## The offset -/

variable {localtimeR} {timestamp offset : Int}

/-- A shift of less than a day stays on the day or goes to the next or the last one. -/
theorem shifted_day (h : offset.natAbs ≤ maxTzOffset) :
    (timestamp + 60 * offset) / 86400 = timestamp / 86400 ∨
      (timestamp + 60 * offset) / 86400 = timestamp / 86400 + 1 ∨
      timestamp / 86400 = (timestamp + 60 * offset) / 86400 + 1 := by
  unfold maxTzOffset at h
  omega

/-- The differences of the fields add up to the shift. -/
theorem total_minutes (h : offset.natAbs ≤ maxTzOffset) :
    adjustDays ((calendarTm (timestamp + 60 * offset)).mday - (calendarTm timestamp).mday) * 24 *
        60 +
      ((calendarTm (timestamp + 60 * offset)).hour - (calendarTm timestamp).hour) * 60 +
      ((calendarTm (timestamp + 60 * offset)).min - (calendarTm timestamp).min) = offset := by
  have hcarry : adjustDays ((calendarTm (timestamp + 60 * offset)).mday -
      (calendarTm timestamp).mday) = (timestamp + 60 * offset) / 86400 - timestamp / 86400 :=
    day_carry (shifted_day h)
  have hlocal := minutes_eq (timestamp + 60 * offset)
  have hutc := minutes_eq timestamp
  have hshift : (timestamp + 60 * offset) / 60 = timestamp / 60 + offset := by omega
  rw [hcarry]
  omega

/-- The check and the conversion keep it. -/
theorem checked_offset (h : offset.natAbs ≤ maxTzOffset) :
    (if offset.natAbs > maxTzOffset then 0 else toInt16 offset) = offset := by
  rw [if_neg (not_lt.mpr h)]
  unfold maxTzOffset at h
  exact toInt16_of_fits (by omega) (by omega)

/-- With the fields of both zones, only the sum of the differences is left to be checked. -/
theorem getLocalTzOffset_tm {utcTm localTm : Tm} {total : Int}
    (hutc : gmtimeR timestamp = some utcTm) (hlocal : localtimeR timestamp = some localTm)
    (htotal : adjustDays (localTm.mday - utcTm.mday) * 24 * 60 +
      (localTm.hour - utcTm.hour) * 60 + (localTm.min - utcTm.min) = total) :
    getLocalTzOffset localtimeR timestamp =
      if total.natAbs > maxTzOffset then 0 else toInt16 total := by
  delta getLocalTzOffset
  rw [hutc, hlocal, ← htotal]

/-- Where the local fields are those of the moment shifted by an offset of whole minutes, the
offset is found, also when the shift crosses the end of a day, a month or a year. -/
theorem getLocalTzOffset_eq (hyear : YearFits timestamp)
    (hlocal : localtimeR timestamp = some (calendarTm (timestamp + 60 * offset)))
    (hoffset : offset.natAbs ≤ maxTzOffset) : getLocalTzOffset localtimeR timestamp = offset := by
  rw [getLocalTzOffset_tm (gmtimeR_fits hyear) hlocal (total_minutes hoffset)]
  exact checked_offset hoffset

/-- From the last evening of the leap February of 2000 to the first of March, and back over the
turn of the year 2000, each by fourteen hours and a quarter. -/
theorem getLocalTzOffset_crossing :
    getLocalTzOffset (fun t => gmtimeR (t + 60 * 855)) 951861600 = 855 ∧
      getLocalTzOffset (fun t => gmtimeR (t + 60 * -855)) 946692000 = -855 :=
  ⟨getLocalTzOffset_eq (by decide) (gmtimeR_fits (by decide)) (by decide),
    getLocalTzOffset_eq (by decide) (gmtimeR_fits (by decide)) (by decide)⟩

/-- The present time is shown with the local fields. -/
theorem wallClock_xtimeNow {nanoseconds : Nat} {old : Xtime} (hyear : YearFits timestamp)
    (hlocal : localtimeR timestamp = some (calendarTm (timestamp + 60 * offset)))
    (hlocalYear : YearFits (timestamp + 60 * offset)) (hoffset : offset.natAbs ≤ maxTzOffset) :
    ∃ t, xtimeNow localtimeR (some (timestamp, nanoseconds)) (some old) = .ok t ∧
      t.seconds = timestamp ∧ gmtimeR (wallClock t) = localtimeR timestamp := by
  refine ⟨⟨timestamp, nanoseconds, offset, true⟩, ?_, rfl, ?_⟩
  · have hfound := getLocalTzOffset_tm (gmtimeR_fits hyear) hlocal (total_minutes hoffset)
    rw [checked_offset hoffset] at hfound
    dsimp only [xtimeNow]
    rw [hfound]
  · have hclock : wallClock ⟨timestamp, nanoseconds, offset, true⟩ = timestamp + 60 * offset := by
      unfold wallClock
      dsimp only
      split
      · omega
      · rename_i hzero
        have hnone : offset = 0 := by simpa using hzero
        omega
    rw [hclock, hlocal, gmtimeR_fits hlocalYear]

/-- `xtime_utc_now` gives the same moment, shown in UTC. -/
theorem wallClock_xtimeUtcNow {clock : Option (Int × Nat)} {old : Option Xtime} {t : Xtime}
    (h : xtimeNow localtimeR clock old = .ok t) :
    ∃ t', xtimeUtcNow localtimeR clock old = .ok t' ∧ t'.seconds = t.seconds ∧
      t'.nanoseconds = t.nanoseconds ∧ wallClock t' = t.seconds := by
  refine ⟨{ t with tzOffset := 0, hasTz := false }, ?_, rfl, rfl, ?_⟩
  · rw [xtimeUtcNow, h]
  · exact if_neg (by simp)

end Solidc.Time
