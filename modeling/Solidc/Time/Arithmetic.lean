import Solidc.Lib.Signed
import Solidc.Time.Xtime

/-! # Durations

The functions of `xtime.c` that add a duration to a time, compare two times or take their
difference. The operations on signed integers are checked: `none` is undefined behaviour.

* `xtimeAddNanoseconds_eq` — when a sum is defined, and that it is exact;
* `addNanoseconds_laws` — nanoseconds add up, can be taken back, and are what the difference and
  the comparison see;
* `unitSums_exact_iff` — microseconds and milliseconds are exact as long as their nanoseconds fit.
-/

namespace Solidc.Time

open CLib

/-! ## The code -/

/-- `NANOS_PER_SEC`. -/
def nanosPerSec : Int := 1000000000

/-- `NANOS_PER_MICRO`. -/
def nanosPerMicro : Int := 1000

/-- `NANOS_PER_MILLI`. -/
def nanosPerMilli : Int := 1000000

/-- `(uint32_t)n`. -/
def toUInt32 (n : Int) : Nat := (n % 2 ^ 32).toNat

/-- `xtime_add_nanoseconds`. -/
def xtimeAddNanoseconds (t : Option Xtime) (nanos : Int) : Option (Except XtimeError Xtime) :=
  match t with
  | none => some (.error .invalidArg)
  | some t => do
    let total ← checked64 (t.nanoseconds + nanos)
    if total ≥ nanosPerSec then
      let seconds ← checked64 (t.seconds + total.tdiv nanosPerSec)
      some (.ok { t with seconds, nanoseconds := toUInt32 (total.tmod nanosPerSec) })
    else if total < 0 then
      let n ← checked64 (-total)
      let n ← checked64 (n + nanosPerSec)
      let n ← checked64 (n - 1)
      let borrow := n.tdiv nanosPerSec
      let seconds ← checked64 (t.seconds - borrow)
      let n ← checked64 (borrow * nanosPerSec)
      let n ← checked64 (total + n)
      some (.ok { t with seconds, nanoseconds := toUInt32 n })
    else some (.ok { t with nanoseconds := toUInt32 total })

/-- A duration in another unit. -/
def addUnits (nanosPerUnit : Int) (t : Option Xtime) (n : Int) : Option (Except XtimeError Xtime) :=
  match t with
  | none => some (.error .invalidArg)
  | some t => do
    let nanos ← checked64 (n * nanosPerUnit)
    xtimeAddNanoseconds (some t) nanos

/-- `xtime_add_microseconds`. -/
def xtimeAddMicroseconds : Option Xtime → Int → Option (Except XtimeError Xtime) :=
  addUnits nanosPerMicro

/-- `xtime_add_milliseconds`. -/
def xtimeAddMilliseconds : Option Xtime → Int → Option (Except XtimeError Xtime) :=
  addUnits nanosPerMilli

/-- `xtime_add_seconds`. -/
def xtimeAddSeconds (t : Option Xtime) (seconds : Int) : Option (Except XtimeError Xtime) :=
  match t with
  | none => some (.error .invalidArg)
  | some t => do
    let seconds ← checked64 (t.seconds + seconds)
    some (.ok { t with seconds })

/-- `xtime_add_days`. -/
def xtimeAddDays (t : Option Xtime) (days : Int) : Option (Except XtimeError Xtime) :=
  match t with
  | none => some (.error .invalidArg)
  | some t => do
    let seconds ← checked64 (days * 86400)
    xtimeAddSeconds (some t) seconds

/-- `xtime_compare`. -/
def xtimeCompare (t₁ t₂ : Option Xtime) : Int :=
  match t₁, t₂ with
  | some t₁, some t₂ =>
    if t₁.seconds < t₂.seconds then -1
    else if t₁.seconds > t₂.seconds then 1
    else if t₁.nanoseconds < t₂.nanoseconds then -1
    else if t₁.nanoseconds > t₂.nanoseconds then 1
    else 0
  | _, _ => -2

/-- `xtime_diff_nanos`. -/
def xtimeDiffNanos (t₁ t₂ : Option Xtime) : Option (Except XtimeError Int) :=
  match t₁, t₂ with
  | some t₁, some t₂ => do
    let secDiff ← checked64 (t₁.seconds - t₂.seconds)
    let nanoDiff ← checked64 (t₁.nanoseconds - t₂.nanoseconds)
    let n ← checked64 (secDiff * nanosPerSec)
    let n ← checked64 (n + nanoDiff)
    some (.ok n)
  | _, _ => some (.error .invalidArg)

/-! ## Instants -/

/-- The nanoseconds since the epoch. -/
def Xtime.instant (t : Xtime) : Int := t.seconds * 10 ^ 9 + t.nanoseconds

/-- The time `n` nanoseconds later. -/
def Xtime.moved (t : Xtime) (n : Int) : Xtime :=
  { t with seconds := (t.instant + n) / 10 ^ 9, nanoseconds := ((t.instant + n) % 10 ^ 9).toNat }

variable {t u : Xtime} {m n : Int}

theorem Xtime.moved_instant (t : Xtime) (n : Int) : (t.moved n).instant = t.instant + n := by
  simp only [Xtime.instant, Xtime.moved]
  omega

theorem Xtime.moved_nanoseconds_lt (t : Xtime) (n : Int) : (t.moved n).nanoseconds < 10 ^ 9 := by
  simp only [Xtime.moved]
  omega

/-- Seconds and nanoseconds are those of the instant. -/
theorem Xtime.moved_seconds (t : Xtime) (n : Int) :
    (t.moved n).seconds = t.seconds + (t.nanoseconds + n) / 10 ^ 9 := by
  simp only [Xtime.moved, Xtime.instant]
  omega

theorem Xtime.moved_nanoseconds (t : Xtime) (n : Int) :
    ((t.moved n).nanoseconds : Int) = (t.nanoseconds + n) % 10 ^ 9 := by
  simp only [Xtime.moved, Xtime.instant]
  omega

theorem Xtime.moved_eq {seconds : Int} {nanoseconds : Nat} (hs : seconds = (t.moved n).seconds)
    (hn : nanoseconds = (t.moved n).nanoseconds) :
    { t with seconds, nanoseconds } = t.moved n := by
  rw [hs, hn]
  rfl

@[simp] theorem Xtime.moved_zero (h : t.nanoseconds < 10 ^ 9) : t.moved 0 = t := by
  have hseconds := t.moved_seconds 0
  have hnanos := t.moved_nanoseconds 0
  exact (Xtime.moved_eq (t := t) (by omega) (by omega)).symm

@[simp] theorem Xtime.moved_moved (t : Xtime) (m n : Int) :
    (t.moved m).moved n = t.moved (m + n) := by
  have hinstant : (t.moved m).instant + n = t.instant + (m + n) := by
    rw [t.moved_instant, Int.add_assoc]
  rw [Xtime.moved, hinstant]
  rfl

/-! ## Nanoseconds -/

theorem toUInt32_eq (h : 0 ≤ n) (h' : n < 10 ^ 9) : toUInt32 n = n.toNat := by
  rw [toUInt32, Int.emod_eq_of_lt h (by omega)]

/-- A second or more is carried over. -/
theorem addNanoseconds_forward (hge : 10 ^ 9 ≤ t.nanoseconds + n)
    (hfits : t.nanoseconds + n < 2 ^ 63) (hsec : Fits64 (t.moved n).seconds) :
    xtimeAddNanoseconds (some t) n = some (.ok (t.moved n)) := by
  have hseconds := t.moved_seconds n
  have hnanos := t.moved_nanoseconds n
  have hcarry : (t.nanoseconds : Int) + n ≥ 1000000000 := hge
  have hquot := Int.tdiv_eq_ediv_of_nonneg (b := 1000000000)
    (by omega : 0 ≤ t.nanoseconds + n)
  have hrem : (t.nanoseconds + n).tmod 1000000000 = (t.nanoseconds + n) % 1000000000 :=
    Int.tmod_eq_emod_of_nonneg (by omega)
  have hlt : toUInt32 ((t.nanoseconds + n) % 1000000000) = (t.moved n).nanoseconds := by
    rw [toUInt32_eq (by omega) (by omega)]
    omega
  have hsum : checked64 (t.seconds + (t.nanoseconds + n) / 1000000000) =
      some (t.moved n).seconds := by
    rw [hseconds] at hsec ⊢
    exact checked64_of_fits hsec
  unfold xtimeAddNanoseconds
  delta nanosPerSec
  dsimp only [Option.bind_eq_bind]
  rw [checked64_bind (by omega) hfits, if_pos hcarry, hquot, hrem, hsum, hlt]
  rfl

/-- Below zero, the seconds that are borrowed are rounded up. -/
theorem addNanoseconds_back (hneg : t.nanoseconds + n < 0)
    (hfits : 10 ^ 9 - 2 ^ 63 < t.nanoseconds + n) (hsec : Fits64 (t.moved n).seconds) :
    xtimeAddNanoseconds (some t) n = some (.ok (t.moved n)) := by
  have hseconds := t.moved_seconds n
  have hnanos := t.moved_nanoseconds n
  have hcarry : ¬ (t.nanoseconds : Int) + n ≥ 1000000000 := by omega
  have hquot := Int.tdiv_eq_ediv_of_nonneg (b := 1000000000)
    (by omega : 0 ≤ -(t.nanoseconds + n) + 1000000000 - 1)
  -- rounding up the opposite is rounding down
  have hborrow : (-(t.nanoseconds + n) + 1000000000 - 1) / 1000000000 =
      -((t.nanoseconds + n) / 1000000000) := by omega
  have hlt : toUInt32 (t.nanoseconds + n + -((t.nanoseconds + n) / 1000000000) * 1000000000) =
      (t.moved n).nanoseconds := by
    rw [toUInt32_eq (by omega) (by omega)]
    omega
  have hsum : checked64 (t.seconds - -((t.nanoseconds + n) / 1000000000)) =
      some (t.moved n).seconds := by
    rw [hseconds] at hsec ⊢
    rw [Int.sub_neg]
    exact checked64_of_fits hsec
  unfold xtimeAddNanoseconds
  delta nanosPerSec
  dsimp only [Option.bind_eq_bind]
  rw [checked64_bind (by omega) (by omega), if_neg hcarry, if_pos hneg,
    checked64_bind (by omega) (by omega), checked64_bind (by omega) (by omega),
    checked64_bind (by omega) (by omega), hquot, hborrow, hsum, Option.bind_some,
    checked64_bind (by omega) (by omega), checked64_bind (by omega) (by omega), hlt]
  rfl

/-- The seconds stay the same. -/
theorem addNanoseconds_within (hnonneg : 0 ≤ t.nanoseconds + n)
    (hlt : t.nanoseconds + n < 10 ^ 9) :
    xtimeAddNanoseconds (some t) n = some (.ok (t.moved n)) := by
  have hseconds := t.moved_seconds n
  have hnanos := t.moved_nanoseconds n
  have hsame : { t with nanoseconds := toUInt32 (t.nanoseconds + n) } = t.moved n :=
    Xtime.moved_eq (by omega) (by rw [toUInt32_eq hnonneg hlt]; omega)
  have hcarry : ¬ (t.nanoseconds : Int) + n ≥ 1000000000 := Int.not_le.mpr hlt
  unfold xtimeAddNanoseconds
  delta nanosPerSec
  dsimp only [Option.bind_eq_bind]
  rw [checked64_bind (by omega) (by omega), if_neg hcarry, if_neg (Int.not_lt.mpr hnonneg), hsame]

/-- The sum of the nanoseconds does not fit, or the one that rounds up does not. -/
theorem addNanoseconds_undefined
    (h : t.nanoseconds + n ≤ 10 ^ 9 - 2 ^ 63 ∨ 2 ^ 63 ≤ t.nanoseconds + n) :
    xtimeAddNanoseconds (some t) n = none := by
  unfold xtimeAddNanoseconds
  delta nanosPerSec
  dsimp only [Option.bind_eq_bind]
  by_cases hsum : Fits64 (t.nanoseconds + n)
  · have hlow : t.nanoseconds + n ≤ 10 ^ 9 - 2 ^ 63 := by
      unfold Fits64 at hsum
      omega
    have hcarry : ¬ (t.nanoseconds : Int) + n ≥ 1000000000 := by omega
    rw [checked64_of_fits hsum, Option.bind_some, if_neg hcarry, if_pos (by omega)]
    -- the opposite of the least number does not fit, nor does the sum that rounds it up
    by_cases hopp : Fits64 (-(t.nanoseconds + n))
    · have hround : ¬ Fits64 (-(t.nanoseconds + n) + 1000000000) := by
        unfold Fits64
        omega
      rw [checked64_of_fits hopp, Option.bind_some, checked64_bind_none hround]
    · exact checked64_bind_none hopp
  · exact checked64_bind_none hsum

/-- The sum is exact where it is defined. -/
theorem xtimeAddNanoseconds_eq (hsec : Fits64 (t.moved n).seconds) :
    xtimeAddNanoseconds (some t) n =
      if 10 ^ 9 - 2 ^ 63 < t.nanoseconds + n ∧ t.nanoseconds + n < 2 ^ 63 then
        some (.ok (t.moved n))
      else none := by
  split
  case isTrue h =>
    by_cases hneg : t.nanoseconds + n < 0
    · exact addNanoseconds_back hneg h.1 hsec
    · by_cases hlt : t.nanoseconds + n < 10 ^ 9
      · exact addNanoseconds_within (Int.not_lt.mp hneg) hlt
      · exact addNanoseconds_forward (Int.not_lt.mp hlt) h.2 hsec
  case isFalse h => exact addNanoseconds_undefined (by omega)

/-- Far from the limits of `int64_t` it is. -/
theorem addNanoseconds_defined (hns : t.nanoseconds < 10 ^ 9)
    (hsec : -2 ^ 62 ≤ t.seconds ∧ t.seconds ≤ 2 ^ 62) (hn : -2 ^ 62 ≤ n ∧ n ≤ 2 ^ 62) :
    xtimeAddNanoseconds (some t) n = some (.ok (t.moved n)) := by
  have hseconds := t.moved_seconds n
  have hfits : Fits64 (t.moved n).seconds := by
    constructor <;> omega
  rw [xtimeAddNanoseconds_eq hfits, if_pos (by omega)]

/-! ## Comparisons -/

/-- Two times compare as their instants do. -/
theorem xtimeCompare_eq_sign (ht : t.nanoseconds < 10 ^ 9) (hu : u.nanoseconds < 10 ^ 9) :
    xtimeCompare (some t) (some u) = (t.instant - u.instant).sign := by
  simp only [xtimeCompare, Xtime.instant]
  split
  case isTrue => rw [Int.sign_eq_neg_one_of_neg (by omega)]
  case isFalse =>
    split
    case isTrue => rw [Int.sign_eq_one_of_pos (by omega)]
    case isFalse =>
      split
      case isTrue => rw [Int.sign_eq_neg_one_of_neg (by omega)]
      case isFalse =>
        split
        case isTrue => rw [Int.sign_eq_one_of_pos (by omega)]
        case isFalse => rw [Int.sign_eq_zero_iff_zero.mpr (by omega)]

theorem xtimeDiffNanos_eq (ht : t.nanoseconds < 10 ^ 9) (hu : u.nanoseconds < 10 ^ 9)
    (hlow : -2 ^ 62 ≤ t.instant - u.instant) (hhigh : t.instant - u.instant ≤ 2 ^ 62) :
    xtimeDiffNanos (some t) (some u) = some (.ok (t.instant - u.instant)) := by
  unfold Xtime.instant at hlow hhigh ⊢
  unfold xtimeDiffNanos
  delta nanosPerSec
  dsimp only [Option.bind_eq_bind]
  rw [checked64_bind (by omega) (by omega), checked64_bind (by omega) (by omega),
    checked64_bind (by omega) (by omega), checked64_bind (by omega) (by omega)]
  have hdiff : (t.seconds - u.seconds) * 1000000000 + ((t.nanoseconds : Int) - u.nanoseconds) =
      t.seconds * 10 ^ 9 + t.nanoseconds - (u.seconds * 10 ^ 9 + u.nanoseconds) := by omega
  rw [hdiff]

/-- `xtime_add_nanoseconds` moves a time exactly: sums add up and can be taken back, and the
difference and the comparison with the old time show what was added. -/
theorem addNanoseconds_laws (t : Xtime) (hns : t.nanoseconds < 10 ^ 9)
    (hsec : -2 ^ 61 ≤ t.seconds ∧ t.seconds ≤ 2 ^ 61) (m n : Int)
    (hm : -2 ^ 61 ≤ m ∧ m ≤ 2 ^ 61) (hn : -2 ^ 61 ≤ n ∧ n ≤ 2 ^ 61) :
    ∃ t' u v, xtimeAddNanoseconds (some t) n = some (.ok t') ∧ t'.nanoseconds < 10 ^ 9 ∧
      t'.instant = t.instant + n ∧ t'.tzOffset = t.tzOffset ∧ t'.hasTz = t.hasTz ∧
      xtimeAddNanoseconds (some t) m = some (.ok u) ∧
      xtimeAddNanoseconds (some u) n = some (.ok v) ∧
      xtimeAddNanoseconds (some t) (m + n) = some (.ok v) ∧
      xtimeAddNanoseconds (some t') (-n) = some (.ok t) ∧
      xtimeDiffNanos (some t') (some t) = some (.ok n) ∧
      xtimeCompare (some t') (some t) = n.sign := by
  have hlt := t.moved_nanoseconds_lt n
  have hinstant := t.moved_instant n
  have hseconds := t.moved_seconds n
  have hseconds' := t.moved_seconds m
  have hdiff : (t.moved n).instant - t.instant = n := by omega
  have hback : (t.moved n).moved (-n) = t := by
    rw [Xtime.moved_moved, Int.add_right_neg, Xtime.moved_zero hns]
  refine ⟨t.moved n, t.moved m, t.moved (m + n), ?_, hlt, hinstant, rfl, rfl, ?_, ?_, ?_, ?_, ?_,
    ?_⟩
  · exact addNanoseconds_defined hns (by omega) (by omega)
  · exact addNanoseconds_defined hns (by omega) (by omega)
  · rw [← Xtime.moved_moved]
    exact addNanoseconds_defined (t.moved_nanoseconds_lt m) (by omega) (by omega)
  · exact addNanoseconds_defined hns (by omega) (by omega)
  · have hsum := addNanoseconds_defined hlt (n := -n) (by omega) (by omega)
    rwa [hback] at hsum
  · have hnanos := xtimeDiffNanos_eq hlt hns (by omega) (by omega)
    rwa [hdiff] at hnanos
  · rw [xtimeCompare_eq_sign hlt hns, hdiff]

/-- A second before the epoch, half a second is added and then taken away. -/
theorem addNanoseconds_laws_half :
    xtimeAddNanoseconds (some ⟨0, 250000000, 0, true⟩) (-500000000) =
        some (.ok ⟨-1, 750000000, 0, true⟩) ∧
      xtimeCompare (some ⟨-1, 750000000, 0, true⟩) (some ⟨0, 250000000, 0, true⟩) = -1 := by
  obtain ⟨t', -, -, hadd, -, -, -, -, -, -, -, -, -, hcompare⟩ :=
    addNanoseconds_laws ⟨0, 250000000, 0, true⟩ (by decide) (by decide) 0 (-500000000) (by decide)
      (by decide)
  have hrun : xtimeAddNanoseconds (some ⟨0, 250000000, 0, true⟩) (-500000000) =
      some (.ok ⟨-1, 750000000, 0, true⟩) := by decide
  rw [hrun, Option.some.injEq, Except.ok.injEq] at hadd
  exact ⟨hrun, hadd ▸ hcompare⟩

/-! ## Other units -/

/-- The duration in nanoseconds is what has to fit. -/
theorem addUnits_exact_iff {k : Int} (hns : t.nanoseconds < 10 ^ 9)
    (hsec : Fits64 (t.moved (n * k)).seconds) :
    addUnits k (some t) n = some (.ok (t.moved (n * k))) ↔
      10 ^ 9 - 2 ^ 63 < t.nanoseconds + n * k ∧ t.nanoseconds + n * k < 2 ^ 63 := by
  unfold addUnits
  dsimp only [Option.bind_eq_bind]
  by_cases hfits : Fits64 (n * k)
  · rw [checked64_bind hfits.1 hfits.2, xtimeAddNanoseconds_eq hsec]
    split
    case isTrue h => exact ⟨fun _ => h, fun _ => rfl⟩
    case isFalse h => exact ⟨nofun, fun h' => absurd h' h⟩
  · rw [checked64_bind_none hfits]
    refine ⟨nofun, fun h => absurd ?_ hfits⟩
    constructor <;> omega

/-- Microseconds and milliseconds are added exactly, without an overflow on the way, when the
duration in nanoseconds fits into `int64_t` together with the nanoseconds of the time, with a
second to spare below zero. -/
theorem unitSums_exact_iff (t : Xtime) (hns : t.nanoseconds < 10 ^ 9) (d : Int) :
    (Fits64 (t.moved (d * 1000)).seconds →
      (xtimeAddMicroseconds (some t) d = some (.ok (t.moved (d * 1000))) ↔
        10 ^ 9 - 2 ^ 63 < t.nanoseconds + d * 1000 ∧ t.nanoseconds + d * 1000 < 2 ^ 63)) ∧
    (Fits64 (t.moved (d * 1000000)).seconds →
      (xtimeAddMilliseconds (some t) d = some (.ok (t.moved (d * 1000000))) ↔
        10 ^ 9 - 2 ^ 63 < t.nanoseconds + d * 1000000 ∧ t.nanoseconds + d * 1000000 < 2 ^ 63)) :=
  ⟨addUnits_exact_iff hns, addUnits_exact_iff hns⟩

theorem unitSums_exact_iff_day :
    xtimeAddMicroseconds (some ⟨0, 0, 0, false⟩) 86400000000 =
        some (.ok (Xtime.moved ⟨0, 0, 0, false⟩ (86400000000 * 1000))) ∧
      xtimeAddMilliseconds (some ⟨0, 0, 0, false⟩) 86400000 =
        some (.ok (Xtime.moved ⟨0, 0, 0, false⟩ (86400000 * 1000000))) :=
  ⟨((unitSums_exact_iff ⟨0, 0, 0, false⟩ (by decide) 86400000000).1 (by decide)).mpr
      (by decide),
    ((unitSums_exact_iff ⟨0, 0, 0, false⟩ (by decide) 86400000).2 (by decide)).mpr
      (by decide)⟩

/-- Three hundred years are too many microseconds. -/
theorem microseconds_overflow :
    Fits64 (Xtime.moved ⟨0, 0, 0, false⟩ (9467280000000000 * 1000)).seconds ∧
      xtimeAddMicroseconds (some ⟨0, 0, 0, false⟩) 9467280000000000 ≠
        some (.ok (Xtime.moved ⟨0, 0, 0, false⟩ (9467280000000000 * 1000))) := by
  decide

end Solidc.Time
