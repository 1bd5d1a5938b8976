import Solidc.Lib.Decimal
import Solidc.Lib.Gregorian

/-! # Broken-down time

`struct tm` and the functions of the C library on it: `gmtime_r` in the proleptic Gregorian
calendar, `strftime` and `strptime` in the C locale. Both of the latter are given the conversions
other than those for the fields of `Tm`.

* `strptime_dateTime` — what is written with `%Y-%m-%d` and `%H:%M:%S` is read back.
-/

namespace Solidc.Time

open CLib Gregorian

/-- The fields of `struct tm` that are used. -/
structure Tm where
  sec : Int
  min : Int
  hour : Int
  mday : Int
  mon : Int
  year : Int

/-- `gmtime_r`: NULL when the year does not fit into an `int`. -/
def gmtimeR (timestamp : Int) : Option Tm :=
  let date := Date.ofDay (timestamp / 86400)
  let year := date.year - 1900
  if -(2 ^ 31) ≤ year ∧ year < 2 ^ 31 then
    some {
      sec := timestamp % 60
      min := timestamp / 60 % 60
      hour := timestamp / 3600 % 24
      mday := date.day
      mon := date.month
      year }
  else none

/-- `printf` with `%0wd`. -/
def formatInt (w : Nat) (n : Int) : List Char :=
  if n < 0 then '-' :: padded (w - 1) n.natAbs else padded w n.natAbs

/-- The conversions of `strftime` and `strptime` that are not spelled out below. -/
structure Conversions where
  format : Char → Tm → List Char
  parse : Char → List Char → Tm → Option (Tm × List Char)

variable (lib : Conversions)

/-- A conversion of `strftime`. -/
def formatField (c : Char) (tm : Tm) : List Char :=
  match c with
  | 'Y' => formatInt 1 (tm.year + 1900)
  | 'm' => formatInt 2 (tm.mon + 1)
  | 'd' => formatInt 2 tm.mday
  | 'H' => formatInt 2 tm.hour
  | 'M' => formatInt 2 tm.min
  | 'S' => formatInt 2 tm.sec
  | '%' => ['%']
  | c => lib.format c tm

/-- The text that `strftime` makes. -/
def formatTm : List Char → Tm → List Char
  | [], _ => []
  | '%' :: c :: fmt, tm => formatField lib c tm ++ formatTm fmt tm
  | c :: fmt, tm => c :: formatTm fmt tm

/-- `strftime` into a buffer of `size` bytes: nothing if the text does not fit. -/
def strftime (size : Nat) (fmt : List Char) (tm : Tm) : List Char :=
  if (formatTm lib fmt tm).length < size then formatTm lib fmt tm else []

/-- A number of at most `w` digits between `lo` and `hi`. -/
def parseNumber (w lo hi : Nat) (s : List Char) : Option (Nat × List Char) := do
  let (n, rest) ← readDecimal w (s.dropWhile (· = ' '))
  if lo ≤ n ∧ n ≤ hi then some (n, rest) else none

/-- A conversion of `strptime`. -/
def parseField (c : Char) (s : List Char) (tm : Tm) : Option (Tm × List Char) :=
  match c with
  | 'Y' => (parseNumber 4 0 9999 s).map fun (n, rest) => ({ tm with year := n - 1900 }, rest)
  | 'm' => (parseNumber 2 1 12 s).map fun (n, rest) => ({ tm with mon := n - 1 }, rest)
  | 'd' => (parseNumber 2 1 31 s).map fun (n, rest) => ({ tm with mday := n }, rest)
  | 'H' => (parseNumber 2 0 23 s).map fun (n, rest) => ({ tm with hour := n }, rest)
  | 'M' => (parseNumber 2 0 59 s).map fun (n, rest) => ({ tm with min := n }, rest)
  | 'S' => (parseNumber 2 0 60 s).map fun (n, rest) => ({ tm with sec := n }, rest)
  | '%' => if s.head? = some '%' then some (tm, s.tail) else none
  | c => lib.parse c s tm

/-- `isspace` in the C locale. -/
def isSpaceChar (c : Char) : Bool := c = ' ' || (9 ≤ c.toNat && c.toNat ≤ 13)

/-- `strptime`: the fields that were read and the rest of the text, or NULL. -/
def strptime : List Char → List Char → Tm → Option (Tm × List Char)
  | [], s, tm => some (tm, s)
  | '%' :: c :: fmt, s, tm => do
    let (tm, s) ← parseField lib c s tm
    strptime fmt s tm
  | c :: fmt, s, tm =>
    if isSpaceChar c then strptime fmt (s.dropWhile isSpaceChar) tm
    else if s.head? = some c then strptime fmt s.tail tm else none

/-! ## Reading what was written -/

/-- The fields of a moment of a year with four digits. -/
structure Tm.Written (tm : Tm) : Prop where
  year : 1970 ≤ tm.year + 1900 ∧ tm.year + 1900 ≤ 9999
  mon : 0 ≤ tm.mon ∧ tm.mon ≤ 11
  mday : 1 ≤ tm.mday ∧ tm.mday ≤ 31
  hour : 0 ≤ tm.hour ∧ tm.hour ≤ 23
  min : 0 ≤ tm.min ∧ tm.min ≤ 59
  sec : 0 ≤ tm.sec ∧ tm.sec ≤ 59

theorem formatInt_of_nonneg {n : Int} (w : Nat) (h : 0 ≤ n) : formatInt w n = padded w n.toNat := by
  rw [formatInt, if_neg (Int.not_lt.mpr h), ← Int.toNat_of_nonneg h]
  rfl

/-- A number that was written with zeros in front does not begin with a space. -/
theorem dropWhile_padded {w : Nat} (hw : 0 < w) (n : Nat) {p : Char → Bool}
    (hp : ∀ c, c.isDigit = true → p c = false) (rest : List Char) :
    (padded w n ++ rest).dropWhile p = padded w n ++ rest := by
  have hlen := le_length_padded w n
  have hdigits := isDigit_padded w n
  cases hpad : padded w n with
  | nil =>
    rw [hpad] at hlen
    exact absurd hlen (Nat.not_le_of_lt hw)
  | cons c l =>
    rw [hpad] at hdigits
    rw [List.cons_append, List.dropWhile_cons_of_neg]
    rw [hp c (hdigits c List.mem_cons_self)]
    decide

theorem not_space_of_isDigit {c : Char} (h : c.isDigit = true) : isSpaceChar c = false := by
  have hge : 48 ≤ c.toNat := by
    simp only [Char.isDigit, Bool.and_eq_true, decide_eq_true_eq] at h
    exact h.1
  have hne : c ≠ ' ' := by
    rintro rfl
    exact absurd hge (by decide)
  simp only [isSpaceChar, hne, decide_false, Bool.false_or, Bool.and_eq_false_iff,
    decide_eq_false_iff_not]
  omega

theorem dropWhile_spaces_padded {w : Nat} (hw : 0 < w) (n : Nat) (rest : List Char) :
    (padded w n ++ rest).dropWhile (· = ' ') = padded w n ++ rest := by
  refine dropWhile_padded hw n (fun c hc => ?_) rest
  have hne : c ≠ ' ' := by
    rintro rfl
    exact absurd hc (by decide)
  simpa using hne

/-- A field is read as it was written. -/
theorem parseNumber_formatInt {w lo hi : Nat} {n : Int} (hw : 0 < w) (hlo : lo ≤ n) (hhi : n ≤ hi)
    (hfits : hi < 10 ^ w) (rest : List Char) :
    parseNumber w lo hi (formatInt w n ++ rest) = some (n.toNat, rest) := by
  have hn : n.toNat < 10 ^ w := by omega
  rw [formatInt_of_nonneg w (by omega), parseNumber, dropWhile_spaces_padded hw,
    readDecimal_padded hw hn]
  exact if_pos (by omega)

/-- A conversion of a number sets its field to what was written. -/
theorem strptime_number {c : Char} (set : Nat → Tm → Tm) {w lo hi : Nat} {n : Int}
    (hfield : ∀ s tm, parseField lib c s tm =
      (parseNumber w lo hi s).map fun r => (set r.1 tm, r.2))
    (hlo : lo ≤ n) (hhi : n ≤ hi) (hfits : 0 < w ∧ hi < 10 ^ w) (fmt rest : List Char) (tm : Tm) :
    strptime lib ('%' :: c :: fmt) (formatInt w n ++ rest) tm =
      strptime lib fmt rest (set n.toNat tm) := by
  have hconv : strptime lib ('%' :: c :: fmt) (formatInt w n ++ rest) tm =
      (parseField lib c (formatInt w n ++ rest) tm).bind fun r => strptime lib fmt r.2 r.1 := rfl
  rw [hconv, hfield, parseNumber_formatInt hfits.1 hlo hhi hfits.2]
  rfl

theorem strptime_literal {c : Char} (hc : c ≠ '%') (hspace : isSpaceChar c = false)
    (fmt s : List Char) (tm : Tm) :
    strptime lib (c :: fmt) (c :: s) tm = strptime lib fmt s tm := by
  rw [strptime]
  · simp [hspace]
  · rintro c' fmt' rfl
    exact absurd rfl hc

/-- The character between date and time: one that must stand there, or white space. -/
theorem strptime_separator {sep : Char} (hsep : sep ≠ '%') (fmt : List Char) {w : Nat}
    (hw : 0 < w) (n : Nat) (rest : List Char) (tm : Tm) :
    strptime lib (sep :: fmt) (sep :: (padded w n ++ rest)) tm =
      strptime lib fmt (padded w n ++ rest) tm := by
  cases hspace : isSpaceChar sep with
  | false => exact strptime_literal lib hsep hspace fmt _ tm
  | true =>
    have hskip := dropWhile_padded hw n (fun c hc => not_space_of_isDigit hc) rest
    rw [strptime]
    · rw [if_pos hspace, List.dropWhile_cons_of_pos hspace, hskip]
    · rintro c' fmt' rfl
      exact absurd rfl hsep

/-- `"%04d-%02d-%02dT%02d:%02d:%02d"`, with `sep` for the `T`. -/
def dateTime (sep : Char) (tm : Tm) : List Char :=
  formatInt 4 (tm.year + 1900) ++ '-' :: (formatInt 2 (tm.mon + 1) ++ '-' ::
    (formatInt 2 tm.mday ++ sep :: (formatInt 2 tm.hour ++ ':' ::
      (formatInt 2 tm.min ++ ':' :: formatInt 2 tm.sec))))

/-- The date and the time of the format, with `sep` between them. -/
def dateTimeFormat (sep : Char) : List Char :=
  '%' :: 'Y' :: '-' :: '%' :: 'm' :: '-' :: '%' :: 'd' :: sep ::
    '%' :: 'H' :: ':' :: '%' :: 'M' :: ':' :: '%' :: 'S' :: []

variable {tm : Tm}

/-- What stands behind the year. -/
def behindYear (sep : Char) (tm : Tm) : List Char :=
  '-' :: (formatInt 2 (tm.mon + 1) ++ '-' :: (formatInt 2 tm.mday ++ sep ::
    (formatInt 2 tm.hour ++ ':' :: (formatInt 2 tm.min ++ ':' :: formatInt 2 tm.sec))))

theorem strptime_behindYear (hmon : 0 ≤ tm.mon ∧ tm.mon ≤ 11) (hmday : 1 ≤ tm.mday ∧ tm.mday ≤ 31)
    (hhour : 0 ≤ tm.hour ∧ tm.hour ≤ 23) (hmin : 0 ≤ tm.min ∧ tm.min ≤ 59)
    (hsec : 0 ≤ tm.sec ∧ tm.sec ≤ 59) {sep : Char} (hsep : sep ≠ '%') (rest : List Char)
    (tm₀ : Tm) :
    strptime lib ((dateTimeFormat sep).drop 2) (behindYear sep tm ++ rest) tm₀ =
      some ({ tm with year := tm₀.year }, rest) := by
  have hdash : isSpaceChar '-' = false := by decide
  have hcolon : isSpaceChar ':' = false := by decide
  have hpadded : formatInt 2 tm.hour = padded 2 tm.hour.toNat := formatInt_of_nonneg 2 hhour.1
  simp only [dateTimeFormat, List.drop_succ_cons, List.drop_zero, behindYear, List.append_assoc,
    List.cons_append]
  rw [strptime_literal lib (by decide) hdash,
    strptime_number lib (fun n tm => { tm with mon := n - 1 }) (fun _ _ => rfl) (by omega)
      (by omega) (by decide), strptime_literal lib (by decide) hdash,
    strptime_number lib (fun n tm => { tm with mday := n }) (fun _ _ => rfl) hmday.1 hmday.2
      (by decide), hpadded, strptime_separator lib hsep _ (by decide), ← hpadded,
    strptime_number lib (fun n tm => { tm with hour := n }) (fun _ _ => rfl) hhour.1 hhour.2
      (by decide), strptime_literal lib (by decide) hcolon,
    strptime_number lib (fun n tm => { tm with min := n }) (fun _ _ => rfl) hmin.1 hmin.2
      (by decide), strptime_literal lib (by decide) hcolon,
    strptime_number lib (fun n tm => { tm with sec := n }) (fun _ _ => rfl) hsec.1
      (Int.le_trans hsec.2 (by decide)) (by decide), strptime]
  have hnumber : ((tm.mon + 1).toNat : Int) - 1 = tm.mon := by omega
  rw [hnumber, Int.toNat_of_nonneg (Int.le_trans (by decide) hmday.1),
    Int.toNat_of_nonneg hhour.1, Int.toNat_of_nonneg hmin.1, Int.toNat_of_nonneg hsec.1]

/-- A year is read with or without zeros in front. -/
theorem strptime_year {year : Int} (hyear : 0 ≤ year ∧ year ≤ 9999) {w : Nat} (hw : 0 < w)
    (hw' : w ≤ 4) (fmt : List Char) {rest : List Char}
    (hrest : ∀ c ∈ rest.head?, c.isDigit = false) (tm₀ : Tm) :
    strptime lib ('%' :: 'Y' :: fmt) (formatInt w year ++ rest) tm₀ =
      strptime lib fmt rest { tm₀ with year := year - 1900 } := by
  have hconv : strptime lib ('%' :: 'Y' :: fmt) (formatInt w year ++ rest) tm₀ =
      ((parseNumber 4 0 9999 (formatInt w year ++ rest)).map fun (n, rest) =>
        ({ tm₀ with year := n - 1900 }, rest)).bind fun r => strptime lib fmt r.2 r.1 := rfl
  have hread : parseNumber 4 0 9999 (formatInt w year ++ rest) = some (year.toNat, rest) := by
    rw [formatInt_of_nonneg w hyear.1, parseNumber, dropWhile_spaces_padded hw,
      readDecimal_leftpad hw hw' (by omega) hrest]
    exact if_pos (by omega)
  rw [hconv, hread]
  dsimp only [Option.map_some, Option.bind_some]
  rw [Int.toNat_of_nonneg hyear.1]

theorem strptime_dateTime (h : tm.Written) {sep : Char} (hsep : sep ≠ '%') (rest : List Char)
    (tm₀ : Tm) :
    strptime lib (dateTimeFormat sep) (dateTime sep tm ++ rest) tm₀ = some (tm, rest) := by
  have hsplit : dateTime sep tm ++ rest =
      formatInt 4 (tm.year + 1900) ++ (behindYear sep tm ++ rest) := List.append_assoc _ _ _
  have hyear := h.year
  rw [hsplit, dateTimeFormat, strptime_year lib (by omega) (by decide) le_rfl _
    (by rintro c ⟨⟩; decide)]
  refine (strptime_behindYear lib h.mon h.mday h.hour h.min h.sec hsep rest _).trans ?_
  rw [Int.add_sub_cancel]

theorem formatTm_dateTime (h : tm.Written) {sep : Char} (hsep : sep ≠ '%') :
    formatTm lib (dateTimeFormat sep) tm = dateTime sep tm := by
  obtain ⟨hy, hy'⟩ := h.year
  have hyear : formatInt 1 (tm.year + 1900) = formatInt 4 (tm.year + 1900) := by
    rw [formatInt_of_nonneg 1 (by omega), formatInt_of_nonneg 4 (by omega),
      padded_of_ge (w := 3) (by decide) (by omega) 1 (by decide),
      padded_of_ge (w := 3) (by decide) (by omega) 4 le_rfl]
  have hrest : formatTm lib (sep :: "%H:%M:%S".toList) tm =
      sep :: formatTm lib "%H:%M:%S".toList tm := by
    rw [formatTm]
    rintro c fmt rfl
    exact absurd rfl hsep
  have hfields : formatTm lib (dateTimeFormat sep) tm =
      formatInt 1 (tm.year + 1900) ++ ('-' :: (formatInt 2 (tm.mon + 1) ++ ('-' ::
        (formatInt 2 tm.mday ++ formatTm lib (sep :: "%H:%M:%S".toList) tm)))) := rfl
  have htime : formatTm lib "%H:%M:%S".toList tm =
      formatInt 2 tm.hour ++ (':' :: (formatInt 2 tm.min ++ (':' :: (formatInt 2 tm.sec ++ [])))) :=
    rfl
  rw [hfields, hrest, htime, hyear, List.append_nil, dateTime]

theorem length_dateTime (h : tm.Written) (sep : Char) : (dateTime sep tm).length = 19 := by
  obtain ⟨⟨hy, hy'⟩, ⟨hm, hm'⟩, ⟨hd, hd'⟩, ⟨hh, hh'⟩, ⟨hi, hi'⟩, ⟨hs, hs'⟩⟩ := h
  have hlen : ∀ (w : Nat) (n : Int), 0 < w → 0 ≤ n → n.toNat < 10 ^ w →
      (formatInt w n).length = w := by
    intro w n hw hn hfits
    rw [formatInt_of_nonneg w hn, length_padded hw hfits]
  simp only [dateTime, List.length_append, List.length_cons]
  rw [hlen 4 _ (by decide) (by omega) (by omega), hlen 2 (tm.mon + 1) (by decide) (by omega)
    (by omega), hlen 2 tm.mday (by decide) (by omega) (by omega),
    hlen 2 tm.hour (by decide) hh (by omega), hlen 2 tm.min (by decide) hi (by omega),
    hlen 2 tm.sec (by decide) hs (by omega)]

/-- The fields of a moment: a date of the calendar and the time since it began. -/
theorem gmtimeR_eq {timestamp : Int}
    (hyear : 1970 ≤ (Date.ofDay (timestamp / 86400)).year ∧
      (Date.ofDay (timestamp / 86400)).year ≤ 9999) :
    ∃ tm, gmtimeR timestamp = some tm ∧ tm.Written ∧
      tm.year + 1900 = (Date.ofDay (timestamp / 86400)).year ∧
      tm.mon = (Date.ofDay (timestamp / 86400)).month ∧
      tm.mday = (Date.ofDay (timestamp / 86400)).day ∧
      timestamp / 86400 * 86400 + tm.hour * 3600 + tm.min * 60 + tm.sec = timestamp := by
  have hvalid := valid_ofDay (timestamp / 86400)
  have hmonth := hvalid.month_lt
  have hday := hvalid.day_le
  have hpos := hvalid.1
  refine ⟨⟨timestamp % 60, timestamp / 60 % 60, timestamp / 3600 % 24,
    (Date.ofDay (timestamp / 86400)).day, (Date.ofDay (timestamp / 86400)).month,
    (Date.ofDay (timestamp / 86400)).year - 1900⟩, ?_, ?_, Int.sub_add_cancel _ _, rfl, rfl, ?_⟩
  · exact if_pos (by omega)
  · constructor <;> dsimp only <;> omega
  · dsimp only
    omega

end Solidc.Time
