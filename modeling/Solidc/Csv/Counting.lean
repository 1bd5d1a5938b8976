import Solidc.Csv.Reader
import Mathlib.Data.List.Count

/-! # The two passes of the CSV reader

`line_count` decides how many rows are allocated, the loop of `csv_reader_parse` which of them
are filled.

* `lineCount_eq` — the first pass counts the lines that are `counted`;
* `parseLines_iff` — the second pass fills a row from each line that has a `dataText`;
* `filledInOrder_iff` — every row is filled exactly when no line is counted and then passed
  over.
-/

namespace Solidc.Csv

open CLib

/-- The header is passed over. -/
def CsvReader.dropsHeader (reader : CsvReader) : Bool := reader.hasHeader && reader.skipHeader

/-- A line that `line_count` counts, or takes for the header: no comment, and not blank. -/
def counted (reader : CsvReader) (line : List UInt8) : Bool :=
  line.head? != some reader.comment && line.any fun c => c != newline && notBlank c

/-- A line that starts with a NUL, or has a byte other than white space after its first byte and
before any NUL. -/
def Readable (line : List UInt8) : Prop :=
  line.head? = some 0 ∨ ∃ c ∈ (cstrOf line).tail, isSpace c = false

/-- Every entry of the array has been filled by `parse_csv_line`, from lines in file order. -/
def FilledInOrder (reader : CsvReader) (stream : List UInt8) (rows : List (Option Row)) : Prop :=
  ∃ num ls, List.Sublist ls (splitLines stream) ∧
    rows = ls.map (fun l => (dataText reader l).bind (parseCsvLine reader num)) ∧
    ∀ row ∈ rows, row.isSome

variable {reader : CsvReader} {stream line body : List UInt8} {lines : List (List UInt8)}

/-! ## The counting pass -/

/-- The variables of `line_count` at the start of a line. -/
def CountState.start (n : Nat) (headerSkipped : Bool) : CountState :=
  ⟨n, headerSkipped, true, false, true⟩

/-- What a line does to `lines` and `headerSkipped`. -/
def tally (reader : CsvReader) (t : Nat × Bool) (line : List UInt8) : Nat × Bool :=
  if counted reader line then
    if reader.dropsHeader && !t.2 && t.1 == 0 then (t.1, true) else (t.1 + 1, t.2)
  else t

theorem countBlocks_eq {fuel : Nat} (s : CountState) (hfuel : stream.length ≤ fuel) :
    countBlocks reader fuel s stream = stream.foldl (countByte reader) s := by
  induction fuel generalizing s stream with
  | zero =>
    rw [List.length_eq_zero_iff.mp (Nat.le_zero.mp hfuel)]
    rfl
  | succ fuel ih =>
    unfold countBlocks
    split
    · next hnil =>
      rw [hnil]
      rfl
    · next hne =>
      have hpos : 0 < stream.length := List.length_pos_iff.mpr hne
      have hdrop : (stream.drop csvReadBufsize).length ≤ fuel := by
        rw [List.length_drop]
        unfold csvReadBufsize
        omega
      rw [ih _ hdrop, ← List.foldl_append, List.take_append_drop]

/-- The rest of a line that is skipped changes nothing. -/
theorem foldl_countByte_skip {s : CountState} (hs : s.skipThisLine = true)
    (hbody : newline ∉ body) : body.foldl (countByte reader) s = s := by
  induction body with
  | nil => rfl
  | cons c body ih =>
    have hc : c ≠ newline := fun h => hbody (h ▸ List.mem_cons_self)
    have hstep : countByte reader s c = s := by simp [countByte, hc, hs]
    rw [List.foldl_cons, hstep, ih fun h => hbody (List.mem_cons_of_mem c h)]

/-- The rest of another line is searched for content. -/
theorem foldl_countByte_body {s : CountState} (hs : s.skipThisLine = false)
    (hfirst : s.lineFirstChar = false) (hbody : newline ∉ body) :
    body.foldl (countByte reader) s =
      { s with blankLine := s.blankLine && !body.any notBlank } := by
  induction body generalizing s with
  | nil => simp
  | cons c body ih =>
    have hc : c ≠ newline := fun h => hbody (h ▸ List.mem_cons_self)
    have hstep : countByte reader s c =
        { s with blankLine := s.blankLine && !notBlank c } := by
      simp [countByte, hc, hs, hfirst]
    rw [List.foldl_cons, hstep]
    refine (ih (by exact hs) (by exact hfirst) fun h => hbody (List.mem_cons_of_mem c h)).trans ?_
    simp [Bool.and_assoc]

theorem counted_newline (body : List UInt8) :
    counted reader (body ++ [newline]) = counted reader body := by
  cases body with
  | nil => simp [counted]
  | cons c body => simp [counted]

/-- A whole line, up to its newline or the end of the stream. -/
theorem countLine_body (reader : CsvReader) (n : Nat) (headerSkipped : Bool)
    (hbody : newline ∉ body) :
    (countLine reader (body.foldl (countByte reader) (.start n headerSkipped))).lines =
        (tally reader (n, headerSkipped) body).1 ∧
      (countLine reader (body.foldl (countByte reader) (.start n headerSkipped))).headerSkipped =
        (tally reader (n, headerSkipped) body).2 := by
  cases body with
  | nil => exact ⟨rfl, rfl⟩
  | cons c body =>
    have hc : c ≠ newline := fun h => hbody (h ▸ List.mem_cons_self)
    have hbody' : newline ∉ body := fun h => hbody (List.mem_cons_of_mem c h)
    rw [List.foldl_cons]
    by_cases hcomment : c = reader.comment
    · -- a comment: the line is not counted
      subst hcomment
      have hstep : countByte reader (.start n headerSkipped) reader.comment =
          ⟨n, headerSkipped, false, true, true⟩ := by
        simp [countByte, CountState.start, hc]
      have hcounted : counted reader (reader.comment :: body) = false := by simp [counted]
      rw [hstep, foldl_countByte_skip rfl hbody']
      simp [countLine, tally, hcounted]
    · have hstep : countByte reader (.start n headerSkipped) c =
          ⟨n, headerSkipped, false, false, !notBlank c⟩ := by
        simp [countByte, CountState.start, hc, hcomment]
      have hcounted : counted reader (c :: body) = (c :: body).any notBlank := by
        have hany : (c :: body).any (fun c => c != newline && notBlank c) =
            (c :: body).any notBlank :=
          Bool.eq_iff_iff.mpr (by
            simp only [List.any_eq_true, Bool.and_eq_true, bne_iff_ne, ne_eq]
            refine exists_congr fun d => and_congr_right fun hd => and_iff_right ?_
            exact fun h => hbody (h ▸ hd))
        rw [counted, hany]
        simp [hcomment]
      rw [hstep, foldl_countByte_body rfl rfl hbody']
      simp only [countLine, tally, hcounted, CsvReader.dropsHeader, List.any_cons]
      cases notBlank c <;> cases body.any notBlank <;> simp <;> split <;> simp_all

/-- The counting pass, line by line. -/
theorem countLine_stream (n : Nat) (headerSkipped : Bool) :
    (countLine reader (stream.foldl (countByte reader) (.start n headerSkipped))).lines =
      ((splitLines stream).foldl (tally reader) (n, headerSkipped)).1 := by
  induction stream using stream_induction generalizing n headerSkipped with
  | nil => rfl
  | last l hne hl =>
    rw [splitLines_last hne hl]
    exact (countLine_body reader n headerSkipped hl).1
  | line l s hl ih =>
    obtain ⟨hlines, hskipped⟩ := countLine_body reader n headerSkipped hl
    have htally : tally reader (n, headerSkipped) (l ++ [newline]) =
        tally reader (n, headerSkipped) l := by simp only [tally, counted_newline]
    have hstart : countByte reader (l.foldl (countByte reader) (.start n headerSkipped)) newline =
        .start (tally reader (n, headerSkipped) l).1 (tally reader (n, headerSkipped) l).2 := by
      rw [← hlines, ← hskipped]
      simp [countByte, CountState.start]
    rw [splitLines_append hl, List.foldl_append, List.foldl_cons, hstart, ih,
      List.foldl_cons, htally]

theorem foldl_tally (n : Nat) (headerSkipped : Bool)
    (h : reader.dropsHeader = false ∨ headerSkipped = true) :
    (lines.foldl (tally reader) (n, headerSkipped)).1 = n + lines.countP (counted reader) := by
  induction lines generalizing n with
  | nil => rfl
  | cons line lines ih =>
    have hstep : tally reader (n, headerSkipped) line =
        (n + if counted reader line then 1 else 0, headerSkipped) := by
      unfold tally
      split
      · rcases h with h | h <;> simp [h]
      · rfl
    rw [List.foldl_cons, hstep, ih, List.countP_cons]
    omega

/-- The header is the first line that is counted. -/
theorem foldl_tally_header (h : reader.dropsHeader = true) :
    (lines.foldl (tally reader) (0, false)).1 = lines.countP (counted reader) - 1 := by
  induction lines with
  | nil => rfl
  | cons line lines ih =>
    rw [List.foldl_cons, List.countP_cons]
    cases hline : counted reader line with
    | false => simpa [tally, hline] using ih
    | true =>
      have hstep : tally reader (0, false) line = (0, true) := by simp [tally, hline, h]
      rw [hstep, foldl_tally 0 true (.inr rfl)]
      simp

/-- `line_count` counts the lines that are neither comments nor blank, less the header. -/
theorem lineCount_eq (reader : CsvReader) (stream : List UInt8) : lineCount reader stream =
    (splitLines stream).countP (counted reader) - if reader.dropsHeader then 1 else 0 := by
  unfold lineCount
  rw [countBlocks_eq _ (Nat.le_refl _)]
  refine (countLine_stream 0 false).trans ?_
  cases h : reader.dropsHeader with
  | false => simp [foldl_tally 0 false (.inl h)]
  | true => simp [foldl_tally_header h]

/-! ## The parsing pass -/

variable {num numRows : Nat} {rows : List Row}

/-- The texts of the lines that are not passed over. -/
def dataTexts (reader : CsvReader) (lines : List (List UInt8)) : List Str :=
  lines.filterMap (dataText reader)

/-- With room for every text and no header in front, every text fills a row. -/
theorem parseLines_iff {i : Nat} {headerSkipped : Bool}
    (hheader : (reader.dropsHeader && i == 0 && !headerSkipped) = false)
    (hroom : i + (dataTexts reader lines).length ≤ numRows) :
    parseLines reader num numRows lines i headerSkipped = some rows ↔
      (dataTexts reader lines).map (parseCsvLine reader num) = rows.map some := by
  induction lines generalizing i rows with
  | nil =>
    rw [parseLines]
    cases rows with
    | nil => simp [dataTexts]
    | cons row rows => simp [dataTexts]
  | cons line lines ih =>
    unfold parseLines
    cases htext : dataText reader line with
    | none =>
      have hcons : dataTexts reader (line :: lines) = dataTexts reader lines := by
        simp [dataTexts, htext]
      rw [hcons] at hroom ⊢
      split
      · exact ih hheader hroom
      · next hfull =>
        -- no room, so no text is left
        have hnil : dataTexts reader lines = [] := List.length_eq_zero_iff.mp (by omega)
        rw [hnil]
        cases rows <;> simp
    | some text =>
      have hcons : dataTexts reader (line :: lines) = text :: dataTexts reader lines := by
        simp [dataTexts, htext]
      rw [hcons] at hroom ⊢
      rw [List.length_cons] at hroom
      rw [if_pos (by omega)]
      have hnot : (reader.hasHeader && reader.skipHeader && i == 0 && !headerSkipped) = false :=
        hheader
      simp only [hnot, Bool.false_eq_true, if_false]
      rw [List.map_cons]
      cases hrow : parseCsvLine reader num text with
      | none =>
        cases rows <;> simp
      | some row =>
        have hih : ∀ rows, parseLines reader num numRows lines (i + 1) headerSkipped = some rows ↔
            (dataTexts reader lines).map (parseCsvLine reader num) = rows.map some :=
          fun rows => ih (by simp) (by omega)
        simp only [Option.map_eq_some_iff, hih]
        constructor
        · rintro ⟨rest, hrest, rfl⟩
          rw [hrest]
          rfl
        · intro h
          cases rows with
          | nil => cases h
          | cons row' rest =>
            obtain ⟨hhead, htail⟩ := List.cons_eq_cons.mp h
            cases hhead
            exact ⟨rest, htail, rfl⟩

/-- The first text is taken for the header if there is one. -/
theorem parseLines_zero_iff (hpos : 0 < numRows)
    (hroom : (dataTexts reader lines).length ≤ numRows + if reader.dropsHeader then 1 else 0) :
    parseLines reader num numRows lines 0 false = some rows ↔
      ((dataTexts reader lines).drop (if reader.dropsHeader then 1 else 0)).map
        (parseCsvLine reader num) = rows.map some := by
  cases hdrop : reader.dropsHeader with
  | false =>
    rw [hdrop] at hroom
    exact parseLines_iff (by simp [hdrop]) (by simpa using hroom)
  | true =>
    rw [hdrop] at hroom
    induction lines with
    | nil =>
      rw [parseLines]
      cases rows <;> simp [dataTexts]
    | cons line lines ih =>
      unfold parseLines
      rw [if_pos hpos]
      cases htext : dataText reader line with
      | none =>
        have hcons : dataTexts reader (line :: lines) = dataTexts reader lines := by
          simp [dataTexts, htext]
        rw [hcons] at hroom ⊢
        exact ih hroom
      | some text =>
        have hcons : dataTexts reader (line :: lines) = text :: dataTexts reader lines := by
          simp [dataTexts, htext]
        rw [hcons] at hroom ⊢
        have hyes : (reader.hasHeader && reader.skipHeader && (0 : Nat) == 0 && !false) = true := by
          simpa [CsvReader.dropsHeader] using hdrop
        simp only [hyes, if_true]
        rw [List.drop_one, List.tail_cons]
        refine parseLines_iff (by simp) ?_
        simp only [List.length_cons, if_true] at hroom
        omega

/-! ## Where they differ -/

theorem trimLine_eq_none {text : Str} :
    trimLine text = none ↔ text ≠ [] ∧ ∀ c ∈ text.tail, isSpace c = true := by
  cases text with
  | nil => simp [trimLine]
  | cons c rest =>
    simp [trimLine, List.rdropWhile_eq_nil_iff]

theorem trimLine_head {text trimmed : Str} (h : trimLine text = some trimmed) :
    trimmed.head? = text.head? := by
  cases text with
  | nil =>
    cases h
    rfl
  | cons c rest =>
    simp only [trimLine] at h
    split at h
    · cases h
    · cases h
      rfl

theorem cstrOf_head (hne : line ≠ []) : some ((cstrOf line).headD 0) = line.head? := by
  cases line with
  | nil => exact absurd rfl hne
  | cons c line =>
    by_cases hc : c = 0
    · simp [cstrOf, hc]
    · simp [cstrOf, hc]

/-- The lines that are not passed over. -/
theorem dataText_isSome (hne : line ≠ []) :
    (dataText reader line).isSome = true ↔ line.head? ≠ some reader.comment ∧ Readable line := by
  have hnul : cstrOf line = [] ↔ line.head? = some 0 := by
    cases line with
    | nil => exact absurd rfl hne
    | cons c line =>
      by_cases hc : c = 0
      · simp [cstrOf, hc]
      · simp [cstrOf, hc]
  have hreadable : trimLine (cstrOf line) ≠ none ↔ Readable line := by
    rw [Ne, trimLine_eq_none, Readable, ← hnul]
    by_cases hnil : cstrOf line = []
    · simp [hnil]
    · simp [hnil]
  rw [← hreadable]
  unfold dataText
  cases htrim : trimLine (cstrOf line) with
  | none => simp
  | some text =>
    have hhead : some (text.headD 0) = line.head? := by
      rw [← cstrOf_head hne, List.headD_eq_head?_getD, trimLine_head htrim,
        List.headD_eq_head?_getD]
    rw [← hhead]
    simp

theorem ne_nil_of_mem_splitLines (h : line ∈ splitLines stream) : line ≠ [] := by
  obtain ⟨body, -, rfl | ⟨rfl, hne⟩⟩ := mem_splitLines h
  · simp
  · exact hne

/-- A line that fills a row has been counted. -/
theorem counted_of_dataText (hmem : line ∈ splitLines stream)
    (h : (dataText reader line).isSome = true) : counted reader line = true := by
  obtain ⟨hcomment, hread⟩ := (dataText_isSome (ne_nil_of_mem_splitLines hmem)).mp h
  have hbyte : ∃ c ∈ line, isSpace c = false := by
    rcases hread with hnul | ⟨c, hc, hspace⟩
    · exact ⟨0, List.mem_of_head? hnul, rfl⟩
    · exact ⟨c, List.takeWhile_subset _ (List.mem_of_mem_tail hc), hspace⟩
  obtain ⟨c, hc, hspace⟩ := hbyte
  have hblank : (c != newline && notBlank c) = true := by
    simp only [isSpace, Bool.or_eq_false_iff, Bool.and_eq_false_iff,
      decide_eq_false_iff_not] at hspace
    simp only [newline, notBlank, Bool.and_eq_true, bne_iff_ne]
    refine ⟨?_, ?_, ?_, ?_⟩
    · rintro rfl
      simp at hspace
    · rintro rfl
      simp at hspace
    · rintro rfl
      simp at hspace
    · rintro rfl
      simp at hspace
  simp only [counted, Bool.and_eq_true, bne_iff_ne, List.any_eq_true]
  exact ⟨hcomment, c, hc, by simpa using hblank⟩

/-- Every line fits the buffer of `csv_reader_parse`. -/
def ShortLines (stream : List UInt8) : Prop :=
  ∀ l ∈ splitLines stream, (l.takeWhile (· ≠ newline)).length < maxFieldSize - 1

theorem ShortLines.fgetsLines (h : ShortLines stream) :
    fgetsLines maxFieldSize stream = splitLines stream := by
  refine fgetsLines_eq fun l hl => ?_
  have hlen := h l hl
  obtain ⟨body, hbody, hl'⟩ := mem_splitLines hl
  have hpos : ∀ c ∈ body, decide (c ≠ newline) = true := by
    intro c hc
    rw [decide_eq_true_eq]
    rintro rfl
    exact hbody hc
  rcases hl' with rfl | ⟨rfl, -⟩
  · rw [List.takeWhile_append_of_pos hpos, List.length_append] at hlen
    rw [List.length_append, List.length_singleton]
    omega
  · rw [List.takeWhile_eq_self_iff.mpr hpos] at hlen
    omega

/-- The texts of the file, less the header, are no more than the rows. -/
theorem length_dataTexts_le (reader : CsvReader) (stream : List UInt8) :
    (dataTexts reader (splitLines stream)).length ≤
    (splitLines stream).countP (counted reader) := by
  rw [dataTexts, List.length_filterMap_eq_countP]
  exact List.countP_mono_left fun l hl hd => counted_of_dataText hl hd

/-- A parse that returns an array, taken apart. -/
theorem csvReaderParse_some (hshort : ShortLines stream) {arr : List (Option Row)}
    (h : csvReaderParse reader stream = some arr) :
    ∃ (num : Nat) (rows : List Row), dataTexts reader (splitLines stream) ≠ [] ∧
      0 < lineCount reader stream ∧
      ((dataTexts reader (splitLines stream)).drop (if reader.dropsHeader then 1 else 0)).map
        (parseCsvLine reader num) = rows.map some ∧
      arr = rows.map some ++ List.replicate (lineCount reader stream - rows.length) none := by
  unfold csvReaderParse at h
  rw [hshort.fgetsLines] at h
  split at h
  · cases h
  · next hcount =>
    split at h
    · cases h
    · next line hfirst =>
      split at h
      · cases h
      · split at h
        · cases h
        · next rows hrows =>
          have hpos := Nat.pos_of_ne_zero hcount
          refine ⟨_, rows, ?_, hpos, (parseLines_zero_iff hpos ?_).mp hrows,
            (Option.some.inj h).symm⟩
          · intro hnil
            rw [readFirstValidLine, ← dataTexts, hnil] at hfirst
            cases hfirst
          · have := length_dataTexts_le reader stream
            rw [lineCount_eq]
            omega

/-- The lines from which the rows are filled. -/
def dataLines (reader : CsvReader) (lines : List (List UInt8)) : List (List UInt8) :=
  lines.filter fun l => (dataText reader l).isSome

theorem dataTexts_eq_map (reader : CsvReader) (lines : List (List UInt8)) :
    (dataTexts reader lines).map some = (dataLines reader lines).map (dataText reader) := by
  induction lines with
  | nil => rfl
  | cons line lines ih =>
    cases htext : dataText reader line with
    | none => simpa [dataTexts, dataLines, htext] using ih
    | some text => simpa [dataTexts, dataLines, htext] using ih

/-- If the rows are filled, as many lines are counted as are parsed; these are then the
same. -/
theorem readable_of_countP_eq
    (h : (splitLines stream).countP (counted reader) =
      (dataTexts reader (splitLines stream)).length) :
    ∀ l ∈ splitLines stream, counted reader l = true → Readable l := by
  rw [dataTexts, List.length_filterMap_eq_countP, List.countP_eq_length_filter,
    List.countP_eq_length_filter] at h
  intro l hl hc
  have hsub : List.Sublist ((splitLines stream).filter fun l => (dataText reader l).isSome)
      ((splitLines stream).filter (counted reader)) := by
    have hfilter : (splitLines stream).filter (fun l => (dataText reader l).isSome) =
        ((splitLines stream).filter (counted reader)).filter
          fun l => (dataText reader l).isSome := by
      rw [List.filter_filter]
      refine List.filter_congr fun l hl => ?_
      cases hd : (dataText reader l).isSome with
      | false => rfl
      | true => simp [counted_of_dataText hl hd]
    rw [hfilter]
    exact List.filter_sublist
  have hmem : l ∈ (splitLines stream).filter fun l => (dataText reader l).isSome := by
    rw [hsub.eq_of_length h.symm]
    exact List.mem_filter.mpr ⟨hl, hc⟩
  exact ((dataText_isSome (ne_nil_of_mem_splitLines hl)).mp (List.mem_filter.mp hmem).2).2

/-- The rows of an array that `csv_reader_parse` returns have all been filled, from distinct
lines in file order, exactly when every line that `line_count` counts has a byte other than
white space after its first byte. -/
theorem filledInOrder_iff (reader : CsvReader) (stream : List UInt8) (arr : List (Option Row))
    (hshort : ShortLines stream) (h : csvReaderParse reader stream = some arr) :
    FilledInOrder reader stream arr ↔
      ∀ l ∈ splitLines stream, counted reader l = true → Readable l := by
  obtain ⟨num, rows, hne, hpos, hrows, rfl⟩ := csvReaderParse_some hshort h
  have hlen : rows.length = (dataTexts reader (splitLines stream)).length -
      if reader.dropsHeader then 1 else 0 := by
    rw [← List.length_map (f := some), ← hrows, List.length_map, List.length_drop]
  have htexts : 0 < (dataTexts reader (splitLines stream)).length := List.length_pos_iff.mpr hne
  have hle := length_dataTexts_le reader stream
  have hcount := lineCount_eq reader stream
  constructor
  · rintro ⟨-, -, -, -, hfilled⟩
    -- no entry is left over, so both passes saw the same number of lines
    have hfull : lineCount reader stream - rows.length = 0 := by
      by_contra hrest
      have hnone := hfilled none (List.mem_append_right _
        (List.mem_replicate.mpr ⟨hrest, rfl⟩))
      cases hnone
    have hskip : (if reader.dropsHeader then 1 else 0) ≤ 1 := by split <;> omega
    refine readable_of_countP_eq ?_
    omega
  · intro hread
    have hsame : (splitLines stream).countP (counted reader) =
        (dataTexts reader (splitLines stream)).length := by
      refine Nat.le_antisymm ?_ hle
      rw [dataTexts, List.length_filterMap_eq_countP]
      refine List.countP_mono_left fun l hl hc => ?_
      refine (dataText_isSome (ne_nil_of_mem_splitLines hl)).mpr ⟨?_, hread l hl hc⟩
      simp only [counted, Bool.and_eq_true, bne_iff_ne] at hc
      exact hc.1
    have hfull : lineCount reader stream - rows.length = 0 := by omega
    rw [hfull, List.replicate_zero, List.append_nil]
    refine ⟨num, (dataLines reader (splitLines stream)).drop
      (if reader.dropsHeader then 1 else 0), ?_, ?_, ?_⟩
    · exact (List.drop_sublist _ _).trans List.filter_sublist
    · rw [← hrows, List.map_drop, List.map_drop]
      congr 1
      have hbind := congrArg (List.map fun o => Option.bind o (parseCsvLine reader num))
        (dataTexts_eq_map reader (splitLines stream))
      simpa [List.map_map, Function.comp_def] using hbind
    · intro row hrow
      obtain ⟨r, -, rfl⟩ := List.mem_map.mp hrow
      rfl

/-- The file "a,b\n1,2\n". -/
def twoRows : List UInt8 := [0x61, 0x2C, 0x62, 0x0A, 0x31, 0x2C, 0x32, 0x0A]

theorem filledInOrder_twoRows :
    FilledInOrder csvReaderNew twoRows [some [[0x61], [0x62]], some [[0x31], [0x32]]] :=
  (filledInOrder_iff csvReaderNew twoRows _ (by unfold ShortLines; decide) (by decide)).mpr
    (by
      intro l hl _
      have hl : l ∈ [[0x61, 0x2C, 0x62, 0x0A], [0x31, 0x2C, 0x32, 0x0A]] := hl
      simp only [List.mem_cons, List.not_mem_nil, or_false] at hl
      rcases hl with rfl | rfl
      · exact .inr ⟨0x2C, by decide, rfl⟩
      · exact .inr ⟨0x2C, by decide, rfl⟩)

/-- One column of two values, "ab\n1\n": the second line is counted and passed over. -/
def oneColumn : List UInt8 := [0x61, 0x62, 0x0A, 0x31, 0x0A]

theorem oneColumn_not_filled :
    ShortLines oneColumn ∧
      csvReaderParse csvReaderNew oneColumn = some [some [[0x61, 0x62]], none] ∧
      ¬ FilledInOrder csvReaderNew oneColumn [some [[0x61, 0x62]], none] := by
  refine ⟨by unfold ShortLines; decide, by decide, ?_⟩
  rintro ⟨-, -, -, -, hfilled⟩
  have hnone := hfilled none (by simp)
  cases hnone

end Solidc.Csv
