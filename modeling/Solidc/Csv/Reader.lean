import Solidc.Lib.CNumber
import Solidc.Lib.CString
import Solidc.Lib.Lines
import Mathlib.Data.List.DropRight

/-! # The CSV reader

A stream is the list of its bytes; memory is always available. `NULL` is `none`, and an entry
of the array of rows that no line has filled is `none` too.

* `lineCount` — the first pass, over blocks of 64 KiB;
* `dataText` — the test that the second pass makes on each line;
* `parseCsvLine` — one line into fields;
* `csvReaderParse` — both passes.
-/

namespace Solidc.Csv

open CLib

/-- A string without its terminator. -/
abbrev Str : Type := List UInt8

/-- The fields of a row; `count` is their number. -/
abbrev Row : Type := List Str

/-- `MAX_FIELD_SIZE`. -/
def maxFieldSize : Nat := 1024

/-- `_CSV_READ_BUFSIZE`. -/
def csvReadBufsize : Nat := 64 * 1024

/-! ## Configuration -/

structure CsvReaderConfig where
  delim : UInt8
  quote : UInt8
  comment : UInt8
  hasHeader : Bool
  skipHeader : Bool

/-- The configurable part of a `CsvReader`. -/
structure CsvReader where
  delim : UInt8
  quote : UInt8
  comment : UInt8
  hasHeader : Bool
  skipHeader : Bool

/-- `set_default_config`: a comma, a double quote, `#`, and a header that is kept. -/
def csvReaderNew : CsvReader := ⟨0x2C, 0x22, 0x23, true, false⟩

/-- `csv_reader_setconfig`: a zero byte keeps what was there. -/
def csvReaderSetconfig (reader : CsvReader) (config : CsvReaderConfig) : CsvReader where
  delim := if config.delim ≠ 0 then config.delim else reader.delim
  quote := if config.quote ≠ 0 then config.quote else reader.quote
  comment := if config.comment ≠ 0 then config.comment else reader.comment
  hasHeader := config.hasHeader
  skipHeader := config.skipHeader

/-! ## Counting lines -/

/-- The local variables of `line_count`. -/
structure CountState where
  lines : Nat
  headerSkipped : Bool
  lineFirstChar : Bool
  skipThisLine : Bool
  blankLine : Bool

/-- At the end of a line: count it if it had content, unless it is the header. -/
def countLine (reader : CsvReader) (s : CountState) : CountState :=
  if !s.skipThisLine && !s.blankLine then
    if reader.hasHeader && reader.skipHeader && !s.headerSkipped && s.lines == 0 then
      { s with headerSkipped := true }
    else { s with lines := s.lines + 1 }
  else s

/-- `*c` is neither `'\r'`, `' '` nor `'\t'`. -/
def notBlank (c : UInt8) : Bool := c != 0x0D && (c != 0x20 && c != 0x09)

/-- One byte of `line_count`. -/
def countByte (reader : CsvReader) (s : CountState) (c : UInt8) : CountState :=
  if c = newline then
    { countLine reader s with skipThisLine := false, blankLine := true, lineFirstChar := true }
  else if s.skipThisLine then s
  else if s.lineFirstChar && c == reader.comment then
    { s with lineFirstChar := false, skipThisLine := true }
  else { s with lineFirstChar := false, blankLine := s.blankLine && !notBlank c }

/-- The loop over blocks. -/
def countBlocks (reader : CsvReader) : Nat → CountState → List UInt8 → CountState
  | 0, s, _ => s
  | fuel + 1, s, stream =>
    if stream = [] then s
    else countBlocks reader fuel ((stream.take csvReadBufsize).foldl (countByte reader) s)
      (stream.drop csvReadBufsize)

/-- `line_count`. A last line without a newline is counted after the loop. -/
def lineCount (reader : CsvReader) (stream : List UInt8) : Nat :=
  (countLine reader (countBlocks reader stream.length ⟨0, false, true, false, true⟩ stream)).lines

/-! ## Reading lines -/

/-- What is left of a line when `end` has moved down over white space, with `none` if it has
reached the first byte. `end` starts in front of an empty string, which is kept. -/
def trimLine : Str → Option Str
  | [] => some []
  | c :: rest =>
    if rest.rdropWhile isSpace = [] then none else some (c :: rest.rdropWhile isSpace)

/-- The text of a line that `csv_reader_parse` does not pass over. -/
def dataText (reader : CsvReader) (line : List UInt8) : Option Str :=
  match trimLine (cstrOf line) with
  | none => none
  | some text => if text.headD 0 = reader.comment then none else some text

/-- `read_first_valid_line`: the text of the first line that is not passed over. -/
def readFirstValidLine (reader : CsvReader) (lines : List (List UInt8)) : Option Str :=
  (lines.filterMap (dataText reader)).head?

/-- The delimiters outside quotes. -/
def countDelims (reader : CsvReader) : Bool → Str → Nat
  | _, [] => 0
  | insideQuotes, c :: text =>
    if c = reader.quote then countDelims reader (!insideQuotes) text
    else if c = reader.delim ∧ !insideQuotes then countDelims reader insideQuotes text + 1
    else countDelims reader insideQuotes text

/-- `get_num_fields`. -/
def getNumFields (reader : CsvReader) (text : Str) : Nat :=
  countDelims reader false text + if text = [] then 0 else 1

/-- `str_trim`: `str_rtrim`, then `str_ltrim`. -/
def strTrim (s : Str) : Str := (s.rdropWhile isSpace).dropWhile isSpace

/-- The loop of `parse_csv_line`, with the field read so far and the fields before it. -/
def splitFields (reader : CsvReader) : Str → Bool → Str → Row → Option Row
  | [], insideQuotes, field, fields =>
    if insideQuotes then none else some (fields ++ [strTrim field])
  | c :: text, insideQuotes, field, fields =>
    if c = reader.quote then splitFields reader text (!insideQuotes) field fields
    else if c = reader.delim ∧ !insideQuotes then
      splitFields reader text insideQuotes [] (fields ++ [strTrim field])
    -- the field would not fit its buffer: the line fails
    else if maxFieldSize - 1 ≤ field.length then none
    else splitFields reader text insideQuotes (field ++ [c]) fields

/-- `parse_csv_line`. The array of fields has `num_fields` entries; a line with more fields has
been written past its end when the count is compared, and fails. -/
def parseCsvLine (reader : CsvReader) (num : Nat) (text : Str) : Option Row :=
  match splitFields reader text false [] [] with
  | none => none
  | some fields => if fields.length = num then some fields else none

/-- The loop of `csv_reader_parse`: the rows that it fills, in order. `none` if a line fails. -/
def parseLines (reader : CsvReader) (num numRows : Nat) :
    List (List UInt8) → Nat → Bool → Option (List Row)
  | [], _, _ => some []
  | line :: lines, rowIndex, headerSkipped =>
    if rowIndex < numRows then
      match dataText reader line with
      | none => parseLines reader num numRows lines rowIndex headerSkipped
      | some text =>
        -- the header is the first line that is not passed over
        if reader.hasHeader && reader.skipHeader && rowIndex == 0 && !headerSkipped then
          parseLines reader num numRows lines rowIndex true
        else
          match parseCsvLine reader num text with
          | none => none
          | some row =>
            (parseLines reader num numRows lines (rowIndex + 1) headerSkipped).map (row :: ·)
    else some []

/-- `csv_reader_parse`: the array of rows, as long as `csv_reader_numrows`. Entries that the
loop does not reach keep what the allocator left there. -/
def csvReaderParse (reader : CsvReader) (stream : List UInt8) : Option (List (Option Row)) :=
  if lineCount reader stream = 0 then none
  else
    match readFirstValidLine reader (fgetsLines maxFieldSize stream) with
    | none => none
    | some line =>
      if getNumFields reader line = 0 then none
      else
        match parseLines reader (getNumFields reader line) (lineCount reader stream)
            (fgetsLines maxFieldSize stream) 0 false with
        | none => none
        | some rows =>
          some (rows.map some ++ List.replicate (lineCount reader stream - rows.length) none)

end Solidc.Csv
