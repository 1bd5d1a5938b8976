import Solidc.Lib.Lines

/-! # The CSV writer

The bytes that the functions append to the stream; the stream accepts them. `none` stands for
the call of `ferror` on the null pointer that ends a row without fields.
-/

namespace Solidc.Csv

open CLib

structure CsvWriterConfig where
  delim : UInt8
  quote : UInt8
  quoteAll : Bool

structure CsvWriter where
  delim : UInt8
  quote : UInt8
  newline : UInt8
  quoteAll : Bool

/-- `csvwriter_new`. -/
def csvwriterNew : CsvWriter := ⟨0x2C, 0x22, 0x0A, false⟩

/-- `csvwriter_setconfig`: the newline is not configurable. -/
def csvwriterSetconfig (writer : CsvWriter) (config : CsvWriterConfig) : CsvWriter where
  delim := if config.delim ≠ 0 then config.delim else writer.delim
  quote := if config.quote ≠ 0 then config.quote else writer.quote
  newline := writer.newline
  quoteAll := config.quoteAll

/-- `strchr(s, c) != NULL`; the terminator is found as well. -/
def strchr (s : List UInt8) (c : UInt8) : Bool := c == 0 || s.contains c

/-- `field_needs_quoting`. -/
def fieldNeedsQuoting (writer : CsvWriter) (field : List UInt8) : Bool :=
  strchr field writer.delim || strchr field writer.quote || strchr field writer.newline

/-- The loop of `write_quoted_field`: a quote is written twice. -/
def escapeQuotes (quote : UInt8) : List UInt8 → List UInt8
  | [] => []
  | c :: field =>
    if c = quote then quote :: quote :: escapeQuotes quote field
    else c :: escapeQuotes quote field

/-- `write_quoted_field`. -/
def writeQuotedField (quote : UInt8) (field : List UInt8) : List UInt8 :=
  quote :: (escapeQuotes quote field ++ [quote])

/-- `write_single_field`; a null pointer is written as the empty string. -/
def writeSingleField (writer : CsvWriter) (field : Option (List UInt8)) : List UInt8 :=
  if writer.quoteAll || fieldNeedsQuoting writer (field.getD []) then
    writeQuotedField writer.quote (field.getD [])
  else field.getD []

/-- The loop of `csvwriter_write_row`. -/
def writeFields (writer : CsvWriter) : List (Option (List UInt8)) → List UInt8
  | [] => []
  | [field] => writeSingleField writer field
  | field :: fields => writeSingleField writer field ++ writer.delim :: writeFields writer fields

/-- `csvwriter_write_row`. -/
def csvwriterWriteRow (writer : CsvWriter) (fields : List (Option (List UInt8))) :
    Option (List UInt8) :=
  if fields = [] then none else some (writeFields writer fields ++ [writer.newline])

/-- The file after a sequence of rows. -/
def writeRows (writer : CsvWriter) (rows : List (List (Option (List UInt8)))) :
    Option (List UInt8) :=
  (rows.mapM (csvwriterWriteRow writer)).map List.flatten

end Solidc.Csv
