import Solidc.Csv.Counting
import Solidc.Csv.Writer

/-! # Reading back what was written

The writer doubles a quote inside a quoted field. For the reader every quote only switches
between inside and outside, so that both quotes of a pair are dropped.

* `splitFields_writeFields` — a written line is read as its fields without their quotes;
* `csvReaderParse_writeRows` — so is a file;
* `roundTrip_iff` — the rows come back exactly when no field has a quote in it.
-/

namespace Solidc.Csv

open CLib

/-- A field as the reader returns it: without quotes, and trimmed. -/
def readField (quote : UInt8) (field : Str) : Str := strTrim (field.filter (· ≠ quote))

/-- No white space at either end. -/
def Trimmed (field : Str) : Prop :=
  (∀ c ∈ field.head?, isSpace c = false) ∧ ∀ c ∈ field.getLast?, isSpace c = false

/-- Strings that can stand in a row. -/
@[mk_iff]
structure PlainField (field : Str) : Prop where
  nulFree : 0 ∉ field
  noNewline : newline ∉ field
  noReturn : 0x0D ∉ field
  trimmed : Trimmed field

/-- A writer and a reader with the same characters; no header is expected. -/
@[mk_iff]
structure Matching (writer : CsvWriter) (reader : CsvReader) : Prop where
  delim : writer.delim = reader.delim
  quote : writer.quote = reader.quote
  delim_ne_quote : reader.delim ≠ reader.quote
  delim_ne_comment : reader.delim ≠ reader.comment
  quote_ne_comment : reader.quote ≠ reader.comment
  delim_visible : isSpace reader.delim = false
  quote_visible : isSpace reader.quote = false
  noHeader : reader.hasHeader = false
  noSkip : reader.skipHeader = false

/-- The row of a file of `n` columns. -/
@[mk_iff]
structure PlainRow (writer : CsvWriter) (reader : CsvReader) (n : Nat) (row : Row) : Prop where
  length : row.length = n
  plain : ∀ field ∈ row, PlainField field
  first : ∀ field ∈ row.head?, field ≠ [] ∧ field.head? ≠ some reader.comment
  short : (writeFields writer (row.map some)).length < maxFieldSize - 1

instance : DecidablePred Trimmed := fun _ => inferInstanceAs (Decidable (_ ∧ _))

instance : DecidablePred PlainField := fun f => decidable_of_iff' _ (plainField_iff f)

instance (writer : CsvWriter) (reader : CsvReader) : Decidable (Matching writer reader) :=
  decidable_of_iff' _ (matching_iff writer reader)

instance (writer : CsvWriter) (reader : CsvReader) (n : Nat) :
    DecidablePred (PlainRow writer reader n) := fun row =>
  decidable_of_iff' _ (plainRow_iff writer reader n row)

/-- The rows come back: the file is written, and parsed into the rows. -/
def RoundTrip (writer : CsvWriter) (reader : CsvReader) (rows : List Row) : Prop :=
  ∃ stream, writeRows writer (rows.map (·.map some)) = some stream ∧
    csvReaderParse reader stream = some (rows.map some)

/-- What configured writers and readers bring along. -/
structure Working (writer : CsvWriter) (reader : CsvReader) : Prop extends
    Matching writer reader where
  newline_eq : writer.newline = newline
  delim_ne_zero : reader.delim ≠ 0
  quote_ne_zero : reader.quote ≠ 0

variable {writer : CsvWriter} {reader : CsvReader} {n : Nat} {row fields : Row} {rows : List Row}
  {field f rest : Str}

/-! ## One line -/

theorem splitFields_quote (text : Str) (inside : Bool) :
    splitFields reader (reader.quote :: text) inside field fields =
      splitFields reader text (!inside) field fields := by
  simp [splitFields]

/-- Inside quotes every byte of the field is kept, but its quotes are lost. -/
theorem splitFields_escapeQuotes (hlen : field.length + f.length ≤ maxFieldSize - 1) :
    splitFields reader (escapeQuotes reader.quote f ++ rest) true field fields =
      splitFields reader rest true (field ++ f.filter (· ≠ reader.quote)) fields := by
  induction f generalizing field with
  | nil => simp [escapeQuotes]
  | cons c f ih =>
    rw [List.length_cons] at hlen
    by_cases hc : c = reader.quote
    · -- the pair of quotes switches to outside and back
      subst hc
      rw [escapeQuotes, if_pos rfl, List.cons_append, List.cons_append, splitFields_quote,
        splitFields_quote, Bool.not_true, Bool.not_false, ih (by omega)]
      simp
    · have hfit : ¬ maxFieldSize - 1 ≤ field.length := by omega
      rw [escapeQuotes, if_neg hc, List.cons_append, splitFields, if_neg hc, if_neg (by simp),
        if_neg hfit, ih (by simp; omega)]
      simp [hc]

/-- A field without delimiters and quotes is kept as it is. -/
theorem splitFields_plain (hd : reader.delim ∉ f) (hq : reader.quote ∉ f)
    (hlen : field.length + f.length ≤ maxFieldSize - 1) :
    splitFields reader (f ++ rest) false field fields =
      splitFields reader rest false (field ++ f) fields := by
  induction f generalizing field with
  | nil => simp
  | cons c f ih =>
    rw [List.length_cons] at hlen
    obtain ⟨hcd, hd⟩ := not_or.mp (mt List.mem_cons.mpr hd)
    obtain ⟨hcq, hq⟩ := not_or.mp (mt List.mem_cons.mpr hq)
    have hfit : ¬ maxFieldSize - 1 ≤ field.length := by omega
    rw [List.cons_append, splitFields, if_neg (Ne.symm hcq), if_neg fun h => hcd h.1.symm,
      if_neg hfit, ih hd hq (by simp; omega)]
    simp

theorem length_le_writeSingleField (writer : CsvWriter) (f : Str) :
    f.length ≤ (writeSingleField writer (some f)).length := by
  have hescape : f.length ≤ (escapeQuotes writer.quote f).length := by
    induction f with
    | nil => exact Nat.le_refl 0
    | cons c f ih =>
      unfold escapeQuotes
      split
      · simp only [List.length_cons]
        omega
      · simpa using ih
  unfold writeSingleField
  split
  · simp only [writeQuotedField, Option.getD_some, List.length_cons, List.length_append]
    omega
  · exact Nat.le_refl _

/-- A field as it is written, with quotes around it or without. -/
theorem Working.splitFields_writeSingleField (h : Working writer reader)
    (hlen : f.length ≤ maxFieldSize - 1) :
    splitFields reader (writeSingleField writer (some f) ++ rest) false [] fields =
      splitFields reader rest false (f.filter (· ≠ reader.quote)) fields := by
  unfold writeSingleField
  split
  · rw [writeQuotedField, h.quote, List.cons_append, splitFields_quote, List.append_assoc]
    refine (splitFields_escapeQuotes (by simpa using hlen)).trans ?_
    rw [List.singleton_append, splitFields_quote]
    rfl
  · next hquote =>
    simp only [fieldNeedsQuoting, strchr, Option.getD_some, h.delim, h.quote, Bool.or_eq_true,
      beq_iff_eq, List.contains_iff_mem, not_or] at hquote
    obtain ⟨-, ⟨⟨-, hd⟩, -, hq⟩, -⟩ := hquote
    have hfilter : f.filter (· ≠ reader.quote) = f :=
      List.filter_eq_self.mpr fun c hc => decide_eq_true fun heq => hq (heq ▸ hc)
    rw [hfilter]
    exact splitFields_plain hd hq (by simpa using hlen)

/-- A written row is read as its fields without their quotes. -/
theorem Working.splitFields_writeFields (h : Working writer reader) (hne : row ≠ [])
    (hlen : (writeFields writer (row.map some)).length ≤ maxFieldSize - 1) :
    splitFields reader (writeFields writer (row.map some)) false [] fields =
      some (fields ++ row.map (readField reader.quote)) := by
  induction row generalizing fields with
  | nil => exact absurd rfl hne
  | cons f row ih =>
    have hf := length_le_writeSingleField writer f
    cases row with
    | nil =>
      simp only [List.map_cons, List.map_nil, writeFields] at hlen ⊢
      have hone : splitFields reader (writeSingleField writer (some f) ++ []) false [] fields = _ :=
        h.splitFields_writeSingleField (hf.trans hlen)
      rw [List.append_nil] at hone
      rw [hone]
      rfl
    | cons g row =>
      simp only [List.map_cons, writeFields, List.length_append, List.length_cons] at hlen ⊢
      rw [h.splitFields_writeSingleField (by omega), h.delim, splitFields,
        if_neg h.delim_ne_quote, if_pos ⟨rfl, rfl⟩]
      refine (ih (List.cons_ne_nil g row) (by simp only [List.map_cons]; omega)).trans ?_
      simp [readField]

/-- `get_num_fields` counts the fields that `parse_csv_line` finds. -/
theorem splitFields_length {text : Str} {inside : Bool} {out : Row}
    (h : splitFields reader text inside field fields = some out) :
    out.length = fields.length + countDelims reader inside text + 1 := by
  induction text generalizing inside field fields with
  | nil =>
    unfold splitFields at h
    split at h
    · cases h
    · cases h
      simp [countDelims]
  | cons c text ih =>
    unfold splitFields at h
    unfold countDelims
    split at h
    · next hquote =>
      rw [if_pos hquote]
      exact ih h
    · next hquote =>
      rw [if_neg hquote]
      split at h
      · next hdelim =>
        rw [if_pos hdelim, ih h, List.length_append, List.length_singleton]
        omega
      · next hdelim =>
        rw [if_neg hdelim]
        split at h
        · cases h
        · exact ih h

/-! ## The shape of a written line -/

theorem mem_escapeQuotes {quote c : UInt8} (h : c ∈ escapeQuotes quote f) : c = quote ∨ c ∈ f := by
  induction f with
  | nil => cases h
  | cons d f ih =>
    unfold escapeQuotes at h
    split at h <;> grind

theorem mem_writeSingleField {c : UInt8} (h : c ∈ writeSingleField writer (some f)) :
    c = writer.quote ∨ c ∈ f := by
  unfold writeSingleField at h
  split at h
  · simp only [writeQuotedField, Option.getD_some, List.mem_cons, List.mem_append,
      List.not_mem_nil, or_false] at h
    rcases h with h | h | h
    · exact .inl h
    · exact mem_escapeQuotes h
    · exact .inl h
  · exact .inr h

theorem mem_writeFields {c : UInt8} (h : c ∈ writeFields writer (row.map some)) :
    c = writer.delim ∨ c = writer.quote ∨ ∃ f ∈ row, c ∈ f := by
  induction row with
  | nil => cases h
  | cons f row ih =>
    cases row with
    | nil =>
      rcases mem_writeSingleField h with h | h
      · exact .inr (.inl h)
      · exact .inr (.inr ⟨f, List.mem_cons_self, h⟩)
    | cons g row =>
      simp only [List.map_cons, writeFields, List.mem_append, List.mem_cons] at h
      rcases h with h | h | h
      · rcases mem_writeSingleField h with h | h
        · exact .inr (.inl h)
        · exact .inr (.inr ⟨f, List.mem_cons_self, h⟩)
      · exact .inl h
      · rcases ih h with h | h | ⟨f', hf', h⟩
        · exact .inl h
        · exact .inr (.inl h)
        · exact .inr (.inr ⟨f', List.mem_cons_of_mem f hf', h⟩)

theorem head_writeSingleField (writer : CsvWriter) (f : Str) :
    (writeSingleField writer (some f)).head? = some writer.quote ∨
      (writeSingleField writer (some f)).head? = f.head? := by
  unfold writeSingleField
  split
  · exact .inl rfl
  · exact .inr rfl

/-- The last byte of a field is visible, or there is none. -/
theorem Working.last_writeSingleField (h : Working writer reader) (hf : Trimmed f) {c : UInt8}
    (hc : (writeSingleField writer (some f)).getLast? = some c) : isSpace c = false := by
  unfold writeSingleField at hc
  split at hc
  · rw [writeQuotedField, ← List.cons_append, List.getLast?_concat] at hc
    cases hc
    rw [h.quote]
    exact h.quote_visible
  · exact hf.2 c hc

/-- A delimiter and the fields after it end in a visible byte. -/
theorem Working.last_writeFields (h : Working writer reader) (hne : row ≠ [])
    (hrow : ∀ f ∈ row, Trimmed f) {c : UInt8}
    (hc : (writer.delim :: writeFields writer (row.map some)).getLast? = some c) :
    isSpace c = false := by
  induction row with
  | nil => exact absurd rfl hne
  | cons f row ih =>
    cases row with
    | nil =>
      simp only [List.map_cons, List.map_nil, writeFields] at hc
      cases hw : writeSingleField writer (some f) with
      | nil =>
        rw [hw] at hc
        cases hc
        rw [h.delim]
        exact h.delim_visible
      | cons d l =>
        rw [hw, List.getLast?_cons_cons] at hc
        exact h.last_writeSingleField (hrow f List.mem_cons_self) (hw ▸ hc)
    | cons g row =>
      simp only [List.map_cons, writeFields] at hc
      rw [← List.cons_append, List.getLast?_append_cons] at hc
      exact ih (List.cons_ne_nil g row) (fun f hf => hrow f (List.mem_cons_of_mem _ hf)) hc

theorem rdropWhile_newline {text : Str}
    (hlast : ∀ c, text.getLast? = some c → isSpace c = false) :
    (text ++ [newline]).rdropWhile isSpace = text := by
  rw [List.rdropWhile_concat_pos _ _ _ (by decide)]
  refine List.rdropWhile_eq_self_iff.mpr fun hl => ?_
  have := hlast _ (List.getLast?_eq_some_getLast hl)
  simp [this]

/-- A written line is not passed over. -/
theorem Working.dataText_writeFields (h : Working writer reader) (hn : 2 ≤ n)
    (hrow : PlainRow writer reader n row) :
    newline ∉ writeFields writer (row.map some) ∧
      dataText reader (writeFields writer (row.map some) ++ [newline]) =
        some (writeFields writer (row.map some)) := by
  have hbytes : ∀ b : UInt8, writer.delim ≠ b → writer.quote ≠ b → (∀ f ∈ row, b ∉ f) →
      b ∉ writeFields writer (row.map some) := by
    intro b hd hq hf hb
    rcases mem_writeFields hb with hb | hb | ⟨f, hmem, hb⟩
    · exact hd hb.symm
    · exact hq hb.symm
    · exact hf f hmem hb
  have hnl : newline ∉ writeFields writer (row.map some) := by
    refine hbytes newline ?_ ?_ fun f hf => (hrow.plain f hf).noNewline
    · intro heq
      have := h.delim_visible
      rw [← h.delim, heq] at this
      cases this
    · intro heq
      have := h.quote_visible
      rw [← h.quote, heq] at this
      cases this
  have hnul : 0 ∉ writeFields writer (row.map some) :=
    hbytes 0 (h.delim ▸ h.delim_ne_zero) (h.quote ▸ h.quote_ne_zero)
      fun f hf => (hrow.plain f hf).nulFree
  refine ⟨hnl, ?_⟩
  -- the first field has a byte, and a delimiter follows it
  obtain ⟨f, g, row, rfl⟩ : ∃ f g fs, row = f :: g :: fs := by
    have := hrow.length
    match row, this with
    | f :: g :: fs, _ => exact ⟨f, g, fs, rfl⟩
    | [f], hl => simp at hl; omega
    | [], hl => simp at hl; omega
  obtain ⟨hne, hcomment⟩ := hrow.first f rfl
  obtain ⟨c, l, hcl⟩ : ∃ c l, writeSingleField writer (some f) = c :: l := by
    rcases head_writeSingleField writer f with hh | hh
    · exact List.exists_cons_of_ne_nil fun hnil => by simp [hnil] at hh
    · exact List.exists_cons_of_ne_nil fun hnil => hne (by simpa [hnil] using hh.symm)
  have hc : c ≠ reader.comment := by
    rcases head_writeSingleField writer f with hh | hh
    · rw [hcl] at hh
      cases hh
      rw [h.quote]
      exact h.quote_ne_comment
    · rw [hcl] at hh
      rw [← hh] at hcomment
      simpa using hcomment
  have hline : writeFields writer ((f :: g :: row).map some) =
      c :: (l ++ writer.delim :: writeFields writer ((g :: row).map some)) := by
    simp only [List.map_cons, writeFields, hcl, List.cons_append]
  have hcstr : cstrOf (writeFields writer ((f :: g :: row).map some) ++ [newline]) =
      writeFields writer ((f :: g :: row).map some) ++ [newline] := by
    refine List.takeWhile_eq_self_iff.mpr fun b hb => ?_
    rw [decide_eq_true_eq]
    rcases List.mem_append.mp hb with hb | hb
    · exact fun h0 => hnul (h0 ▸ hb)
    · rw [List.mem_singleton] at hb
      rw [hb]
      decide
  rw [dataText, hcstr, hline, List.cons_append, trimLine, rdropWhile_newline, if_neg (by simp)]
  · simp [hc]
  · intro d hd
    rw [List.getLast?_append_cons] at hd
    exact h.last_writeFields (List.cons_ne_nil g row)
      (fun f hf => (hrow.plain f (List.mem_cons_of_mem _ hf)).trimmed) hd

/-! ## The file -/

/-- The lines of the file. -/
def bodies (writer : CsvWriter) (rows : List Row) : List Str :=
  rows.map fun row => writeFields writer (row.map some)

theorem Working.writeRows_eq (h : Working writer reader) (hrows : ∀ row ∈ rows, row ≠ []) :
    writeRows writer (rows.map (·.map some)) =
      some ((bodies writer rows).map (· ++ [newline])).flatten := by
  have hmap : (rows.map (·.map some)).mapM (csvwriterWriteRow writer) =
      some ((bodies writer rows).map (· ++ [newline])) := by
    induction rows with
    | nil => rfl
    | cons row rows ih =>
      have hne : row.map some ≠ [] := by simpa using hrows row List.mem_cons_self
      have hrow : csvwriterWriteRow writer (row.map some) =
          some (writeFields writer (row.map some) ++ [newline]) := by
        rw [csvwriterWriteRow, if_neg hne, h.newline_eq]
      rw [List.map_cons, List.mapM_cons, hrow, ih fun r hr => hrows r (List.mem_cons_of_mem _ hr)]
      rfl
  rw [writeRows, hmap]
  rfl

theorem splitLines_flatten {lines : List Str} (h : ∀ l ∈ lines, newline ∉ l) :
    splitLines (lines.map (· ++ [newline])).flatten = lines.map (· ++ [newline]) := by
  induction lines with
  | nil => rfl
  | cons l lines ih =>
    rw [List.map_cons, List.flatten_cons, List.append_assoc, List.singleton_append,
      splitLines_append (h l List.mem_cons_self),
      ih fun l' hl' => h l' (List.mem_cons_of_mem l hl')]

/-- A file in which every line is a row of as many fields as the first one. -/
theorem csvReaderParse_eq {stream : List UInt8} (hshort : ShortLines stream)
    (hdrop : reader.dropsHeader = false)
    (hall : ∀ l ∈ splitLines stream, (dataText reader l).isSome = true) {first : Str}
    (hfirst : (dataTexts reader (splitLines stream)).head? = some first)
    (hnum : getNumFields reader first ≠ 0)
    (hrows : (dataTexts reader (splitLines stream)).map
      (parseCsvLine reader (getNumFields reader first)) = rows.map some) :
    csvReaderParse reader stream = some (rows.map some) := by
  have hlen : (dataTexts reader (splitLines stream)).length = rows.length := by
    simpa using congrArg List.length hrows
  have hcount : lineCount reader stream = rows.length := by
    rw [lineCount_eq, hdrop, ← hlen, dataTexts, List.length_filterMap_eq_countP,
      List.countP_eq_length.mpr hall,
      List.countP_eq_length.mpr fun l hl => counted_of_dataText hl (hall l hl)]
    rfl
  have hpos : 0 < rows.length := by
    rw [← hlen]
    refine List.length_pos_iff.mpr fun hnil => ?_
    rw [hnil] at hfirst
    cases hfirst
  have hparse : parseLines reader (getNumFields reader first) rows.length (splitLines stream) 0
      false = some rows :=
    (parseLines_zero_iff hpos (by omega)).mpr (by simpa [hdrop] using hrows)
  unfold csvReaderParse
  rw [hshort.fgetsLines, hcount, if_neg (Nat.ne_of_gt hpos), readFirstValidLine,
    ← dataTexts, hfirst]
  simp only [hnum, if_false, hparse]
  simp

theorem Working.parseCsvLine_writeFields (h : Working writer reader) (hn : 2 ≤ n)
    (hrow : PlainRow writer reader n row) :
    getNumFields reader (writeFields writer (row.map some)) = n ∧
      parseCsvLine reader n (writeFields writer (row.map some)) =
        some (row.map (readField reader.quote)) := by
  have hne : row ≠ [] := by
    rintro rfl
    have := hrow.length
    simp at this
    omega
  have hsplit : splitFields reader (writeFields writer (row.map some)) false [] [] = _ :=
    h.splitFields_writeFields hne (Nat.le_of_lt hrow.short)
  have hlen := splitFields_length hsplit
  rw [List.nil_append] at hsplit hlen
  rw [List.length_map, hrow.length, List.length_nil] at hlen
  constructor
  · have htext : writeFields writer (row.map some) ≠ [] := by
      intro hnil
      rw [hnil] at hlen
      simp [countDelims] at hlen
      omega
    rw [getNumFields, if_neg htext]
    omega
  · rw [parseCsvLine, hsplit]
    simp [hrow.length]

/-- The file is read as the rows without their quotes. -/
theorem Working.csvReaderParse_writeRows (h : Working writer reader) (hn : 2 ≤ n)
    (hne : rows ≠ []) (hrows : ∀ row ∈ rows, PlainRow writer reader n row) :
    ∃ stream, writeRows writer (rows.map (·.map some)) = some stream ∧
      csvReaderParse reader stream =
        some (rows.map fun row => some (row.map (readField reader.quote))) := by
  have hne' : ∀ row ∈ rows, row ≠ [] := by
    rintro row hrow rfl
    have := (hrows [] hrow).length
    simp at this
    omega
  refine ⟨_, h.writeRows_eq hne', ?_⟩
  -- each written row is one line of the stream, and not dropped as blank or as a comment
  have htext : ∀ l ∈ bodies writer rows,
      newline ∉ l ∧ dataText reader (l ++ [newline]) = some l := by
    intro l hl
    obtain ⟨row, hrow, rfl⟩ := List.mem_map.mp hl
    exact h.dataText_writeFields hn (hrows row hrow)
  have hlines := splitLines_flatten fun l hl => (htext l hl).1
  have htexts : dataTexts reader ((bodies writer rows).map (· ++ [newline])) =
      bodies writer rows := by
    rw [dataTexts, List.filterMap_map]
    refine (List.filterMap_congr fun l hl => ?_).trans (List.filterMap_some)
    exact (htext l hl).2
  obtain ⟨row, rows', rfl⟩ := List.exists_cons_of_ne_nil hne
  have hnum := (h.parseCsvLine_writeFields hn (hrows row List.mem_cons_self)).1
  have hmap : ∀ row' ∈ row :: rows', parseCsvLine reader n (writeFields writer (row'.map some)) =
      some (row'.map (readField reader.quote)) :=
    fun row' hrow' => (h.parseCsvLine_writeFields hn (hrows row' hrow')).2
  -- the first data line sets the number of fields for all of them
  have hfirst : (dataTexts reader (splitLines
      ((bodies writer (row :: rows')).map (· ++ [newline])).flatten)).head? =
        some (writeFields writer (row.map some)) := by
    rw [hlines, htexts]
    rfl
  have hparsed : (dataTexts reader (splitLines
      ((bodies writer (row :: rows')).map (· ++ [newline])).flatten)).map
        (parseCsvLine reader (getNumFields reader (writeFields writer (row.map some)))) =
      ((row :: rows').map (·.map (readField reader.quote))).map some := by
    rw [hlines, htexts, hnum, bodies, List.map_map, List.map_map]
    exact List.map_congr_left hmap
  have hparse := csvReaderParse_eq ?_ ?_ ?_ hfirst ?_ hparsed
  · rw [hparse, List.map_map]
    rfl
  · intro l hl
    rw [hlines] at hl
    obtain ⟨l', hl', rfl⟩ := List.mem_map.mp hl
    obtain ⟨r, hr, rfl⟩ := List.mem_map.mp hl'
    have hpos : ∀ c ∈ writeFields writer (r.map some), decide (c ≠ newline) = true := by
      intro c hc
      rw [decide_eq_true_eq]
      rintro rfl
      exact (htext _ hl').1 hc
    rw [List.takeWhile_append_of_pos hpos]
    simpa using (hrows r hr).short
  · rw [CsvReader.dropsHeader, h.noHeader]
    rfl
  · intro l hl
    rw [hlines] at hl
    obtain ⟨l', hl', rfl⟩ := List.mem_map.mp hl
    rw [(htext l' hl').2]
    rfl
  · rw [hnum]
    omega

/-! ## The round trip -/

theorem strTrim_of_trimmed (h : Trimmed f) : strTrim f = f := by
  have hright : f.rdropWhile isSpace = f := by
    refine List.rdropWhile_eq_self_iff.mpr fun hl => ?_
    have := h.2 _ (List.getLast?_eq_some_getLast hl)
    simp [this]
  rw [strTrim, hright]
  cases f with
  | nil => rfl
  | cons c f =>
    have := h.1 c rfl
    simp [this]

theorem mem_strTrim {c : UInt8} (h : c ∈ strTrim f) : c ∈ f :=
  (List.rdropWhile_prefix isSpace f).subset ((List.dropWhile_suffix isSpace).subset h)

/-- A field comes back exactly if it has no quote. -/
theorem readField_eq_iff {quote : UInt8} (h : Trimmed f) :
    readField quote f = f ↔ quote ∉ f := by
  constructor
  · intro heq hmem
    rw [← heq] at hmem
    have := List.mem_filter.mp (mem_strTrim hmem)
    simp at this
  · intro hmem
    have hfilter : f.filter (· ≠ quote) = f :=
      List.filter_eq_self.mpr fun c hc => decide_eq_true fun heq => hmem (heq ▸ hc)
    rw [readField, hfilter, strTrim_of_trimmed h]

theorem Matching.working {wc : CsvWriterConfig} {rc : CsvReaderConfig}
    (h : Matching (csvwriterSetconfig csvwriterNew wc) (csvReaderSetconfig csvReaderNew rc)) :
    Working (csvwriterSetconfig csvwriterNew wc) (csvReaderSetconfig csvReaderNew rc) where
  toMatching := h
  newline_eq := rfl
  delim_ne_zero := by
    simp only [csvReaderSetconfig, csvReaderNew]
    split
    · assumption
    · decide
  quote_ne_zero := by
    simp only [csvReaderSetconfig, csvReaderNew]
    split
    · assumption
    · decide

/-- The rows of a file come back exactly when none of their fields contains the quote. -/
theorem roundTrip_iff (wc : CsvWriterConfig) (rc : CsvReaderConfig) (n : Nat) (rows : List Row)
    (hmatch : Matching (csvwriterSetconfig csvwriterNew wc) (csvReaderSetconfig csvReaderNew rc))
    (hn : 2 ≤ n) (hne : rows ≠ [])
    (hrows : ∀ row ∈ rows, PlainRow (csvwriterSetconfig csvwriterNew wc)
      (csvReaderSetconfig csvReaderNew rc) n row) :
    RoundTrip (csvwriterSetconfig csvwriterNew wc) (csvReaderSetconfig csvReaderNew rc) rows ↔
      ∀ row ∈ rows, ∀ f ∈ row, (csvReaderSetconfig csvReaderNew rc).quote ∉ f := by
  obtain ⟨stream, hwrite, hparse⟩ := hmatch.working.csvReaderParse_writeRows hn hne hrows
  generalize csvReaderSetconfig csvReaderNew rc = reader at *
  generalize csvwriterSetconfig csvwriterNew wc = writer at *
  have hfield : ∀ row ∈ rows, (row.map (readField reader.quote) = row ↔
      ∀ f ∈ row, reader.quote ∉ f) := by
    intro row hrow
    nth_rewrite 2 [← List.map_id row]
    rw [List.map_inj_left]
    exact forall₂_congr fun f hf => readField_eq_iff ((hrows row hrow).plain f hf).trimmed
  have hback : RoundTrip writer reader rows ↔
      ∀ row ∈ rows, row.map (readField reader.quote) = row := by
    unfold RoundTrip
    simp only [hwrite, Option.some.injEq, exists_eq_left', hparse, List.map_inj_left]
  rw [hback]
  exact forall₂_congr hfield

/-- The row `a,b` and the row `c d,` with an empty second field. -/
def plainRows : List Row := [[[0x61], [0x62]], [[0x63, 0x20, 0x64], []]]

theorem roundTrip_plainRows :
    RoundTrip (csvwriterSetconfig csvwriterNew ⟨0, 0, false⟩)
      (csvReaderSetconfig csvReaderNew ⟨0, 0, 0, false, false⟩) plainRows :=
  (roundTrip_iff ⟨0, 0, false⟩ ⟨0, 0, 0, false, false⟩ 2 plainRows (by decide) (by decide)
    (by decide) (by decide +kernel)).mpr (by decide)

/-- The field `a"b` is written as `"a""b"` and comes back as `ab`. -/
theorem quote_lost : ∃ wc rc n rows,
    Matching (csvwriterSetconfig csvwriterNew wc) (csvReaderSetconfig csvReaderNew rc) ∧
    2 ≤ n ∧ rows ≠ [] ∧
    (∀ row ∈ rows, PlainRow (csvwriterSetconfig csvwriterNew wc)
      (csvReaderSetconfig csvReaderNew rc) n row) ∧
    ¬ RoundTrip (csvwriterSetconfig csvwriterNew wc) (csvReaderSetconfig csvReaderNew rc) rows := by
  refine ⟨⟨0, 0, false⟩, ⟨0, 0, 0, false, false⟩, 2, [[[0x61, 0x22, 0x62], [0x63]]], by decide,
    by decide, by decide, by decide +kernel, ?_⟩
  rintro ⟨stream, hwrite, hparse⟩
  have hstream : some [0x22, 0x61, 0x22, 0x22, 0x62, 0x22, 0x2C, 0x63, 0x0A] = some stream := hwrite
  cases hstream
  revert hparse
  decide

end Solidc.Csv
