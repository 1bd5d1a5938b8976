import Mathlib.Data.List.GetD
import Solidc.Csv.RoundTrip
import Solidc.Lib.Buffer
import Solidc.Lib.Quoting

/-! # The fields of a line

`get_num_fields` and `parse_csv_line` are two scanners that switch at every quote. Here the second
one has its field buffer, which is filled, terminated and trimmed in place for one field after the
other.

* `strTrimIn_eq` — `str_trim` in a buffer;
* `splitBuffer_eq`, `parseCsvLineIn_eq` — the buffer holds the field that `splitFields` collects;
* `splitFields_cut`, `splitFields_odd` — what the scanner finds in a line;
* `parseCsvLine_cut` — the fields of a line are its pieces between the delimiters outside quotes.
-/

namespace Solidc.Csv

open CLib

/-! ## The code -/

/-- The loop of `str_rtrim`, from `len` down. -/
def strRtrimLoop (str : List UInt8) : Nat → Nat
  | 0 => 0
  | len + 1 => if isSpace (str.getD len 0) then strRtrimLoop str len else len + 1

/-- `str_rtrim`; `idxOf? 0` is `strlen`. -/
def strRtrim (str : List UInt8) : Option (List UInt8) := do
  if (← str[0]?) = 0 then some str
  else
    let len ← str.idxOf? 0
    store str (strRtrimLoop str len) [0]

/-- The loop of `str_ltrim`. -/
def strLtrimLoop (str : List UInt8) (len : Nat) : Nat → Nat → Nat
  | 0, start => start
  | fuel + 1, start =>
    if start < len ∧ isSpace (str.getD start 0) then strLtrimLoop str len fuel (start + 1)
    else start

/-- `str_ltrim`. -/
def strLtrim (str : List UInt8) : Option (List UInt8) := do
  if (← str[0]?) = 0 then some str
  else
    let len ← str.idxOf? 0
    let start := strLtrimLoop str len len 0
    if start = 0 then some str
    else
      let bytes ← load str start (len - start + 1)
      store str 0 bytes

/-- `str_trim`. -/
def strTrimIn (str : List UInt8) : Option (List UInt8) := do
  if (← str[0]?) = 0 then some str
  else
    let str ← strRtrim str
    strLtrim str

/-- The field in the first `fieldIndex` bytes of the buffer is terminated, trimmed and copied. -/
def endField (field : List UInt8) (fieldIndex : Nat) : Option (List UInt8 × Str) := do
  let field ← store field fieldIndex [0]
  let field ← strTrimIn field
  some (field, cstrOf field)

/-- The loop of `parse_csv_line` with its buffer, and what follows it; `some none` is false. -/
def splitBuffer (reader : CsvReader) :
    Str → Bool → List UInt8 → Nat → Row → Option (Option Row)
  | [], insideQuotes, field, fieldIndex, fields =>
    if insideQuotes then some none
    else do
      let (_, dup) ← endField field fieldIndex
      some (some (fields ++ [dup]))
  | c :: text, insideQuotes, field, fieldIndex, fields =>
    if c = reader.quote then splitBuffer reader text (!insideQuotes) field fieldIndex fields
    else if c = reader.delim ∧ !insideQuotes then do
      let (field, dup) ← endField field fieldIndex
      splitBuffer reader text insideQuotes field 0 (fields ++ [dup])
    else if fieldIndex ≥ maxFieldSize - 1 then some none
    else do
      let field ← store field fieldIndex [c]
      splitBuffer reader text insideQuotes field (fieldIndex + 1) fields

/-- `parse_csv_line`, its buffer being zero at first. -/
def parseCsvLineIn (reader : CsvReader) (num : Nat) (text : Str) : Option (Option Row) := do
  let fields ← splitBuffer reader text false (List.replicate maxFieldSize 0) 0 []
  some (fields.filter fun fields => fields.length = num)

/-! ## Trimming in place -/

variable {s rest str str' : List UInt8} {reader : CsvReader}

theorem strRtrimLoop_eq (s rest : List UInt8) :
    strRtrimLoop (s ++ rest) s.length = (s.rdropWhile isSpace).length := by
  induction s using List.reverseRecOn generalizing rest with
  | nil => rfl
  | append_singleton s c ih =>
    have hlast : (s ++ [c] ++ rest).getD s.length 0 = c := by
      rw [List.append_assoc, List.getD_append_right _ _ _ _ (Nat.le_refl _), Nat.sub_self]
      rfl
    rw [List.length_append, List.length_singleton, strRtrimLoop, hlast, List.rdropWhile_concat,
      List.append_assoc]
    split
    · exact ih ([c] ++ rest)
    · rw [List.length_append, List.length_singleton]

theorem strLtrimLoop_eq (s rest : List UInt8) {fuel start : Nat} (hfuel : s.length ≤ start + fuel)
    (hstart : start ≤ s.length) :
    strLtrimLoop (s ++ rest) s.length fuel start =
      start + ((s.drop start).takeWhile isSpace).length := by
  induction fuel generalizing start with
  | zero =>
    rw [List.drop_eq_nil_of_le (by omega)]
    rfl
  | succ fuel ih =>
    rw [strLtrimLoop]
    by_cases hlt : start < s.length
    · have hread : (s ++ rest).getD start 0 = s[start] := by
        rw [List.getD_append _ _ _ _ hlt, List.getD_eq_getElem _ _ hlt]
      rw [hread, List.drop_eq_getElem_cons hlt]
      by_cases hspace : isSpace s[start] = true
      · rw [if_pos ⟨hlt, hspace⟩, ih (by omega) hlt, List.takeWhile_cons_of_pos hspace,
          List.length_cons]
        exact Nat.succ_add_eq_add_succ _ _
      · rw [if_neg (fun h => hspace h.2), List.takeWhile_cons_of_neg hspace]
        rfl
    · rw [if_neg (fun h => hlt h.1), List.drop_eq_nil_of_le (by omega)]
      rfl

/-- A string that is not empty starts with a byte other than the NUL. -/
theorem first_byte (rest : List UInt8) (h : (0 : UInt8) ∉ s) (hne : s ≠ []) :
    ∃ b, (s ++ 0 :: rest)[0]? = some b ∧ b ≠ 0 := by
  obtain ⟨b, l, rfl⟩ := List.exists_cons_of_ne_nil hne
  exact ⟨b, rfl, fun hb => h (hb ▸ List.mem_cons_self)⟩

/-- Trailing white space is cut off in place. -/
theorem strRtrim_eq (rest : List UInt8) (h : (0 : UInt8) ∉ s) :
    ∃ rest', strRtrim (s ++ 0 :: rest) = some (s.rdropWhile isSpace ++ 0 :: rest') := by
  by_cases hs : s = []
  case pos =>
    rw [hs]
    exact ⟨rest, rfl⟩
  case neg =>
    obtain ⟨b, hfirst, hb⟩ := first_byte rest h hs
    -- the NUL goes to the first byte of what is cut off, or onto the old NUL
    obtain ⟨cut, hcut⟩ := List.rdropWhile_prefix isSpace s
    have hstore : store (s.rdropWhile isSpace ++ (cut ++ 0 :: rest)) (s.rdropWhile isSpace).length
        [0] = some (s.rdropWhile isSpace ++ ([0] ++ (cut ++ 0 :: rest).drop 1)) :=
      store_append (by simp; omega)
    rw [← List.append_assoc, hcut] at hstore
    refine ⟨(cut ++ 0 :: rest).drop 1, ?_⟩
    simp only [strRtrim, hfirst, Option.bind_eq_bind, Option.bind_some, hb, if_false,
      idxOf?_zero h, strRtrimLoop_eq, hstore]
    rfl

/-- Leading white space is moved over. -/
theorem strLtrim_eq (rest : List UInt8) (h : (0 : UInt8) ∉ s) :
    ∃ rest', strLtrim (s ++ 0 :: rest) = some (s.dropWhile isSpace ++ 0 :: rest') := by
  by_cases hs : s = []
  case pos =>
    rw [hs]
    exact ⟨rest, rfl⟩
  case neg =>
    obtain ⟨b, hfirst, hb⟩ := first_byte rest h hs
    have hloop : strLtrimLoop (s ++ 0 :: rest) s.length s.length 0 =
        0 + ((s.drop 0).takeWhile isSpace).length :=
      strLtrimLoop_eq s (0 :: rest) (by omega) (Nat.zero_le _)
    rw [List.drop_zero, Nat.zero_add] at hloop
    simp only [strLtrim, hfirst, Option.bind_eq_bind, Option.bind_some, hb, if_false,
      idxOf?_zero h, hloop]
    have hsplit := List.takeWhile_append_dropWhile (p := isSpace) (l := s)
    generalize s.takeWhile isSpace = lead at hsplit ⊢
    generalize s.dropWhile isSpace = tail at hsplit ⊢
    split
    case isTrue hzero =>
      rw [List.length_eq_zero_iff.mp hzero, List.nil_append] at hsplit
      exact ⟨rest, by rw [hsplit]⟩
    case isFalse =>
      -- `memmove` takes the text behind the white space and its NUL
      have hmem : s ++ 0 :: rest = lead ++ ((tail ++ [0]) ++ rest) := by
        rw [← hsplit, List.append_assoc, List.append_assoc]
        rfl
      have hcount : s.length - lead.length + 1 = (tail ++ [0]).length := by
        rw [← hsplit, List.length_append, List.length_append, Nat.add_sub_cancel_left]
        rfl
      have hstore : store ([] ++ (lead ++ ((tail ++ [0]) ++ rest))) ([] : List UInt8).length
          (tail ++ [0]) = some ([] ++ ((tail ++ [0]) ++
            (lead ++ ((tail ++ [0]) ++ rest)).drop (tail ++ [0]).length)) :=
        store_append (by simp; omega)
      rw [hcount, hmem, load_append]
      refine ⟨(lead ++ ((tail ++ [0]) ++ rest)).drop (tail ++ [0]).length, ?_⟩
      rw [Option.bind_some]
      refine hstore.trans ?_
      rw [List.nil_append, List.append_assoc]
      rfl

theorem strTrimIn_eq (rest : List UInt8) (h : (0 : UInt8) ∉ s) :
    ∃ rest', strTrimIn (s ++ 0 :: rest) = some (strTrim s ++ 0 :: rest') := by
  by_cases hs : s = []
  case pos =>
    rw [hs]
    exact ⟨rest, rfl⟩
  case neg =>
    obtain ⟨b, hfirst, hb⟩ := first_byte rest h hs
    obtain ⟨rest₁, hright⟩ := strRtrim_eq rest h
    obtain ⟨rest₂, hleft⟩ := strLtrim_eq rest₁
      (fun h0 => h ((List.rdropWhile_prefix isSpace s).subset h0))
    refine ⟨rest₂, ?_⟩
    simp only [strTrimIn, hfirst, Option.bind_eq_bind, Option.bind_some, hb, if_false, hright,
      hleft, strTrim]

/-- The functions leave an empty string alone. -/
theorem length_unless_empty {body : Option (List UInt8)}
    (h : (do if (← str[0]?) = 0 then some str else body) = some str')
    (hbody : body = some str' → str'.length = str.length) : str'.length = str.length := by
  obtain ⟨b, -, h⟩ := Option.bind_eq_some_iff.mp h
  split at h
  · cases h
    rfl
  · exact hbody h

theorem length_strRtrim (h : strRtrim str = some str') : str'.length = str.length := by
  refine length_unless_empty h fun h => ?_
  obtain ⟨len, -, h⟩ := Option.bind_eq_some_iff.mp h
  exact length_store h

theorem length_strLtrim (h : strLtrim str = some str') : str'.length = str.length := by
  refine length_unless_empty h fun h => ?_
  obtain ⟨len, -, h⟩ := Option.bind_eq_some_iff.mp h
  dsimp only at h
  split at h
  · cases h
    rfl
  · obtain ⟨bytes, -, h⟩ := Option.bind_eq_some_iff.mp h
    exact length_store h

theorem length_strTrimIn (h : strTrimIn str = some str') : str'.length = str.length := by
  refine length_unless_empty h fun h => ?_
  obtain ⟨cut, hright, hleft⟩ := Option.bind_eq_some_iff.mp h
  exact (length_strLtrim hleft).trans (length_strRtrim hright)

/-! ## The buffer -/

variable {field : Str} {fields : Row} {inside : Bool}

theorem endField_eq (hfield : (0 : UInt8) ∉ field) (hroom : 1 ≤ rest.length) :
    ∃ mem, endField (field ++ rest) field.length = some (mem, strTrim field) ∧
      mem.length = (field ++ rest).length := by
  have hstore : store (field ++ rest) field.length [0] = some (field ++ ([0] ++ rest.drop 1)) :=
    store_append hroom
  obtain ⟨rest', htrim⟩ := strTrimIn_eq (rest.drop 1) hfield
  have hdup : cstrOf (strTrim field ++ 0 :: rest') = strTrim field :=
    cstrOf_append fun h => hfield (mem_strTrim h)
  refine ⟨strTrim field ++ 0 :: rest', ?_, ?_⟩
  · rw [endField, hstore, Option.bind_eq_bind, Option.bind_some]
    change (strTrimIn (field ++ 0 :: rest.drop 1)).bind _ = _
    rw [htrim, Option.bind_some, hdup]
  · exact (length_strTrimIn htrim).trans (length_store hstore)

/-- The buffer holds the field read so far, whatever the fields before it have left behind it. -/
theorem splitBuffer_eq {text : Str} (htext : (0 : UInt8) ∉ text) (hfield : (0 : UInt8) ∉ field)
    (hsize : (field ++ rest).length = maxFieldSize) (hroom : field.length < maxFieldSize) :
    splitBuffer reader text inside (field ++ rest) field.length fields =
      some (splitFields reader text inside field fields) := by
  induction text generalizing inside field rest fields with
  | nil =>
    rw [List.length_append] at hsize
    obtain ⟨mem, hend, -⟩ := endField_eq hfield (show 1 ≤ rest.length by omega)
    rw [splitBuffer, splitFields, hend]
    cases inside <;> rfl
  | cons c text ih =>
    obtain ⟨hc, htext⟩ := not_or.mp (List.mem_cons.not.mp htext)
    have hrest : 1 ≤ rest.length := by
      rw [List.length_append] at hsize
      omega
    rw [splitBuffer, splitFields]
    split
    · exact ih htext hfield hsize hroom
    split
    · obtain ⟨mem, hend, hlen⟩ := endField_eq hfield hrest
      -- the next field overwrites the buffer from its start
      have hnext : splitBuffer reader text inside ([] ++ mem) ([] : Str).length
          (fields ++ [strTrim field]) = some (splitFields reader text inside [] _) :=
        ih htext List.not_mem_nil (hlen.trans hsize) (by decide)
      rw [hend]
      exact hnext
    split
    · rfl
    · next hfits =>
      have hstore : store (field ++ rest) field.length [c] = some (field ++ ([c] ++ rest.drop 1)) :=
        store_append hrest
      have hsize' := (length_store hstore).trans hsize
      rw [← List.append_assoc] at hstore hsize'
      have hindex : (field ++ [c]).length = field.length + 1 := List.length_append
      rw [hstore, ← hindex]
      refine ih htext ?_ hsize' (by omega)
      intro h
      rcases List.mem_append.mp h with h | h
      · exact hfield h
      · exact hc (List.mem_singleton.mp h)

/-- With its buffer the call gives the row of `parseCsvLine`. -/
theorem parseCsvLineIn_eq (reader : CsvReader) (num : Nat) {text : Str}
    (hnul : (0 : UInt8) ∉ text) :
    parseCsvLineIn reader num text = some (parseCsvLine reader num text) := by
  have hbuffer : splitBuffer reader text false ([] ++ List.replicate maxFieldSize 0)
      ([] : Str).length [] = some (splitFields reader text false [] []) :=
    splitBuffer_eq hnul List.not_mem_nil List.length_replicate (by decide)
  rw [List.nil_append, List.length_nil] at hbuffer
  rw [parseCsvLineIn, hbuffer, parseCsvLine]
  cases splitFields reader text false [] [] with
  | none => rfl
  | some fields =>
    simp only [Option.bind_eq_bind, Option.bind_some, Option.filter_some, decide_eq_true_eq]

/-! ## Pieces of the line -/

variable {pre text : Str}

/-- With a closed line, the scanner collects the pieces; `pre` is what it has read of the piece at
hand. -/
theorem splitFields_cut (hdistinct : reader.delim ≠ reader.quote)
    (hinside : inside = true ↔ ¬ Closed reader.quote pre)
    (hbare : Bare reader.delim reader.quote pre)
    (hclosed : Closed reader.quote (pre ++ text))
    (hroom : pre.length + text.length < maxFieldSize) :
    ∃ ps, Cut reader.delim reader.quote (pre ++ text) ps ∧
      splitFields reader text inside (pre.filter (· ≠ reader.quote)) fields =
        some (fields ++ ps.map (readField reader.quote)) := by
  induction text generalizing pre inside fields with
  | nil =>
    rw [List.append_nil] at hclosed ⊢
    refine ⟨[pre], Cut.single hclosed hbare, ?_⟩
    rw [splitFields, if_neg (fun h => hinside.mp h hclosed)]
    rfl
  | cons c text ih =>
    rw [List.length_cons] at hroom
    have hgrown : (pre ++ [c]).length + text.length < maxFieldSize := by
      rw [List.length_append, List.length_singleton]
      omega
    rw [List.append_cons] at hclosed ⊢
    rw [splitFields]
    by_cases hquote : c = reader.quote
    · -- a quote: the piece goes on, on the other side
      have hswitch : (!inside) = true ↔ ¬ Closed reader.quote (pre ++ [c]) := by
        rw [hquote, closed_concat_quote, not_not, Bool.not_eq_true', ← Bool.not_eq_true, hinside,
          not_not]
      have hfilter : (pre ++ [c]).filter (· ≠ reader.quote) = pre.filter (· ≠ reader.quote) := by
        simp [hquote]
      rw [if_pos hquote, ← hfilter]
      exact ih hswitch (hbare.concat fun h => absurd (h.symm.trans hquote) hdistinct) hclosed hgrown
    rw [if_neg hquote]
    have hsame : Closed reader.quote (pre ++ [c]) ↔ Closed reader.quote pre :=
      closed_concat_other hquote
    by_cases hdelim : c = reader.delim ∧ !inside
    · -- a delimiter outside quotes: the piece ends
      have hpre : Closed reader.quote pre := by
        by_contra hopen
        rw [hinside.mpr hopen] at hdelim
        exact absurd hdelim.2 (by decide)
      have hrest := (closed_append_of_closed (hsame.mpr hpre) text).mp hclosed
      have houtside : inside = true ↔ ¬ Closed reader.quote ([] : Str) :=
        iff_of_false (by simpa using hdelim.2) (not_not.mpr (closed_nil _))
      obtain ⟨ps, hcut, hrun⟩ := ih houtside (bare_nil _ _) hrest
        (by rw [List.length_nil]; omega)
      refine ⟨pre :: ps, ?_, ?_⟩
      · rw [← List.append_cons, hdelim.1]
        exact hcut.cons hpre hbare
      · rw [if_pos hdelim]
        refine hrun.trans ?_
        rw [List.append_assoc]
        rfl
    · -- another byte, or a delimiter inside quotes
      have hfilter : (pre ++ [c]).filter (· ≠ reader.quote) =
          pre.filter (· ≠ reader.quote) ++ [c] := by
        simp [hquote]
      have hle := List.length_filter_le (fun x => decide (x ≠ reader.quote)) pre
      have hquoted : c = reader.delim → ¬ Closed reader.quote pre := by
        intro hc
        rw [← hinside]
        by_contra hout
        exact hdelim ⟨hc, by simpa using hout⟩
      rw [if_neg hdelim, if_neg (by unfold maxFieldSize at *; omega), ← hfilter]
      exact ih (hinside.trans (not_congr hsame.symm)) (hbare.concat hquoted) hclosed hgrown

/-- With an odd number of quotes the line ends inside them. -/
theorem splitFields_odd {field : Str} (hinside : inside = true ↔ ¬ Closed reader.quote pre)
    (hopen : ¬ Closed reader.quote (pre ++ text)) :
    splitFields reader text inside field fields = none := by
  induction text generalizing pre inside field fields with
  | nil =>
    rw [List.append_nil] at hopen
    rw [splitFields, if_pos (hinside.mpr hopen)]
  | cons c text ih =>
    rw [List.append_cons] at hopen
    rw [splitFields]
    by_cases hquote : c = reader.quote
    · rw [if_pos hquote]
      refine ih ?_ hopen
      rw [hquote, closed_concat_quote, not_not, Bool.not_eq_true', ← Bool.not_eq_true, hinside,
        not_not]
    have hsame : inside = true ↔ ¬ Closed reader.quote (pre ++ [c]) :=
      hinside.trans (not_congr (closed_concat_other hquote).symm)
    rw [if_neg hquote]
    split
    · exact ih hsame hopen
    split
    · rfl
    · exact ih hsame hopen

/-! ## The whole call -/

/-- For a line that fits its buffer, with a delimiter that is no quote. If the quotes are even in
number, the fields are the pieces between the delimiters outside quotes, without their quotes and
trimmed, and there are as many as `get_num_fields` counts. Else the line fails. -/
theorem parseCsvLine_cut (reader : CsvReader) (text : Str) (hne : text ≠ [])
    (hnul : (0 : UInt8) ∉ text) (hshort : text.length < maxFieldSize)
    (hdistinct : reader.delim ≠ reader.quote) :
    (Even (text.count reader.quote) → ∃ ps, Cut reader.delim reader.quote text ps ∧
      (∀ ps', Cut reader.delim reader.quote text ps' → ps' = ps) ∧
      ps.length = getNumFields reader text ∧
      parseCsvLineIn reader (getNumFields reader text) text =
        some (some (ps.map (readField reader.quote)))) ∧
    (¬ Even (text.count reader.quote) → ∀ num, parseCsvLineIn reader num text = some none) := by
  have houtside : false = true ↔ ¬ Closed reader.quote ([] : Str) :=
    iff_of_false Bool.false_ne_true (not_not.mpr (closed_nil _))
  constructor
  case left =>
    intro heven
    obtain ⟨ps, hcut, hrun⟩ : ∃ ps, Cut reader.delim reader.quote text ps ∧
        splitFields reader text false [] [] = some ([] ++ ps.map (readField reader.quote)) :=
      splitFields_cut hdistinct houtside (bare_nil _ _) heven (by rw [List.length_nil]; omega)
    have hcount := splitFields_length hrun
    rw [List.nil_append, List.length_map, List.length_nil, Nat.zero_add] at hcount
    have hlen : ps.length = getNumFields reader text := by
      rw [getNumFields, if_neg hne]
      exact hcount
    refine ⟨ps, hcut, fun ps' h' => h'.unique hcut, hlen, ?_⟩
    rw [parseCsvLineIn_eq reader _ hnul, parseCsvLine, hrun]
    simp only [List.nil_append, List.length_map, hlen, if_true]
  case right =>
    intro hodd num
    rw [parseCsvLineIn_eq reader num hnul, parseCsvLine, splitFields_odd houtside hodd]

/-- `"a,b",, c`: a delimiter inside quotes, an empty field and a blank to be trimmed. -/
def threeFields : Str := [0x22, 0x61, 0x2C, 0x62, 0x22, 0x2C, 0x2C, 0x20, 0x63]

example : parseCsvLineIn csvReaderNew 3 threeFields =
    some (some [[0x61, 0x2C, 0x62], [], [0x63]]) := by decide +kernel

theorem parseCsvLine_cut_three : ∃ ps, Cut csvReaderNew.delim csvReaderNew.quote threeFields ps ∧
    ps.length = 3 ∧ parseCsvLineIn csvReaderNew 3 threeFields =
      some (some (ps.map (readField csvReaderNew.quote))) := by
  obtain ⟨ps, hcut, -, hlen, hrun⟩ := (parseCsvLine_cut csvReaderNew threeFields (by decide)
    (by decide) (by decide) (by decide)).1 (by decide)
  exact ⟨ps, hcut, hlen, hrun⟩

end Solidc.Csv
