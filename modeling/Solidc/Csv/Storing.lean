import Solidc.Csv.RoundTrip

/-! # Where the fields of a row are stored

`parse_csv_line` allocates the array of a row for the fields of the first line, stores what it
finds in the line at hand, and compares the numbers afterwards. Here the stores are explicit: a
call gives the list of entries it has written, whatever memory the allocations find. With memory
it gives the row of `parseCsvLine`.
-/

namespace Solidc.Csv

/-- What `parse_csv_line` leaves: the entries of `row->fields` it wrote, in order, with `none` for
`NULL`, then `row->count` and what it returns. -/
structure Filling where
  stores : List (Nat × Option Str)
  count : Nat
  ok : Bool

/-- The entries of `row->fields` that are written. -/
def Filling.indices (r : Filling) : List Nat := r.stores.map Prod.fst

/-- `arena_strdup` of the trimmed field that goes to entry `count`; `mem` says which of these
allocations find memory. -/
def dupField (mem : Nat → Bool) (field : Str) (count : Nat) : Option Str :=
  if mem count then some (strTrim field) else none

/-- The loop of `parse_csv_line` and the last field after it. -/
def fillFields (reader : CsvReader) (mem : Nat → Bool) : Str → Bool → Str → Nat → Filling
  | [], insideQuotes, field, count =>
    -- an unterminated quoted field: those before it stay stored
    if insideQuotes then ⟨[], count, false⟩
    else
      match dupField mem field count with
      | none => ⟨[(count, none)], count, false⟩
      | some dup => ⟨[(count, some dup)], count + 1, true⟩
  | c :: text, insideQuotes, field, count =>
    if c = reader.quote then fillFields reader mem text (!insideQuotes) field count
    else if c = reader.delim ∧ !insideQuotes then
      match dupField mem field count with
      | none => ⟨[(count, none)], count, false⟩
      | some dup =>
        let r := fillFields reader mem text insideQuotes [] (count + 1)
        { r with stores := (count, some dup) :: r.stores }
    else if maxFieldSize - 1 ≤ field.length then ⟨[], count, false⟩
    else fillFields reader mem text insideQuotes (field ++ [c]) count

/-- `parse_csv_line` with its stores. `arena_alloc` gives no array without memory, and none of
size zero; `row->count` is `rowCount` then. -/
def fillRow (reader : CsvReader) (memRow : Bool) (mem : Nat → Bool) (rowCount num : Nat)
    (text : Str) : Filling :=
  if num = 0 ∨ !memRow then ⟨[], rowCount, false⟩
  else
    let r := fillFields reader mem text false [] 0
    { r with ok := r.ok && r.count == num }

/-- The line ends inside quotes. -/
def endsInside (reader : CsvReader) : Bool → Str → Bool
  | insideQuotes, [] => insideQuotes
  | insideQuotes, c :: text =>
    if c = reader.quote then endsInside reader (!insideQuotes) text
    else endsInside reader insideQuotes text

/-- The fields of a line that are stored before the count is compared: one at each delimiter
outside quotes, and the last one unless a quote is open. -/
def fieldsStored (reader : CsvReader) (insideQuotes : Bool) (text : Str) : Nat :=
  countDelims reader insideQuotes text + if endsInside reader insideQuotes text then 0 else 1

/-- For a line and an array of `num` entries, whatever memory there is: nothing is stored past
the array, and a line with another number of fields fails. -/
def StoresInRange (reader : CsvReader) (num : Nat) (text : Str) : Prop :=
  ∀ memRow mem rowCount,
    (∀ k ∈ (fillRow reader memRow mem rowCount num text).indices, k < num) ∧
      (countDelims reader false text + 1 ≠ num →
        (fillRow reader memRow mem rowCount num text).ok = false)

section fill

variable {reader : CsvReader} {mem : Nat → Bool} {inside : Bool} {field : Str} {count : Nat}

/-! ## What one byte adds -/

attribute [local simp] fillFields endsInside

theorem fieldsStored_quote {c : UInt8} (hquote : c = reader.quote) (text : Str) :
    fieldsStored reader inside (c :: text) = fieldsStored reader (!inside) text := by
  simp [fieldsStored, countDelims, hquote]

theorem fieldsStored_delim {c : UInt8} (hquote : c ≠ reader.quote)
    (hdelim : c = reader.delim ∧ !inside) (text : Str) :
    fieldsStored reader inside (c :: text) = fieldsStored reader inside text + 1 := by
  simp only [fieldsStored, countDelims, endsInside, if_neg hquote, if_pos hdelim]
  omega

theorem fieldsStored_other {c : UInt8} (hquote : c ≠ reader.quote)
    (hdelim : ¬ (c = reader.delim ∧ !inside)) (text : Str) :
    fieldsStored reader inside (c :: text) = fieldsStored reader inside text := by
  simp only [fieldsStored, countDelims, endsInside, if_neg hquote, if_neg hdelim]

/-! ## The loop -/

/-- No store goes past the fields of the line, with or without memory. -/
theorem fillFields_lt {text : Str} {k : Nat}
    (hk : k ∈ (fillFields reader mem text inside field count).indices) :
    k < count + fieldsStored reader inside text := by
  induction text generalizing inside field count with
  | nil =>
    unfold fillFields at hk
    -- the end of the line: the field under way is stored, unless a quote is open
    split at hk
    · cases hk
    · next hin =>
      have hone : fieldsStored reader inside [] = 1 := by
        simp [fieldsStored, countDelims, hin]
      rw [hone]
      split at hk
      all_goals
        have hkc : k = count := by simpa [Filling.indices] using hk
        omega
  | cons c text ih =>
    unfold fillFields at hk
    split at hk
    · next hquote =>
      rw [fieldsStored_quote hquote]
      exact ih hk
    next hquote =>
    split at hk
    · next hdelim =>
      rw [fieldsStored_delim hquote hdelim]
      split at hk
      · have hkc : k = count := by simpa [Filling.indices] using hk
        omega
      · rcases List.mem_cons.mp hk with hkc | hrest
        · dsimp only at hkc
          omega
        · have := ih hrest
          omega
    next hdelim =>
    rw [fieldsStored_other hquote hdelim]
    split at hk
    · cases hk
    · exact ih hk

/-- A line that gets through has stored each of its fields. -/
theorem fillFields_count {text : Str}
    (hok : (fillFields reader mem text inside field count).ok = true) :
    (fillFields reader mem text inside field count).count =
      count + countDelims reader inside text + 1 := by
  induction text generalizing inside field count with
  | nil =>
    unfold fillFields at hok ⊢
    split at hok
    · cases hok
    · next hin =>
      rw [if_neg hin]
      split at hok
      · cases hok
      · rfl
  | cons c text ih =>
    unfold fillFields at hok ⊢
    unfold countDelims
    split at hok
    · next hquote =>
      simp only [if_pos hquote]
      exact ih hok
    next hquote =>
    simp only [if_neg hquote]
    split at hok
    · next hdelim =>
      simp only [if_pos hdelim]
      split at hok
      · cases hok
      · refine (ih hok).trans ?_
        omega
    next hdelim =>
    simp only [if_neg hdelim]
    split at hok
    · cases hok
    · next hroom =>
      simp only [if_neg hroom]
      exact ih hok

/-- With memory for every field, a line that fits in the field buffer has each of its fields
stored, at the entries from `count` on. -/
theorem fillFields_indices {text : Str} (hroom : field.length + text.length < maxFieldSize) :
    (fillFields reader (fun _ => true) text inside field count).indices =
      List.range' count (fieldsStored reader inside text) := by
  induction text generalizing inside field count with
  | nil =>
    cases inside <;>
      simp [dupField, fieldsStored, countDelims, Filling.indices]
  | cons c text ih =>
    rw [List.length_cons] at hroom
    unfold fillFields
    split
    · next hquote =>
      rw [fieldsStored_quote hquote]
      exact ih (by omega)
    next hquote =>
    split
    · next hdelim =>
      rw [fieldsStored_delim hquote hdelim, List.range'_succ]
      have hrest := @ih inside [] (count + 1) (by rw [List.length_nil]; omega)
      simp only [dupField, if_true]
      exact congrArg (count :: ·) hrest
    next hdelim =>
    rw [fieldsStored_other hquote hdelim,
      if_neg (show ¬ maxFieldSize - 1 ≤ field.length by unfold maxFieldSize at *; omega)]
    exact ih (by rw [List.length_append, List.length_singleton]; omega)

/-- With memory the fields stored are those that `splitFields` collects. -/
theorem splitFields_eq_fillFields (reader : CsvReader) (text : Str) (inside : Bool) (field : Str)
    (fields : Row) :
    splitFields reader text inside field fields =
      if (fillFields reader (fun _ => true) text inside field fields.length).ok then
        some (fields ++
          (fillFields reader (fun _ => true) text inside field fields.length).stores.filterMap
            Prod.snd)
      else none := by
  induction text generalizing inside field fields with
  | nil => cases inside <;> simp [splitFields, dupField]
  | cons c text ih =>
    unfold splitFields fillFields
    split
    · exact ih ..
    split
    · have hrest := ih inside [] (fields ++ [strTrim field])
      rw [List.length_append, List.length_singleton] at hrest
      rw [hrest]
      simp [dupField]
    split
    · simp
    · exact ih ..

end fill

/-! ## The whole call -/

/-- With memory, and an array that has entries, `fillRow` leaves the row of `parseCsvLine`. -/
theorem parseCsvLine_eq_fillRow (reader : CsvReader) {num : Nat} (hnum : num ≠ 0) (rowCount : Nat)
    (text : Str) :
    parseCsvLine reader num text =
      if (fillRow reader true (fun _ => true) rowCount num text).ok then
        some ((fillRow reader true (fun _ => true) rowCount num text).stores.filterMap Prod.snd)
      else none := by
  have hfill : fillRow reader true (fun _ => true) rowCount num text =
      let r := fillFields reader (fun _ => true) text false [] 0
      { r with ok := r.ok && r.count == num } := by
    simp [fillRow, hnum]
  have hsplit := splitFields_eq_fillFields reader text false [] []
  rw [List.nil_append, List.length_nil] at hsplit
  rw [hfill]
  unfold parseCsvLine
  split
  · next hnone =>
    rw [hnone] at hsplit
    have hfail : (fillFields reader (fun _ => true) text false [] 0).ok = false := by
      by_contra hok
      rw [Bool.not_eq_false] at hok
      rw [if_pos hok] at hsplit
      cases hsplit
    simp [hfail]
  · next fields hsome =>
    have hlen := splitFields_length hsome
    rw [hsome] at hsplit
    split at hsplit
    · next hok =>
      have hcount := fillFields_count hok
      rw [List.length_nil] at hlen
      have hsame : fields.length = (fillFields reader (fun _ => true) text false [] 0).count := by
        omega
      rw [Option.some.injEq] at hsplit
      simp [hok, ← hsplit, hsame]
    · cases hsplit

end Solidc.Csv
