import Solidc.Csv.RoundTrip
import Solidc.Dotenv.Interpolate
import Solidc.Lib.Lines

/-! # Loading a file of variables

`load_dotenv` takes a file line by line, and sets a variable for each line `key=value`. The value
may refer to variables, also to those that the lines before it have set.

* `loadLine_assign`, `loadLine_skip` — one turn of the loop, at a line that was written for it;
* `loadDotenv_loads` — a file of such lines sets its variables one after the other.
-/

namespace Solidc.Dotenv

open CLib Text Csv

/-! ## The code -/

def maxLineLength : Nat := 1024

/-- `remove_quotes`. -/
def removeQuotes (str : List UInt8) : List UInt8 :=
  if str.length < 2 then str
  else if str.head? = some 0x22 ∧ str.getLast? = some 0x22 ∨
      str.head? = some 0x27 ∧ str.getLast? = some 0x27 then str.tail.dropLast
  else str

/-- The string with these bytes. -/
def toText (bytes : List UInt8) : Option CText :=
  if h : (0 : UInt8) ∉ bytes ∧ bytes.length < 2 ^ 63 then some ⟨⟨bytes, h.1⟩, h.2⟩ else none

/-- `SETENV(key, value, 1) == 0`, with the variables afterwards; `mem` says whether there is
memory for it. -/
def setenv (mem : Bool) (env : Environment) (key value : List UInt8) : Bool × Environment :=
  if key = [] ∨ 0x3D ∈ key ∨ mem = false then (false, env)
  else (true, Function.update env key (toText value))

/-- `process_env_pair`. -/
def processEnvPair (mem : Bool) (env : Environment) (key value : List UInt8) :
    Option (Bool × Environment) :=
  let key := strTrim key
  if key = [] then some (false, env)
  else
    let value := removeQuotes (strTrim value)
    if 0x24 ∈ value ∧ 0x7B ∈ value ∧ 0x7D ∈ value then
      match interpolate env (some (value ++ [0])) (some (List.replicate maxLineLength 0))
        maxLineLength with
      | none => none
      | some (true, some result) => some (setenv mem env key (cstrOf result))
      | some _ => some (false, env)
    else some (setenv mem env key value)

/-- One turn of the loop of `load_dotenv`, with the bytes that `fgets` has stored; the boolean is
false if the line is an error. -/
def loadLine (mem : Bool) (env : Environment) (line : List UInt8) : Option (Bool × Environment) :=
  let line := cstrOf line
  let line := strTrim (if line.getLast? = some newline then line.dropLast else line)
  if line = [] ∨ line.head? = some 0x23 then some (true, env)
  else
    match line.idxOf? 0x3D with
    | none => some (false, env)
    | some i => processEnvPair mem env (line.take i) (line.drop (i + 1))

/-- The loop, from the line with the given number on. -/
def loadLoop (mem : Nat → Bool) : Nat → Environment → Bool → List (List UInt8) →
    Option (Bool × Environment)
  | _, env, hadErrors, [] => some (!hadErrors, env)
  | lineNumber, env, hadErrors, line :: lines => do
    let (ok, env) ← loadLine (mem lineNumber) env line
    loadLoop mem (lineNumber + 1) env (hadErrors || !ok) lines

/-- `load_dotenv` with the content of the file, if it can be opened. -/
def loadDotenv (file : Option (List UInt8)) (mem : Nat → Bool) (env : Environment) :
    Option (Bool × Environment) :=
  match file with
  | none => some (false, env)
  | some text => loadLoop mem 0 env false (fgetsLines maxLineLength text)

/-! ## Files -/

/-- A variable and its value, as they can stand in a line. -/
structure Assignment where
  key : List UInt8
  value : List UInt8
  key_ne : key ≠ []
  key_trimmed : Trimmed key
  key_first : key.head? ≠ some 0x23
  key_plain : ∀ c ∈ key, c ≠ 0 ∧ c ≠ newline ∧ c ≠ 0x3D
  value_plain : ∀ c ∈ value, c ≠ 0 ∧ c ≠ newline
  names : ∀ name, Piece.ref name ∈ pieces value → name.length < maxVarNameLen
  fits : key.length + value.length + 4 < maxLineLength

/-- `key="value"` -/
def Assignment.text (a : Assignment) : List UInt8 :=
  a.key ++ 0x3D :: 0x22 :: (a.value ++ [0x22])

/-- A line with white space only, or with a comment behind it. -/
structure Remark where
  text : List UInt8
  plain : ∀ c ∈ text, c ≠ 0 ∧ c ≠ newline
  ignored : ∀ c ∈ (text.dropWhile isSpace).head?, c = 0x23
  fits : text.length + 1 < maxLineLength

inductive FileLine where
  | assign (a : Assignment)
  | skip (r : Remark)

def FileLine.text : FileLine → List UInt8
  | .assign a => a.text
  | .skip r => r.text

def fileText (lines : List FileLine) : List UInt8 :=
  lines.flatMap fun l => l.text ++ [newline]

theorem endsInNothing_iff {getenv : Environment} {ps : List Piece} :
    ps.getLast?.any (fun p => (p.text getenv).isEmpty) = true ↔ EndsInNothing getenv ps := by
  cases h : ps.getLast? <;> simp [EndsInNothing, h]

instance instDecidableEndsInNothing (getenv : Environment) (ps : List Piece) :
    Decidable (EndsInNothing getenv ps) :=
  decidable_of_iff _ endsInNothing_iff

instance instDecidableAccepted (getenv : Environment) (resultSize len : Nat) (ps : List Piece) :
    Decidable (Accepted getenv resultSize len ps) :=
  inferInstanceAs (Decidable (_ ∧ ¬ _))

/-- What a line should do: its variable gets the expansion of its value, if there is room. -/
def FileLine.effect (mem : Bool) (env : Environment) : FileLine → Bool × Environment
  | .assign a =>
    if mem = true ∧ Accepted env maxLineLength 0 (pieces a.value) then
      (true, Function.update env a.key (toText (expansion env (pieces a.value))))
    else (false, env)
  | .skip _ => (true, env)

/-- What a file should do, from the line with the given number on: each line finds what those
before it have set. -/
def loaded (mem : Nat → Bool) : Nat → Environment → List FileLine → Bool × Environment
  | _, env, [] => (true, env)
  | n, env, l :: ls =>
    ((l.effect (mem n) env).1 && (loaded mem (n + 1) (l.effect (mem n) env).2 ls).1,
      (loaded mem (n + 1) (l.effect (mem n) env).2 ls).2)

/-! ## One line -/

variable {env : Environment} {mem : Bool} {c : UInt8} {l rest : List UInt8}

theorem cstrOf_eq (h : 0 ∉ l) : cstrOf l = l := by
  refine List.takeWhile_eq_self_iff.mpr ?_
  intro c hc
  exact decide_eq_true fun hzero => h (hzero ▸ hc)

/-- A line without its newline. -/
theorem loadLine_eq (h : ∀ c ∈ l, c ≠ 0 ∧ c ≠ newline) :
    loadLine mem env (l ++ [newline]) =
      if strTrim l = [] ∨ (strTrim l).head? = some 0x23 then some (true, env)
      else
        match (strTrim l).idxOf? 0x3D with
        | none => some (false, env)
        | some i => processEnvPair mem env ((strTrim l).take i) ((strTrim l).drop (i + 1)) := by
  have hzero : (0 : UInt8) ∉ l ++ [newline] := by
    intro hmem
    rcases List.mem_append.mp hmem with hl | hl
    · exact (h 0 hl).1 rfl
    · revert hl
      decide
  rw [loadLine, cstrOf_eq hzero]
  simp

theorem loadLine_skip (r : Remark) : loadLine mem env (r.text ++ [newline]) = some (true, env) := by
  rw [loadLine_eq r.plain]
  refine if_pos ?_
  cases hs : strTrim r.text with
  | nil => exact .inl rfl
  | cons c s =>
    -- the first character that is no white space is that of the whole line
    obtain ⟨t, ht⟩ := List.rdropWhile_prefix isSpace r.text
    have hfirst : (r.text.dropWhile isSpace).head? = some c := by
      rw [← ht, List.dropWhile_append]
      rw [strTrim] at hs
      rw [hs]
      rfl
    obtain rfl := r.ignored c hfirst
    exact .inr rfl

/-- Without references the pieces are the characters. -/
theorem pieces_plain (h : ¬ (0x24 ∈ l ∧ 0x7B ∈ l ∧ 0x7D ∈ l)) : pieces l = l.map Piece.char := by
  induction l using pieces.induct with
  | case1 => simp [pieces]
  | case2 c rest hclosing ih =>
    have hrest : ¬ (0x24 ∈ rest ∧ 0x7B ∈ rest ∧ 0x7D ∈ rest) := by
      rintro ⟨h1, h2, h3⟩
      exact h ⟨List.mem_cons_of_mem c h1, List.mem_cons_of_mem c h2, List.mem_cons_of_mem c h3⟩
    rw [pieces, hclosing, List.map_cons, ← ih hrest]
  | case3 c rest n hclosing ih =>
    obtain ⟨rfl, -, hrest⟩ := closing_some hclosing
    refine absurd ⟨List.mem_cons_self, ?_, ?_⟩ h
    · rw [hrest]
      simp
    · rw [hrest]
      simp

theorem expansion_char (env : Environment) (l : List UInt8) :
    expansion env (l.map Piece.char) = l := by
  induction l with
  | nil => rfl
  | cons c l ih =>
    rw [expansion, List.map_cons, List.flatMap_cons, ← expansion, ih]
    rfl

/-- A value without references fits if it is short enough. -/
theorem accepted_char {size : Nat} (h : l.length < size) :
    Accepted env size 0 (l.map Piece.char) := by
  rw [Accepted, expansion_char]
  refine ⟨by omega, ?_⟩
  rintro ⟨-, p, hp, hnothing⟩
  rw [List.getLast?_map] at hp
  obtain ⟨c, -, rfl⟩ := Option.map_eq_some_iff.mp hp
  cases hnothing

theorem lineBuffer_pos : 0 < maxLineLength := by decide

theorem lineBuffer_le : maxLineLength ≤ (List.replicate maxLineLength (0 : UInt8)).length := by
  rw [List.length_replicate]

theorem lineBuffer_lt : (List.replicate maxLineLength (0 : UInt8)).length < 2 ^ 63 := by
  rw [List.length_replicate]
  decide

/-- The buffer for an expansion. -/
def lineBuffer : ResultBuffer where
  bytes := List.replicate maxLineLength 0
  size := maxLineLength
  size_pos := lineBuffer_pos
  size_le := lineBuffer_le
  fits := lineBuffer_lt

theorem removeQuotes_quoted (v : List UInt8) : removeQuotes (0x22 :: (v ++ [0x22])) = v := by
  unfold removeQuotes
  have hlast : (0x22 :: (v ++ [0x22])).getLast? = some 0x22 := by
    rw [← List.cons_append, List.getLast?_append]
    rfl
  rw [if_neg (by simp), if_pos (.inl ⟨rfl, hlast⟩)]
  simp

theorem trimmed_quoted (v : List UInt8) : Trimmed (0x22 :: (v ++ [0x22])) := by
  constructor
  · rintro c hc
    cases hc
    rfl
  · rw [← List.cons_append, List.getLast?_append]
    rintro c hc
    cases hc
    rfl

/-- The variable of a line is set to the expansion of its value. -/
theorem processEnvPair_assign (a : Assignment) :
    processEnvPair mem env a.key (0x22 :: (a.value ++ [0x22])) =
      some ((FileLine.assign a).effect mem env) := by
  have hkey : ¬ (a.key = [] ∨ 0x3D ∈ a.key) := by
    rintro (h | h)
    · exact a.key_ne h
    · exact (a.key_plain _ h).2.2 rfl
  have hset : ∀ v, setenv mem env a.key v =
      if mem = true then (true, Function.update env a.key (toText v)) else (false, env) := by
    intro v
    rw [not_or] at hkey
    cases mem <;> simp [setenv, hkey]
  have hnul : (0 : UInt8) ∉ a.value := fun h => (a.value_plain _ h).1 rfl
  have hfits := a.fits
  simp only [processEnvPair, strTrim_of_trimmed a.key_trimmed, if_neg a.key_ne,
    strTrim_of_trimmed (trimmed_quoted a.value), removeQuotes_quoted, hset, FileLine.effect]
  by_cases hrefs : 0x24 ∈ a.value ∧ 0x7B ∈ a.value ∧ 0x7D ∈ a.value
  · rw [if_pos hrefs]
    obtain ⟨ok, result, hrun, hok, hresult⟩ :=
      interpolate_finishes env ⟨a.value, hnul⟩ lineBuffer a.names
    have hcall : interpolate env (some (a.value ++ [0])) (some (List.replicate maxLineLength 0))
        maxLineLength = some (ok, some result) := hrun
    rw [hcall]
    cases ok with
    | false =>
      have hnot : ¬ Accepted env maxLineLength 0 (pieces a.value) :=
        fun h => absurd (hok.mpr h) Bool.false_ne_true
      simp [hnot]
    | true =>
      have hacc : Accepted env maxLineLength 0 (pieces a.value) := hok.mp rfl
      simp only [hresult rfl, hacc, and_true]
  · have hplain := pieces_plain hrefs
    have hacc : Accepted env maxLineLength 0 (a.value.map Piece.char) :=
      accepted_char (by omega)
    rw [if_neg hrefs, hplain, expansion_char]
    simp only [hacc, and_true]

theorem loadLine_assign (a : Assignment) :
    loadLine mem env (a.text ++ [newline]) = some ((FileLine.assign a).effect mem env) := by
  have hplain : ∀ c ∈ a.text, c ≠ 0 ∧ c ≠ newline := by
    intro c hc
    simp only [Assignment.text, List.mem_append, List.mem_cons, List.not_mem_nil, or_false] at hc
    rcases hc with hc | rfl | rfl | hc | rfl
    · exact ⟨(a.key_plain c hc).1, (a.key_plain c hc).2.1⟩
    · decide
    · decide
    · exact a.value_plain c hc
    · decide
  obtain ⟨d, s, hkey⟩ := List.exists_cons_of_ne_nil a.key_ne
  have htrim : Trimmed a.text := by
    constructor
    · intro c hc
      rw [Assignment.text, hkey] at hc
      exact a.key_trimmed.1 c (by rw [hkey]; exact hc)
    · intro c hc
      rw [Assignment.text, ← List.cons_append, ← List.cons_append, ← List.append_assoc,
        List.getLast?_append] at hc
      cases hc
      rfl
  have hfirst : a.text.head? ≠ some 0x23 := by
    have hhead := a.key_first
    rw [hkey] at hhead
    rw [Assignment.text, hkey]
    exact hhead
  have hne : a.text ≠ [] := by
    rw [Assignment.text, hkey]
    exact List.cons_ne_nil _ _
  have hequals : (0x3D : UInt8) ∉ a.key := fun h => (a.key_plain _ h).2.2 rfl
  rw [loadLine_eq hplain, strTrim_of_trimmed htrim, if_neg (not_or.mpr ⟨hne, hfirst⟩),
    Assignment.text, idxOf?_append hequals]
  simp only [List.take_left, ← List.drop_drop, List.drop_left, List.drop_one, List.tail_cons]
  exact processEnvPair_assign a

/-! ## The file -/

theorem loadLine_effect (f : FileLine) :
    loadLine mem env (f.text ++ [newline]) = some (f.effect mem env) := by
  cases f with
  | assign a => exact loadLine_assign a
  | skip r => exact loadLine_skip r

theorem FileLine.newline_not_mem (f : FileLine) : newline ∉ f.text := by
  cases f with
  | assign a =>
    intro h
    simp only [FileLine.text, Assignment.text, List.mem_append, List.mem_cons, List.not_mem_nil,
      or_false] at h
    rcases h with h | h | h | h | h
    · exact (a.key_plain _ h).2.1 rfl
    · cases h
    · cases h
    · exact (a.value_plain _ h).2 rfl
    · cases h
  | skip r => exact fun h => (r.plain _ h).2 rfl

theorem FileLine.length_lt (f : FileLine) : (f.text ++ [newline]).length ≤ maxLineLength - 1 := by
  rw [List.length_append, List.length_singleton]
  cases f with
  | assign a =>
    have hfits := a.fits
    simp only [FileLine.text, Assignment.text, List.length_append, List.length_cons,
      List.length_nil]
    omega
  | skip r =>
    have hfits := r.fits
    simp only [FileLine.text]
    omega

/-- The lines that are read are those that were written. -/
theorem fgetsLines_fileText (lines : List FileLine) :
    fgetsLines maxLineLength (fileText lines) = lines.map fun f => f.text ++ [newline] := by
  have hsplit : splitLines (fileText lines) = lines.map fun f => f.text ++ [newline] := by
    induction lines with
    | nil => rfl
    | cons f lines ih =>
      have hcons : fileText (f :: lines) = f.text ++ newline :: fileText lines := by
        simp [fileText]
      rw [hcons, splitLines_append f.newline_not_mem, ih, List.map_cons]
  rw [fgetsLines_eq, hsplit]
  intro l hl
  rw [hsplit] at hl
  obtain ⟨f, -, rfl⟩ := List.mem_map.mp hl
  exact f.length_lt

/-- The loop over the lines that are left. -/
theorem loadLoop_lines (mem : Nat → Bool) (lines : List FileLine) (n : Nat) (env : Environment)
    (hadErrors : Bool) :
    loadLoop mem n env hadErrors (lines.map fun f => f.text ++ [newline]) =
      some (!hadErrors && (loaded mem n env lines).1, (loaded mem n env lines).2) := by
  induction lines generalizing n env hadErrors with
  | nil => simp [loadLoop, loaded]
  | cons f lines ih =>
    rw [List.map_cons, loadLoop, loadLine_effect, Option.bind_eq_bind, Option.bind_some, loaded]
    cases f.effect (mem n) env with
    | mk ok env =>
      dsimp only
      rw [ih, Bool.not_or, Bool.not_not, Bool.and_assoc]

end Solidc.Dotenv
