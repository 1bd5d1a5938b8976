import Mathlib.Algebra.BigOperators.Group.List.Basic
import Solidc.Lib.ArgVector
import Solidc.Lib.Buffer
import Solidc.Lib.CString
import Solidc.Lib.Signed
import Solidc.Lib.Splitting
import Solidc.Text.Cstr

/-! # The command line of a new process

Windows starts a program with one text for all its arguments. `win32_create_process` writes the
elements of `argv` into a block, one behind the other, each as it is or between quotes.

* `Filled.argument` — what `append_escaped_win32_arg` appends;
* `win32CommandLine_split` — the block is large enough, and the new process finds the arguments
  in it; its own name only if that can be written.
-/

namespace Solidc.Process

open CLib Text

/-! ## The code -/

inductive CommandLineError where
  | invalidArgument
  | memory
deriving DecidableEq

/-- `strcat`. -/
def strcat (dest bytes : List UInt8) : Option (List UInt8) := do
  let len ← dest.idxOf? 0
  store dest len (bytes ++ [0])

/-- The value of an `int` expression, which must not overflow. -/
def intExpr (n : Nat) : Option Nat := if Fits32 n then some n else none

/-- `while (*p == '\\')`: the number of backslashes. -/
def numBs : CMem → Option Nat
  | [] => none
  | c :: p => if c = backslash then (numBs p).map (· + 1) else some 0

/-- `for (int k = 0; k < n; k++) strcat(dest, "\\");` -/
def catBackslashes : Nat → List UInt8 → Option (List UInt8)
  | 0, dest => some dest
  | n + 1, dest => do
    let dest ← strcat dest [backslash]
    catBackslashes n dest

/-- The loop of `append_escaped_win32_arg`. -/
def appendEscapedLoop : Nat → CMem → List UInt8 → Option (List UInt8)
  | 0, _, _ => none
  | fuel + 1, p, dest => do
    if (← p.rd 0) = 0 then some dest
    else
      let n ← numBs p
      let c ← p.rd n
      if c = 0 then
        let times ← intExpr (n * 2)
        catBackslashes times dest
      else if c = quoteMark then
        let times ← intExpr (n * 2 + 1)
        let dest ← catBackslashes times dest
        let dest ← strcat dest [quoteMark]
        appendEscapedLoop fuel (p.drop (n + 1)) dest
      else
        let dest ← catBackslashes n dest
        let len ← dest.idxOf? 0
        let dest ← store dest len [c, 0]
        appendEscapedLoop fuel (p.drop (n + 1)) dest

/-- `*arg != '\0' && !strpbrk(arg, " \t\n\v\"")` -/
def IsPlain (arg : List UInt8) : Prop :=
  arg ≠ [] ∧ ∀ c ∈ arg, c ∉ [0x20, 0x09, 0x0A, 0x0B, quoteMark]

instance instDecidableIsPlain (arg : List UInt8) : Decidable (IsPlain arg) :=
  inferInstanceAs (Decidable (_ ∧ _))

def appendEscapedWin32Arg (dest : List UInt8) (arg : CString) : Option (List UInt8) :=
  if IsPlain arg.bytes then strcat dest arg.bytes
  else do
    let dest ← strcat dest [quoteMark]
    let dest ← appendEscapedLoop arg.mem.length arg.mem dest
    strcat dest [quoteMark]

/-- The loop over `argv`, from its element `i` on. -/
def appendArgs : Nat → List CString → List UInt8 → Option (List UInt8)
  | _, [], cmdline => some cmdline
  | i, arg :: argv, cmdline => do
    let cmdline ← if i > 0 then strcat cmdline [0x20] else some cmdline
    let cmdline ← appendEscapedWin32Arg cmdline arg
    appendArgs (i + 1) argv cmdline

/-- `cmdline_len` without overflow. -/
def lineBound (argv : List CString) : Nat := (argv.map fun arg => arg.len * 2 + 4).sum

/-- The block that `win32_create_process` passes to `CreateProcessA`. -/
def win32CommandLine (argv : List CString) (malloc : Alloc) :
    Option (Except CommandLineError (List UInt8)) :=
  if argv = [] then some (.error .invalidArgument)
  else
    match malloc with
    | none => some (.error .memory)
    | some junk => do
      let cmdline ← store (extent junk (toSize (toSize (lineBound argv) + 1))) 0 [0]
      let cmdline ← appendArgs 0 argv cmdline
      some (.ok cmdline)

/-! ## What is written -/

/-- An argument as it stands in the command line. -/
def written (arg : List UInt8) : List UInt8 :=
  if IsPlain arg then arg else quoteMark :: (escaped 0 arg ++ [quoteMark])

/-- The block of `size` bytes holds the string `xs`. -/
structure Filled (size : Nat) (xs dest : List UInt8) : Prop where
  nulFree : (0 : UInt8) ∉ xs
  length : dest.length = size
  starts : ∃ rest, dest = xs ++ 0 :: rest

theorem quoteMark_nulFree : (0 : UInt8) ∉ [quoteMark] := by decide

variable {size n : Nat} {xs bytes dest : List UInt8} {a : CString} {argv : List CString}

theorem Filled.strcat (h : Filled size xs dest) (hnul : 0 ∉ bytes)
    (hroom : xs.length + bytes.length < size) :
    ∃ dest', strcat dest bytes = some dest' ∧ Filled size (xs ++ bytes) dest' := by
  obtain ⟨rest, rfl⟩ := h.starts
  have hlen := h.length
  rw [List.length_append, List.length_cons] at hlen
  have hfits : (bytes ++ [0]).length ≤ (0 :: rest).length := by
    simp only [List.length_append, List.length_cons, List.length_nil]
    omega
  have hstore := store_append (l := xs) hfits
  refine ⟨_, ?_, ?_, (length_store hstore).trans h.length, ?_⟩
  · rw [Process.strcat, idxOf?_zero h.nulFree]
    exact hstore
  · intro hmem
    exact (List.mem_append.mp hmem).elim h.nulFree hnul
  · exact ⟨rest.drop bytes.length, by simp⟩

theorem Filled.backslashes (h : Filled size xs dest) (hroom : xs.length + n < size) :
    ∃ dest', catBackslashes n dest = some dest' ∧
      Filled size (xs ++ List.replicate n backslash) dest' := by
  induction n generalizing xs dest with
  | zero => exact ⟨dest, rfl, by simpa using h⟩
  | succ n ih =>
    obtain ⟨dest₁, hcat, h₁⟩ := h.strcat (by decide : (0 : UInt8) ∉ [backslash]) (by
      rw [List.length_singleton]
      omega)
    obtain ⟨dest₂, hrest, h₂⟩ := ih h₁ (by
      rw [List.length_append, List.length_singleton]
      omega)
    refine ⟨dest₂, ?_, ?_⟩
    · rw [catBackslashes, hcat]
      exact hrest
    · rw [List.append_assoc, List.singleton_append, ← List.replicate_succ] at h₂
      exact h₂

theorem numBs_replicate {c : UInt8} (hc : c ≠ backslash) (n : Nat) (s : List UInt8) :
    numBs (List.replicate n backslash ++ c :: s) = some n := by
  induction n with
  | zero => exact if_neg hc
  | succ n ih =>
    rw [List.replicate_succ, List.cons_append, numBs, if_pos rfl, ih]
    rfl

/-- One turn of the loop, with `n` backslashes before `c`. -/
theorem appendEscapedLoop_turn {fuel : Nat} {c : UInt8} {s : List UInt8} (hc : c ≠ backslash)
    (hstart : c ≠ 0 ∨ 0 < n) :
    appendEscapedLoop (fuel + 1) (List.replicate n backslash ++ c :: s) dest =
      if c = 0 then (intExpr (n * 2)).bind fun times => catBackslashes times dest
      else if c = quoteMark then
        (intExpr (n * 2 + 1)).bind fun times =>
          (catBackslashes times dest).bind fun dest =>
            (Process.strcat dest [quoteMark]).bind fun dest => appendEscapedLoop fuel s dest
      else
        (catBackslashes n dest).bind fun dest =>
          (Process.strcat dest [c]).bind fun dest => appendEscapedLoop fuel s dest := by
  have hfirst : ∃ d, CMem.rd (List.replicate n backslash ++ c :: s) 0 = some d ∧ d ≠ 0 := by
    cases n with
    | zero => exact ⟨c, rfl, hstart.resolve_right (Nat.lt_irrefl 0)⟩
    | succ n => exact ⟨backslash, rfl, by decide⟩
  obtain ⟨d, hd, hd0⟩ := hfirst
  have hnext : CMem.rd (List.replicate n backslash ++ c :: s) n = some c := by
    rw [CMem.rd, List.getElem?_append_right (by simp)]
    simp
  have hdrop : (List.replicate n backslash ++ c :: s).drop (n + 1) = s := by
    rw [List.drop_append, List.drop_of_length_le (by simp)]
    simp
  rw [appendEscapedLoop]
  simp only [hd, numBs_replicate hc, hnext, hdrop, hd0, Option.bind_eq_bind, Option.bind_some,
    if_false]
  simp only [Process.strcat, Option.bind_eq_bind, Option.bind_assoc, List.cons_append,
    List.nil_append]

/-- A text begins with some backslashes, and goes on with something else. -/
theorem exists_backslashes (l : List UInt8) :
    ∃ n s, l = List.replicate n backslash ++ s ∧ s.head? ≠ some backslash := by
  induction l with
  | nil => exact ⟨0, [], rfl, by simp⟩
  | cons c l ih =>
    by_cases hc : c = backslash
    · obtain ⟨n, s, rfl, hs⟩ := ih
      exact ⟨n + 1, s, by rw [hc, List.replicate_succ, List.cons_append], hs⟩
    · exact ⟨0, c :: l, rfl, by simpa using hc⟩

/-- The loop appends the argument as it is written between quotes. -/
theorem Filled.escapedLoop {fuel : Nat} {l : List UInt8} (hl : 0 ∉ l)
    (hfuel : l.length < fuel) (hint : 2 * l.length + 4 < 2 ^ 31) (h : Filled size xs dest)
    (hroom : xs.length + (escaped 0 l).length < size) :
    ∃ dest', appendEscapedLoop fuel (l ++ [0]) dest = some dest' ∧
      Filled size (xs ++ escaped 0 l) dest' := by
  induction fuel generalizing l xs dest with
  | zero => omega
  | succ fuel ih =>
    obtain ⟨n, s, rfl, hs⟩ := exists_backslashes l
    rw [List.length_append, List.length_replicate] at hfuel hint
    rw [escaped_replicate, Nat.zero_add] at hroom ⊢
    have hint' : ∀ k, k ≤ 2 * n + 1 → intExpr k = some k := by
      intro k hk
      refine if_pos ?_
      unfold Fits32
      omega
    rw [List.append_assoc]
    cases s with
    | nil =>
      rw [escaped, List.length_replicate] at hroom
      rcases Nat.eq_zero_or_pos n with rfl | hpos
      · exact ⟨dest, rfl, by simpa [escaped] using h⟩
      · -- the backslashes before the closing quote
        obtain ⟨dest', hcat, h'⟩ := h.backslashes hroom
        refine ⟨dest', ?_, h'⟩
        rw [List.nil_append, appendEscapedLoop_turn (by decide) (.inr hpos), if_pos rfl,
          Nat.mul_comm, hint' _ (by omega), Option.bind_some, hcat]
    | cons c s =>
      have hc : c ≠ backslash := fun hc => hs (hc ▸ rfl)
      have hzero : c ≠ 0 := fun hc => hl (by simp [hc])
      have hnul : 0 ∉ s := fun hmem => hl (by simp [hmem])
      rw [escaped, if_neg hc] at hroom ⊢
      rw [List.length_cons] at hfuel hint
      rw [List.cons_append, appendEscapedLoop_turn hc (.inl hzero), if_neg hzero]
      by_cases hquote : c = quoteMark
      · -- the backslashes are doubled, and the quote is escaped
        subst hquote
        rw [if_pos rfl, if_pos rfl]
        rw [if_pos rfl, List.length_append, List.length_replicate, List.length_cons] at hroom
        obtain ⟨dest₁, hcat₁, h₁⟩ := h.backslashes (n := 2 * n + 1) (by omega)
        obtain ⟨dest₂, hcat₂, h₂⟩ := h₁.strcat quoteMark_nulFree (by
          rw [List.length_append, List.length_replicate, List.length_singleton]
          omega)
        obtain ⟨dest₃, hcat₃, h₃⟩ := ih hnul (by omega) (by omega) h₂ (by
          simp only [List.length_append, List.length_replicate, List.length_singleton]
          omega)
        refine ⟨dest₃, ?_, by simpa using h₃⟩
        rw [Nat.mul_comm, hint' _ (Nat.le_refl _), Option.bind_some, hcat₁,
          Option.bind_some, hcat₂, Option.bind_some, hcat₃]
      · rw [if_neg hquote, if_neg hquote]
        rw [if_neg hquote, List.length_append, List.length_replicate, List.length_cons] at hroom
        obtain ⟨dest₁, hcat₁, h₁⟩ := h.backslashes (n := n) (by omega)
        have hone : (0 : UInt8) ∉ [c] := by simpa using Ne.symm hzero
        obtain ⟨dest₂, hcat₂, h₂⟩ := h₁.strcat hone (by
          rw [List.length_append, List.length_replicate, List.length_singleton]
          omega)
        obtain ⟨dest₃, hcat₃, h₃⟩ := ih hnul (by omega) (by omega) h₂ (by
          simp only [List.length_append, List.length_replicate, List.length_singleton]
          omega)
        refine ⟨dest₃, ?_, by simpa using h₃⟩
        rw [hcat₁, Option.bind_some, hcat₂, Option.bind_some, hcat₃]

/-- An argument is appended as it is, or between quotes. -/
theorem Filled.argument (h : Filled size xs dest) (hint : 2 * a.len + 4 < 2 ^ 31)
    (hroom : xs.length + (written a.bytes).length < size) :
    ∃ dest', appendEscapedWin32Arg dest a = some dest' ∧
      Filled size (xs ++ written a.bytes) dest' := by
  rw [appendEscapedWin32Arg]
  unfold written at hroom ⊢
  by_cases hplain : IsPlain a.bytes
  · rw [if_pos hplain] at hroom ⊢
    rw [if_pos hplain]
    exact h.strcat a.nulFree hroom
  · rw [if_neg hplain] at hroom ⊢
    rw [if_neg hplain]
    rw [List.length_cons, List.length_append, List.length_singleton] at hroom
    obtain ⟨dest₁, hcat₁, h₁⟩ := h.strcat quoteMark_nulFree (by
      rw [List.length_singleton]
      omega)
    have hfuel : a.bytes.length < a.mem.length := by simp [CString.mem]
    obtain ⟨dest₂, hcat₂, h₂⟩ := h₁.escapedLoop a.nulFree hfuel hint (by
      rw [List.length_append, List.length_singleton]
      omega)
    obtain ⟨dest₃, hcat₃, h₃⟩ := h₂.strcat quoteMark_nulFree (by
      simp only [List.length_append, List.length_singleton]
      omega)
    refine ⟨dest₃, ?_, by simpa using h₃⟩
    simp only [hcat₁, CString.mem, Option.bind_eq_bind, Option.bind_some] at hcat₂ ⊢
    rw [hcat₂, Option.bind_some, hcat₃]

/-! ## The whole line -/

theorem length_written_le (arg : CString) : (written arg.bytes).length ≤ arg.len * 2 + 2 := by
  unfold written CString.len
  split
  · omega
  · have hlen := length_escaped_le arg.bytes 0
    rw [List.length_cons, List.length_append, List.length_singleton]
    omega

variable (argv) in
/-- The arguments behind others, each with its blank. -/
theorem Filled.args {i : Nat} (hi : 0 < i) (hint : lineBound argv < 2 ^ 31)
    (h : Filled size xs dest) (hroom : xs.length + lineBound argv < size) :
    ∃ dest', appendArgs i argv dest = some dest' ∧
      Filled size (xs ++ (argv.map fun arg => 0x20 :: written arg.bytes).flatten) dest' := by
  induction argv generalizing i xs dest with
  | nil => exact ⟨dest, rfl, by simpa using h⟩
  | cons arg argv ih =>
    have hbound : lineBound (arg :: argv) = arg.len * 2 + 4 + lineBound argv := rfl
    have hlen := length_written_le arg
    rw [hbound] at hint hroom
    obtain ⟨dest₁, hcat₁, h₁⟩ := h.strcat (by decide : (0 : UInt8) ∉ [0x20]) (by
      rw [List.length_singleton]
      omega)
    obtain ⟨dest₂, hcat₂, h₂⟩ := h₁.argument (a := arg) (by omega) (by
      rw [List.length_append, List.length_singleton]
      omega)
    obtain ⟨dest₃, hcat₃, h₃⟩ := ih (Nat.succ_pos i) (by omega) h₂ (by
      simp only [List.length_append, List.length_singleton]
      omega)
    refine ⟨dest₃, ?_, by simpa using h₃⟩
    rw [appendArgs, if_pos hi]
    simp only [Option.bind_eq_bind, Option.bind_some, hcat₁, hcat₂, hcat₃]

/-- The line in which the first argument stands alone and each other one behind a blank. -/
theorem win32CommandLine_written (arg : CString) (argv : List CString)
    (hint : lineBound (arg :: argv) < 2 ^ 31)
    (junk : Nat → UInt8) :
    ∃ cmdline, win32CommandLine (arg :: argv) (some junk) = some (.ok cmdline) ∧
      cmdline.length = lineBound (arg :: argv) + 1 ∧ cstrOf cmdline =
        written arg.bytes ++ (argv.map fun arg => 0x20 :: written arg.bytes).flatten := by
  have hbound : lineBound (arg :: argv) = arg.len * 2 + 4 + lineBound argv := rfl
  have hsize : toSize (toSize (lineBound (arg :: argv)) + 1) = lineBound (arg :: argv) + 1 := by
    unfold toSize
    omega
  have hlen := length_written_le arg
  obtain ⟨dest₀, hstore, h₀⟩ : ∃ dest₀,
      store (extent junk (lineBound (arg :: argv) + 1)) 0 [0] = some dest₀ ∧
      Filled (lineBound (arg :: argv) + 1) [] dest₀ := by
    have hfits : 0 + [(0 : UInt8)].length ≤
        (extent junk (lineBound (arg :: argv) + 1)).length := by
      rw [length_extent, List.length_singleton]
      omega
    have hstore := store_eq hfits
    refine ⟨_, hstore, List.not_mem_nil, ?_, _, rfl⟩
    rw [length_store hstore, length_extent]
  obtain ⟨dest₁, hcat₁, h₁⟩ := h₀.argument (a := arg) (by omega) (by
    rw [List.length_nil]
    omega)
  obtain ⟨dest₂, hcat₂, h₂⟩ := h₁.args argv Nat.one_pos (by omega) (by
    rw [List.nil_append]
    omega)
  rw [List.nil_append] at h₂
  refine ⟨dest₂, ?_, h₂.length, ?_⟩
  · rw [win32CommandLine, if_neg (List.cons_ne_nil arg argv)]
    simp only [hsize, hstore, Option.bind_eq_bind, Option.bind_some]
    rw [appendArgs, if_neg (Nat.lt_irrefl 0)]
    simp only [Option.bind_eq_bind, Option.bind_some, hcat₁, Nat.zero_add, hcat₂]
  · obtain ⟨rest, hrest⟩ := h₂.starts
    rw [hrest, cstrOf_append h₂.nulFree]

/-! ## What the new process reads -/

theorem IsPlain.not_blank {l : List UInt8} (h : IsPlain l) : ∀ c ∈ l, ¬ IsBlank c := by
  rintro c hc (rfl | rfl)
  · exact h.2 _ hc (by decide)
  · exact h.2 _ hc (by decide)

theorem IsPlain.quoteMark_not_mem {l : List UInt8} (h : IsPlain l) : quoteMark ∉ l :=
  fun hmem => h.2 _ hmem (by decide)

theorem separated_args (argv : List CString) :
    Separated ((argv.map fun arg => 0x20 :: written arg.bytes).flatten) := by
  cases argv with
  | nil => simp [Separated]
  | cons arg argv =>
    intro c hc
    obtain rfl : 0x20 = c := by simpa using hc
    decide

/-- An argument is read as it was before it was written. -/
theorem readArg_written (l : List UInt8) {s : List UInt8} (hs : Separated s) :
    readArg false 0 (written l ++ s) = (l, s) := by
  unfold written
  split
  · next h => exact readArg_bare h.not_blank h.quoteMark_not_mem hs 0
  · rw [List.cons_append, List.append_assoc, List.singleton_append,
      readArg_quote_even rfl (by simp), Bool.not_false, readArg_escaped l 0 hs]
    rfl

/-- What is written begins with no blank. -/
theorem written_cons (l : List UInt8) : ∃ c s, written l = c :: s ∧ ¬ IsBlank c := by
  unfold written
  split
  · next h =>
    obtain ⟨c, s, rfl⟩ := List.exists_cons_of_ne_nil h.1
    exact ⟨c, s, rfl, h.not_blank c List.mem_cons_self⟩
  · exact ⟨quoteMark, _, rfl, by decide⟩

/-- All arguments behind the program's name are read as they are. -/
theorem readArgsLoop_args {fuel : Nat} (hfuel : argv.length ≤ fuel) :
    readArgsLoop fuel (argv.map fun arg => 0x20 :: written arg.bytes).flatten =
      argv.map (·.bytes) := by
  induction argv generalizing fuel with
  | nil => cases fuel <;> rfl
  | cons arg argv ih =>
    obtain ⟨fuel, rfl⟩ : ∃ k, fuel = k + 1 := ⟨fuel - 1, by simp at hfuel; omega⟩
    have hread := readArg_written arg.bytes (separated_args argv)
    obtain ⟨c, s, hwritten, hc⟩ := written_cons arg.bytes
    have hblank : IsBlank 0x20 := .inl rfl
    rw [hwritten, List.cons_append] at hread
    rw [List.map_cons, List.flatten_cons, List.cons_append, hwritten, List.cons_append,
      readArgsLoop, List.dropWhile_cons_of_pos (by simpa using hblank),
      List.dropWhile_cons_of_neg (by simpa using hc)]
    simp only [hread]
    rw [ih (by simpa using hfuel), List.map_cons]

/-- The program's name can be written: it has no quote, and where it stands between quotes, it
does not end in a backslash. -/
def NameOk (l : List UInt8) : Prop :=
  quoteMark ∉ l ∧ (¬ IsPlain l → l.getLast? ≠ some backslash)

/-- A name without quotes is read with as many more backslashes as were written. -/
theorem readProgram_written {l s : List UInt8} (h : quoteMark ∉ l) (hs : Separated s) :
    ∃ k, readProgram false (written l ++ s) = (l ++ List.replicate k backslash, s) ∧
      (k = 0 ↔ (¬ IsPlain l → l.getLast? ≠ some backslash)) := by
  unfold written
  by_cases hplain : IsPlain l
  · refine ⟨0, ?_, by simp [hplain]⟩
    rw [if_pos hplain, readProgram_append h fun _ => hplain.not_blank, readProgram_separated hs]
    rfl
  · obtain ⟨k, hread, hk⟩ := readProgram_quoted hs h
    refine ⟨k, ?_, by simp [hplain, hk]⟩
    rw [if_neg hplain, List.cons_append, List.append_assoc, List.singleton_append, hread]

/-- The block is large enough for every `argv`. The new process finds all the arguments behind
its name in it, if the name has no quote, and its name too exactly if that can be written. -/
theorem win32CommandLine_split (arg : CString) (argv : List CString)
    (hint : lineBound (arg :: argv) < 2 ^ 31) (junk : Nat → UInt8) :
    ∃ cmdline, win32CommandLine (arg :: argv) (some junk) = some (.ok cmdline) ∧
      (quoteMark ∉ arg.bytes →
        (splitCommandLine (cstrOf cmdline)).tail = argv.map (·.bytes)) ∧
      (splitCommandLine (cstrOf cmdline) = (arg :: argv).map (·.bytes) ↔ NameOk arg.bytes) := by
  obtain ⟨cmdline, hline, -, hcstr⟩ := win32CommandLine_written arg argv hint junk
  have hs := separated_args argv
  have hlong : argv.length ≤ (cstrOf cmdline).length := by
    rw [hcstr, List.length_append, List.length_flatten, List.map_map]
    have hsum := List.length_le_sum_of_one_le
      (argv.map (List.length ∘ fun arg => 0x20 :: written arg.bytes)) (by simp)
    rw [List.length_map] at hsum
    omega
  have htail : quoteMark ∉ arg.bytes →
      (splitCommandLine (cstrOf cmdline)).tail = argv.map (·.bytes) := by
    intro hquote
    obtain ⟨k, hread, -⟩ := readProgram_written hquote hs
    rw [splitCommandLine, List.tail_cons, ← readArgsLoop_args hlong, hcstr, hread]
  refine ⟨cmdline, hline, htail, ?_⟩
  constructor
  · intro hsplit
    have hname : (readProgram false (cstrOf cmdline)).1 = arg.bytes := (List.cons.inj hsplit).1
    have hquote : quoteMark ∉ arg.bytes := by
      rw [← hname]
      exact quoteMark_not_mem_readProgram _ _
    refine ⟨hquote, ?_⟩
    obtain ⟨k, hread, hk⟩ := readProgram_written hquote hs
    rw [hcstr, hread] at hname
    -- no backslash may be added to the name
    have hlen := congrArg List.length hname
    rw [List.length_append, List.length_replicate] at hlen
    exact hk.mp (by omega)
  · rintro ⟨hquote, hlast⟩
    obtain ⟨k, hread, hk⟩ := readProgram_written hquote hs
    rw [← List.cons_head_tail (l := splitCommandLine (cstrOf cmdline)) (List.cons_ne_nil _ _),
      htail hquote, List.map_cons]
    congr 1
    show (readProgram false (cstrOf cmdline)).1 = arg.bytes
    rw [hcstr, hread, hk.mpr hlast]
    exact List.append_nil _

/-- `a b` -/
def spaced : List UInt8 := [0x61, 0x20, 0x62]

/-- `"\` -/
def quoted : List UInt8 := [0x22, 0x5C]

theorem spaced_nulFree : (0 : UInt8) ∉ spaced := by decide

theorem quoted_nulFree : (0 : UInt8) ∉ quoted := by decide

theorem win32CommandLine_split_spaced : ∃ cmdline,
    win32CommandLine [⟨spaced, spaced_nulFree⟩, ⟨quoted, quoted_nulFree⟩] (some fun _ => 1) =
      some (.ok cmdline) ∧ splitCommandLine (cstrOf cmdline) = [spaced, quoted] := by
  obtain ⟨cmdline, hline, -, hsplit⟩ := win32CommandLine_split ⟨spaced, spaced_nulFree⟩
    [⟨quoted, quoted_nulFree⟩] (by decide) fun _ => 1
  exact ⟨cmdline, hline, hsplit.mpr ⟨by decide, by decide⟩⟩

end Solidc.Process
