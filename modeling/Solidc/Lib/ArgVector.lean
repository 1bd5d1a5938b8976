import Mathlib.Data.List.Basic
import Mathlib.Algebra.Ring.Nat

/-! # Command lines and their arguments

A program that is started with one text for all its arguments cuts that text itself. The rules
are those of the C runtime: outside quotes blanks separate the arguments, `2n` backslashes before
a quote stand for `n` and leave the quote its meaning, `2n + 1` stand for `n` and the quote
itself, other backslashes are literal, and two quotes inside quotes stand for one. The name of
the program is read without backslashes and quotes.

* `splitCommandLine` — the arguments that a command line stands for;
* `escaped` — a text as it is written between quotes, `readArg_escaped` — and what is read then;
* `readArg_bare` — a text that can be written as it is;
* `readProgram_quoted` — a program name between quotes.
-/

namespace CLib

/-- `"` -/
def quoteMark : UInt8 := 0x22

/-- The character that takes the quote's meaning away. -/
def backslash : UInt8 := 0x5C

/-- What separates two arguments. -/
def IsBlank (c : UInt8) : Prop := c = 0x20 ∨ c = 0x09

instance instDecidableIsBlank (c : UInt8) : Decidable (IsBlank c) :=
  inferInstanceAs (Decidable (_ ∨ _))

/-! ## Reading -/

/-- The rest of an argument and what follows it, inside quotes or not, after `n` backslashes. -/
def readArg : Bool → Nat → List UInt8 → List UInt8 × List UInt8
  | _, n, [] => (List.replicate n backslash, [])
  | quoted, n, c :: s =>
    if c = backslash then readArg quoted (n + 1) s
    else if c = quoteMark then
      if n % 2 = 1 then
        (List.replicate (n / 2) backslash ++ quoteMark :: (readArg quoted 0 s).1,
          (readArg quoted 0 s).2)
      else if quoted = true ∧ s.head? = some quoteMark then
        -- the first of the two takes the second one's meaning away
        (List.replicate (n / 2) backslash ++ (readArg quoted 1 s).1, (readArg quoted 1 s).2)
      else
        (List.replicate (n / 2) backslash ++ (readArg (!quoted) 0 s).1, (readArg (!quoted) 0 s).2)
    else if quoted = false ∧ IsBlank c then (List.replicate n backslash, c :: s)
    else
      (List.replicate n backslash ++ c :: (readArg quoted 0 s).1, (readArg quoted 0 s).2)

/-- The arguments from the end of another one on. -/
def readArgsLoop : Nat → List UInt8 → List (List UInt8)
  | 0, _ => []
  | fuel + 1, s =>
    match s.dropWhile (IsBlank ·) with
    | [] => []
    | c :: s => (readArg false 0 (c :: s)).1 :: readArgsLoop fuel (readArg false 0 (c :: s)).2

/-- The name of the program and what follows it. -/
def readProgram : Bool → List UInt8 → List UInt8 × List UInt8
  | _, [] => ([], [])
  | quoted, c :: s =>
    if c = quoteMark then readProgram (!quoted) s
    else if quoted = false ∧ IsBlank c then ([], c :: s)
    else (c :: (readProgram quoted s).1, (readProgram quoted s).2)

/-- The arguments that a command line stands for; the first is the name of the program. -/
def splitCommandLine (s : List UInt8) : List (List UInt8) :=
  (readProgram false s).1 :: readArgsLoop s.length (readProgram false s).2

/-- A text as it is written between quotes, after `n` backslashes. -/
def escaped : Nat → List UInt8 → List UInt8
  | n, [] => List.replicate (2 * n) backslash
  | n, c :: s =>
    if c = backslash then escaped (n + 1) s
    else if c = quoteMark then List.replicate (2 * n + 1) backslash ++ quoteMark :: escaped 0 s
    else List.replicate n backslash ++ c :: escaped 0 s

/-- The text that follows an argument: none, or a blank and more. -/
def Separated (s : List UInt8) : Prop := ∀ c ∈ s.head?, IsBlank c

attribute [local simp] readArg readProgram escaped

variable {quoted : Bool} {c : UInt8} {l s : List UInt8} {n k : Nat}

theorem readArg_backslashes (quoted : Bool) (n k : Nat) (s : List UInt8) :
    readArg quoted n (List.replicate k backslash ++ s) = readArg quoted (n + k) s := by
  induction k generalizing n with
  | zero => rfl
  | succ k ih =>
    rw [List.replicate_succ, List.cons_append, readArg, if_pos rfl, ih, Nat.add_right_comm]
    rfl

theorem readArg_quote_odd (hn : n % 2 = 1) : readArg quoted n (quoteMark :: s) =
    (List.replicate (n / 2) backslash ++ quoteMark :: (readArg quoted 0 s).1,
      (readArg quoted 0 s).2) := by
  rw [readArg, if_neg (by decide), if_pos rfl, if_pos hn]

/-- A quote that opens or closes. -/
theorem readArg_quote_even (hn : n % 2 = 0) (hs : quoted = true → s.head? ≠ some quoteMark) :
    readArg quoted n (quoteMark :: s) =
      (List.replicate (n / 2) backslash ++ (readArg (!quoted) 0 s).1,
        (readArg (!quoted) 0 s).2) := by
  have hgo : ¬ (quoted = true ∧ s.head? = some quoteMark) := fun h => hs h.1 h.2
  rw [readArg, if_neg (by decide), if_pos rfl, if_neg (by omega), if_neg hgo]

theorem readArg_other (hback : c ≠ backslash) (hquote : c ≠ quoteMark)
    (hblank : quoted = false → ¬ IsBlank c) : readArg quoted n (c :: s) =
      (List.replicate n backslash ++ c :: (readArg quoted 0 s).1, (readArg quoted 0 s).2) := by
  have hgo : ¬ (quoted = false ∧ IsBlank c) := fun h => hblank h.1 h.2
  rw [readArg, if_neg hback, if_neg hquote, if_neg hgo]

/-- An argument ends before a blank. -/
theorem readArg_separated (h : Separated s) (n : Nat) :
    readArg false n s = (List.replicate n backslash, s) := by
  cases s with
  | nil => rw [readArg]
  | cons c s =>
    have hc : IsBlank c := h c rfl
    rw [readArg, if_neg, if_neg, if_pos ⟨rfl, hc⟩] <;> rintro rfl <;> revert hc <;> decide

/-- A text without blanks and quotes stands for itself. -/
theorem readArg_bare (hblank : ∀ c ∈ l, ¬ IsBlank c) (hquote : quoteMark ∉ l)
    (hs : Separated s) (n : Nat) :
    readArg false n (l ++ s) = (List.replicate n backslash ++ l, s) := by
  induction l generalizing n with
  | nil => rw [List.nil_append, List.append_nil, readArg_separated hs]
  | cons c l ih =>
    obtain ⟨hc, hl⟩ := List.forall_mem_cons.mp hblank
    obtain ⟨hne, hnot⟩ := not_or.mp (mt List.mem_cons.mpr hquote)
    have hrest := ih hl hnot
    by_cases hback : c = backslash
    · subst hback
      rw [List.cons_append, readArg, if_pos rfl, hrest, List.replicate_succ', List.append_assoc]
      rfl
    · rw [List.cons_append, readArg_other hback (Ne.symm hne) fun _ => hc, hrest]
      rfl

/-- What is read between quotes is the text that was written there. -/
theorem readArg_escaped (l : List UInt8) (n : Nat) (hs : Separated s) :
    readArg true 0 (escaped n l ++ quoteMark :: s) = (List.replicate n backslash ++ l, s) := by
  have hhead : s.head? ≠ some quoteMark := by
    intro h
    have hblank := hs quoteMark h
    revert hblank
    decide
  induction l generalizing n with
  | nil =>
    -- the backslashes before the closing quote
    rw [escaped, readArg_backslashes, Nat.zero_add,
      readArg_quote_even (Nat.mul_mod_right 2 n) fun _ => hhead,
      Nat.mul_div_cancel_left n (by omega), Bool.not_true, readArg_separated hs]
    rfl
  | cons c l ih =>
    rw [escaped]
    by_cases hback : c = backslash
    · rw [if_pos hback, ih, hback, List.replicate_succ', List.append_assoc]
      rfl
    rw [if_neg hback]
    by_cases hquote : c = quoteMark
    · have hhalf : (2 * n + 1) / 2 = n := by omega
      rw [if_pos hquote, List.append_assoc, List.cons_append, readArg_backslashes, Nat.zero_add,
        readArg_quote_odd (by omega), ih, hhalf, hquote]
      rfl
    · rw [if_neg hquote, List.append_assoc, List.cons_append, readArg_backslashes, Nat.zero_add,
        readArg_other hback hquote (by simp), ih]
      rfl

/-- Writing between quotes adds backslashes only. -/
theorem mem_escaped (h : c ∈ escaped n l) : c = backslash ∨ c ∈ l := by
  induction l generalizing n with
  | nil => exact .inl (List.eq_of_mem_replicate h)
  | cons d l ih =>
    rw [escaped] at h
    split at h
    · exact (ih h).imp_right (List.mem_cons_of_mem d)
    split at h
    · next hquote =>
      rcases List.mem_append.mp h with h | h
      · exact .inl (List.eq_of_mem_replicate h)
      rcases List.mem_cons.mp h with h | h
      · exact .inr (h.trans hquote.symm ▸ List.mem_cons_self)
      · exact (ih h).imp_right (List.mem_cons_of_mem d)
    · rcases List.mem_append.mp h with h | h
      · exact .inl (List.eq_of_mem_replicate h)
      rcases List.mem_cons.mp h with h | h
      · exact .inr (h ▸ List.mem_cons_self)
      · exact (ih h).imp_right (List.mem_cons_of_mem d)

/-- Backslashes in front are counted. -/
theorem escaped_replicate (n k : Nat) (l : List UInt8) :
    escaped n (List.replicate k backslash ++ l) = escaped (n + k) l := by
  induction k generalizing n with
  | zero => rfl
  | succ k ih =>
    rw [List.replicate_succ, List.cons_append, escaped, if_pos rfl, ih, Nat.add_right_comm]
    rfl

theorem length_escaped_le (l : List UInt8) (n : Nat) :
    (escaped n l).length ≤ 2 * (n + l.length) := by
  induction l generalizing n with
  | nil => rw [escaped, List.length_replicate, List.length_nil, Nat.add_zero]
  | cons c l ih =>
    have hnext := ih (n + 1)
    have hstart := ih 0
    rw [escaped, List.length_cons]
    split
    · omega
    split <;> rw [List.length_append, List.length_replicate, List.length_cons] <;> omega

/-! ## The program -/

/-- The name that is read has no quotes. -/
theorem quoteMark_not_mem_readProgram (quoted : Bool) (s : List UInt8) :
    quoteMark ∉ (readProgram quoted s).1 := by
  induction s generalizing quoted with
  | nil => simp
  | cons c s ih =>
    rw [readProgram]
    split
    · exact ih _
    · next hc =>
      split
      · simp
      · intro hmem
        rcases List.mem_cons.mp hmem with h | h
        · exact hc h.symm
        · exact ih _ h

theorem readProgram_separated (h : Separated s) : readProgram false s = ([], s) := by
  cases s with
  | nil => rfl
  | cons c s =>
    have hc : IsBlank c := h c rfl
    rw [readProgram, if_neg, if_pos ⟨rfl, hc⟩]
    rintro rfl
    revert hc
    decide

theorem readProgram_append (hquote : quoteMark ∉ l) (hblank : quoted = false → ∀ c ∈ l, ¬ IsBlank c)
    (s : List UInt8) :
    readProgram quoted (l ++ s) = (l ++ (readProgram quoted s).1, (readProgram quoted s).2) := by
  induction l with
  | nil => rfl
  | cons c l ih =>
    obtain ⟨hne, hnot⟩ := not_or.mp (mt List.mem_cons.mpr hquote)
    have hgo : ¬ (quoted = false ∧ IsBlank c) :=
      fun h => hblank h.1 c List.mem_cons_self h.2
    rw [List.cons_append, readProgram, if_neg (Ne.symm hne), if_neg hgo,
      ih hnot fun hq c hc => hblank hq c (List.mem_cons_of_mem _ hc)]
    rfl

/-- A text without quotes is only longer between quotes by its last backslashes. -/
theorem escaped_of_not_mem (h : quoteMark ∉ l) (n : Nat) :
    ∃ k, escaped n l = List.replicate n backslash ++ l ++ List.replicate k backslash ∧
      (k = 0 ↔ (List.replicate n backslash ++ l).getLast? ≠ some backslash) := by
  induction l generalizing n with
  | nil =>
    refine ⟨n, ?_, ?_⟩
    · rw [escaped, List.append_nil, ← List.replicate_add, Nat.two_mul]
    · rw [List.append_nil]
      cases n with
      | zero => simp
      | succ n => simp [List.replicate_succ']
  | cons c l ih =>
    obtain ⟨hne, hnot⟩ := not_or.mp (mt List.mem_cons.mpr h)
    rw [escaped]
    by_cases hback : c = backslash
    · obtain ⟨k, hk, hlast⟩ := ih hnot (n + 1)
      have hmove : List.replicate (n + 1) backslash ++ l =
          List.replicate n backslash ++ backslash :: l := by
        rw [List.replicate_succ', List.append_assoc, List.singleton_append]
      rw [hmove] at hk hlast
      subst hback
      rw [if_pos rfl]
      exact ⟨k, hk, hlast⟩
    · obtain ⟨k, hk, hlast⟩ := ih hnot 0
      refine ⟨k, ?_, ?_⟩
      · rw [if_neg hback, if_neg (Ne.symm hne), hk]
        simp
      · rw [hlast, List.replicate_zero, List.nil_append]
        cases l with
        | nil => simp [hback]
        | cons d l => simp [List.getLast?_append]

/-- A program name between quotes: what is read has as many more backslashes at its end as were
written there. -/
theorem readProgram_quoted (hs : Separated s) (h : quoteMark ∉ l) :
    ∃ k, readProgram false (quoteMark :: (escaped 0 l ++ quoteMark :: s)) =
        (l ++ List.replicate k backslash, s) ∧
      (k = 0 ↔ l.getLast? ≠ some backslash) := by
  obtain ⟨k, hk, hlast⟩ := escaped_of_not_mem h 0
  rw [List.replicate_zero, List.nil_append] at hk hlast
  refine ⟨k, ?_, hlast⟩
  have hmem : quoteMark ∉ escaped 0 l := by
    intro hq
    rcases mem_escaped hq with hc | hl
    · cases hc
    · exact h hl
  rw [readProgram, if_pos rfl, Bool.not_false, readProgram_append hmem (by simp), readProgram,
    if_pos rfl, Bool.not_true, readProgram_separated hs, List.append_nil, hk]

end CLib
