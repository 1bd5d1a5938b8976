import Mathlib.Data.List.Basic

/-! # Reading a stream line by line

* `splitLines` — the lines of a stream, each with its newline; the last may lack it;
* `fgets` — one line, or as much of it as the buffer holds;
* `fgetsLines` — what repeated calls of `fgets` return; these are the lines when the buffer
  holds every one of them (`fgetsLines_eq`).
-/

namespace CLib

/-- `'\n'`. -/
def newline : UInt8 := 10

/-- The lines of a stream. -/
def splitLines : List UInt8 → List (List UInt8)
  | [] => []
  | c :: s =>
    if c = newline then [c] :: splitLines s
    else
      match splitLines s with
      | [] => [[c]]
      | l :: ls => (c :: l) :: ls

/-- At most `k` bytes, up to and with a newline, and the rest of the stream. -/
def readLine : Nat → List UInt8 → List UInt8 × List UInt8
  | 0, s => ([], s)
  | _ + 1, [] => ([], [])
  | k + 1, c :: s =>
    if c = newline then ([c], s)
    else (c :: (readLine k s).1, (readLine k s).2)

/-- `fgets` with a buffer of `size` bytes: one of them is for the terminator. -/
def fgets (size : Nat) (stream : List UInt8) : Option (List UInt8 × List UInt8) :=
  if stream = [] then none else some (readLine (size - 1) stream)

/-- Repeated calls of `fgets`; each reads at least one byte. -/
def fgetsLoop (size : Nat) : Nat → List UInt8 → List (List UInt8)
  | 0, _ => []
  | fuel + 1, stream =>
    match fgets size stream with
    | none => []
    | some (line, rest) => line :: fgetsLoop size fuel rest

/-- The lines that `fgets` returns until the end of the stream. -/
def fgetsLines (size : Nat) (stream : List UInt8) : List (List UInt8) :=
  fgetsLoop size stream.length stream

attribute [local simp] splitLines readLine fgetsLoop

variable {s : List UInt8} {k size : Nat}

theorem splitLines_eq_nil : splitLines s = [] ↔ s = [] := by
  cases s with
  | nil => simp
  | cons c s =>
    unfold splitLines
    split
    · simp
    · split <;> simp

/-- A line that fits is read whole. -/
theorem readLine_eq {l : List UInt8} {ls : List (List UInt8)} (h : splitLines s = l :: ls)
    (hl : l.length ≤ k) :
    (readLine k s).1 = l ∧ splitLines (readLine k s).2 = ls ∧
      (readLine k s).2.length < s.length := by
  induction s generalizing k l with
  | nil => cases h
  | cons c s ih =>
    unfold splitLines at h
    split at h
    · next hc =>
      cases h
      cases k with
      | zero => simp at hl
      | succ k => simp [hc]
    · next hc =>
      split at h
      · next hnil =>
        cases h
        rw [splitLines_eq_nil] at hnil
        subst hnil
        cases k with
        | zero => simp at hl
        | succ k =>
          cases k with
          | zero => simp [hc]
          | succ k => simp [hc]
      · next l' ls' hcons =>
        cases h
        cases k with
        | zero => simp at hl
        | succ k =>
          obtain ⟨h₁, h₂, h₃⟩ := ih hcons (Nat.le_of_succ_le_succ hl)
          simp only [readLine, hc, if_false, h₁, h₂, List.length_cons, true_and]
          omega

theorem fgetsLoop_eq {fuel : Nat} (hfuel : s.length ≤ fuel)
    (hlines : ∀ l ∈ splitLines s, l.length ≤ size - 1) : fgetsLoop size fuel s = splitLines s := by
  induction fuel generalizing s with
  | zero =>
    have hs := List.length_eq_zero_iff.mp (Nat.le_zero.mp hfuel)
    simp [hs]
  | succ fuel ih =>
    unfold fgetsLoop fgets
    cases hsplit : splitLines s with
    | nil =>
      rw [if_pos (splitLines_eq_nil.mp hsplit)]
    | cons l ls =>
      have hne : s ≠ [] := fun hs => by simp [hs] at hsplit
      rw [hsplit] at hlines
      obtain ⟨h₁, h₂, h₃⟩ := readLine_eq hsplit (hlines l List.mem_cons_self)
      rw [if_neg hne]
      simp only [h₁]
      rw [ih (by omega) (by rw [h₂]; exact fun x hx => hlines x (List.mem_cons_of_mem l hx)), h₂]

/-- With a buffer for every line, `fgets` returns the lines. -/
theorem fgetsLines_eq (hlines : ∀ l ∈ splitLines s, l.length ≤ size - 1) :
    fgetsLines size s = splitLines s :=
  fgetsLoop_eq (Nat.le_refl _) hlines

/-- A line that ends in a newline is split off. -/
theorem splitLines_append {l : List UInt8} (hl : newline ∉ l) (s : List UInt8) :
    splitLines (l ++ newline :: s) = (l ++ [newline]) :: splitLines s := by
  induction l with
  | nil => simp
  | cons c l ih =>
    have hc : c ≠ newline := fun h => hl (h ▸ List.mem_cons_self)
    have hl' : newline ∉ l := fun h => hl (List.mem_cons_of_mem c h)
    rw [List.cons_append, splitLines, if_neg hc, ih hl']
    rfl

/-- A last line without its newline. -/
theorem splitLines_last {l : List UInt8} (hne : l ≠ []) (hl : newline ∉ l) :
    splitLines l = [l] := by
  induction l with
  | nil => exact absurd rfl hne
  | cons c l ih =>
    have hc : c ≠ newline := fun h => hl (h ▸ List.mem_cons_self)
    rw [splitLines, if_neg hc]
    cases l with
    | nil => rfl
    | cons d l =>
      rw [ih (List.cons_ne_nil d l) fun h => hl (List.mem_cons_of_mem c h)]

/-- Induction over the lines of a stream. -/
theorem stream_induction {P : List UInt8 → Prop} (nil : P [])
    (last : ∀ l, l ≠ [] → newline ∉ l → P l)
    (line : ∀ l s, newline ∉ l → P s → P (l ++ newline :: s)) (s : List UInt8) : P s := by
  induction hn : s.length using Nat.strongRecOn generalizing s with
  | _ n ih =>
    by_cases hs : newline ∈ s
    · obtain ⟨l, s', rfl, hl⟩ := List.eq_append_cons_of_mem hs
      refine line l s' hl (ih s'.length ?_ s' rfl)
      simp only [List.length_append, List.length_cons] at hn
      omega
    · by_cases hne : s = []
      · exact hne ▸ nil
      · exact last s hne hs

/-- A line has at most one newline, at its end. -/
theorem mem_splitLines {l : List UInt8} (h : l ∈ splitLines s) :
    ∃ body, newline ∉ body ∧ (l = body ++ [newline] ∨ l = body ∧ body ≠ []) := by
  induction s using stream_induction with
  | nil => cases h
  | last s hne hs =>
    rw [splitLines_last hne hs, List.mem_singleton] at h
    exact ⟨s, hs, .inr ⟨h, hne⟩⟩
  | line body s hbody ih =>
    rw [splitLines_append hbody] at h
    rcases List.mem_cons.mp h with rfl | h
    · exact ⟨body, hbody, .inl rfl⟩
    · exact ih h

end CLib
