import Solidc.Lib.Substring
import Mathlib.Tactic.Common

/-! # Splitting a list at another

`pieces d s` is what stands between the leftmost occurrences of `d` in `s` that do not overlap.
Programs look for these in several ways; each of them follows one of the recursions below.

* `pieces_cases` — from one occurrence to the next;
* `pieces_prefixed`, `pieces_cons` — element by element;
* `intercalate_pieces`, `not_infix_of_mem_pieces` — what characterises them.
-/

namespace CLib

variable {α : Type*}

theorem intercalate_cons {l n : List α} {ps : List (List α)} (h : ps ≠ []) :
    n.intercalate (l :: ps) = l ++ (n ++ n.intercalate ps) := by
  cases ps with
  | nil => exact absurd rfl h
  | cons q ps => rw [List.intercalate_cons_cons, List.append_assoc]

theorem intercalate_nil_left (ps : List (List α)) : ([] : List α).intercalate ps = ps.flatten := by
  induction ps with
  | nil => rfl
  | cons l ps ih =>
    cases ps with
    | nil => simp
    | cons q ps => rw [intercalate_cons (List.cons_ne_nil q ps), ih, List.flatten_cons]; rfl

theorem length_intercalate (n : List α) (ps : List (List α)) :
    (n.intercalate ps).length = ps.flatten.length + (ps.length - 1) * n.length := by
  induction ps with
  | nil => simp
  | cons l ps ih =>
    cases ps with
    | nil => simp
    | cons q ps =>
      rw [intercalate_cons (List.cons_ne_nil q ps), List.length_append, List.length_append, ih]
      simp only [List.flatten_cons, List.length_append, List.length_cons]
      rw [Nat.add_sub_cancel, Nat.add_sub_cancel, Nat.succ_mul]
      omega

theorem mem_intercalate {a : α} {n : List α} {ps : List (List α)} (h : a ∈ n.intercalate ps) :
    a ∈ n ∨ ∃ p ∈ ps, a ∈ p := by
  induction ps with
  | nil => simp at h
  | cons l ps ih =>
    cases ps with
    | nil => exact .inr ⟨l, List.mem_cons_self, by simpa using h⟩
    | cons q ps =>
      rw [intercalate_cons (List.cons_ne_nil q ps), List.mem_append, List.mem_append] at h
      rcases h with h | h | h
      · exact .inr ⟨l, List.mem_cons_self, h⟩
      · exact .inl h
      · rcases ih h with h | ⟨p, hp, h⟩
        · exact .inl h
        · exact .inr ⟨p, List.mem_cons_of_mem l hp, h⟩

theorem not_infix_of_first {d s : List α} (hd : d ≠ []) (h : ∀ j < s.length, ¬ d <+: s.drop j) :
    ¬ d <:+: s := by
  rintro ⟨u, v, rfl⟩
  have hpos : 0 < d.length := List.length_pos_iff.mpr hd
  refine h u.length (by simp; omega) ?_
  rw [List.append_assoc, List.drop_left]
  exact List.prefix_append d v

/-! ## Places -/

/-- Where the occurrences are: behind each part but the last one, for parts from `start` on that
are `k` apart. -/
def cuts (k : Nat) : Nat → List (List α) → List Nat
  | _, [] => []
  | _, [_] => []
  | start, l :: l' :: ps => (start + l.length) :: cuts k (start + l.length + k) (l' :: ps)

theorem cuts_cons {k start : Nat} {l : List α} {ps : List (List α)} (h : ps ≠ []) :
    cuts k start (l :: ps) = (start + l.length) :: cuts k (start + l.length + k) ps := by
  cases ps with
  | nil => exact absurd rfl h
  | cons q ps => rfl

/-! ## Parts -/

variable [DecidableEq α]

/-- The parts of a list between the occurrences of `d`. -/
def pieces (d s : List α) : List (List α) :=
  match _h : findSub d s with
  | none => [s]
  | some i => if _hd : d = [] then [s] else s.take i :: pieces d (s.drop (i + d.length))
termination_by s.length
decreasing_by
  obtain ⟨hi, hpre, -⟩ := findSub_eq_some_iff.mp _h
  have hlen := hpre.length_le
  have hpos : 0 < d.length := List.length_pos_iff.mpr _hd
  rw [List.length_drop] at hlen ⊢
  omega

variable {d s : List α} {i : Nat}

theorem findSub_fits (h : findSub d s = some i) : i + d.length ≤ s.length := by
  obtain ⟨hi, hpre, -⟩ := findSub_eq_some_iff.mp h
  have hlen := hpre.length_le
  rw [List.length_drop] at hlen
  omega

/-- What stands before an occurrence, the occurrence, and the rest. -/
theorem findSub_split (h : findSub d s = some i) :
    s = s.take i ++ (d ++ s.drop (i + d.length)) := by
  obtain ⟨-, ⟨t, ht⟩, -⟩ := findSub_eq_some_iff.mp h
  have hrest : s.drop (i + d.length) = t := by rw [← List.drop_drop, ← ht, List.drop_left]
  rw [hrest, ht, List.take_append_drop]

theorem findSub_eq_none_iff_absent (hd : d ≠ []) : findSub d s = none ↔ ¬ d <:+: s := by
  constructor
  · intro h
    exact not_infix_of_first hd fun j hj => findSub_eq_none_iff.mp h j (Nat.le_of_lt hj)
  · intro h
    by_contra hsome
    obtain ⟨i, hi⟩ := Option.ne_none_iff_exists'.mp hsome
    exact h ⟨s.take i, s.drop (i + d.length), by rw [List.append_assoc, ← findSub_split hi]⟩

theorem pieces_of_none (h : findSub d s = none) : pieces d s = [s] := by
  rw [pieces]
  split
  · rfl
  · next heq => simp [heq] at h

theorem pieces_of_some (hd : d ≠ []) (h : findSub d s = some i) :
    pieces d s = s.take i :: pieces d (s.drop (i + d.length)) := by
  rw [pieces]
  split
  · next heq => simp [heq] at h
  · next j heq =>
    obtain rfl : i = j := Option.some.inj (h.symm.trans heq)
    rw [dif_neg hd]

/-- The last part, or a part with an occurrence behind it. -/
theorem pieces_cases (hd : d ≠ []) (s : List α) :
    (findSub d s = none ∧ pieces d s = [s]) ∨
      ∃ i, findSub d s = some i ∧ i + d.length ≤ s.length ∧
        pieces d s = s.take i :: pieces d (s.drop (i + d.length)) := by
  cases h : findSub d s with
  | none => exact .inl ⟨rfl, pieces_of_none h⟩
  | some i => exact .inr ⟨i, rfl, findSub_fits h, pieces_of_some hd h⟩

theorem pieces_ne_nil (hd : d ≠ []) (s : List α) : pieces d s ≠ [] := by
  rcases pieces_cases hd s with ⟨-, h⟩ | ⟨i, -, -, h⟩ <;> simp [h]

/-- An occurrence at the beginning. -/
theorem pieces_prefixed (hd : d ≠ []) (h : d <+: s) :
    pieces d s = [] :: pieces d (s.drop d.length) := by
  have hfind : findSub d s = some 0 := findSub_eq_some_iff.mpr ⟨Nat.zero_le _, h, nofun⟩
  rw [pieces_of_some hd hfind, List.take_zero, Nat.zero_add]

/-- An element that starts no occurrence belongs to the first part. -/
theorem pieces_cons {a : α} (hd : d ≠ []) (h : ¬ d <+: a :: s) :
    pieces d (a :: s) = (pieces d s).modifyHead (a :: ·) := by
  have hfind : findSub d (a :: s) = (findSub d s).map (· + 1) := by rw [findSub, if_neg h]
  rcases pieces_cases hd s with ⟨hnone, hp⟩ | ⟨i, hsome, -, hp⟩
  · rw [hnone] at hfind
    rw [pieces_of_none hfind, hp]
    rfl
  · rw [hsome] at hfind
    rw [pieces_of_some hd hfind, hp, Nat.add_right_comm]
    rfl

/-- Too short for an occurrence. -/
theorem pieces_of_short (h : s.length < d.length) : pieces d s = [s] := by
  refine pieces_of_none (findSub_eq_none_iff.mpr fun j _ hpre => ?_)
  have := hpre.length_le
  rw [List.length_drop] at this
  omega

theorem pieces_nil (hd : d ≠ []) : pieces d [] = [[]] :=
  pieces_of_short (List.length_pos_iff.mpr hd)

/-- Induction from the last part backwards. -/
theorem pieces_induction (hd : d ≠ []) {motive : List α → List (List α) → Prop}
    (last : ∀ s, findSub d s = none → motive s [s])
    (part : ∀ s i, findSub d s = some i →
      motive (s.drop (i + d.length)) (pieces d (s.drop (i + d.length))) →
      motive s (s.take i :: pieces d (s.drop (i + d.length)))) (s : List α) :
    motive s (pieces d s) := by
  induction hlen : s.length using Nat.strongRecOn generalizing s with
  | ind n ih =>
    subst hlen
    rcases pieces_cases hd s with ⟨hnone, hp⟩ | ⟨i, hsome, hfits, hp⟩
    · rw [hp]
      exact last s hnone
    · have hpos : 0 < d.length := List.length_pos_iff.mpr hd
      rw [hp]
      exact part s i hsome (ih _ (by rw [List.length_drop]; omega) _ rfl)

/-- The parts with `d` between them are the list. -/
theorem intercalate_pieces (hd : d ≠ []) (s : List α) : d.intercalate (pieces d s) = s := by
  induction s using pieces_induction hd with
  | last s hnone => exact List.intercalate_singleton
  | part s i hsome ih =>
    rw [intercalate_cons (pieces_ne_nil hd _), ih]
    exact (findSub_split hsome).symm

/-- A part has no other elements than the list. -/
theorem mem_of_mem_pieces (hd : d ≠ []) (s : List α) :
    ∀ p ∈ pieces d s, ∀ a ∈ p, a ∈ s := by
  induction s using pieces_induction hd with
  | last s hnone =>
    intro p hp a ha
    rwa [List.mem_singleton.mp hp] at ha
  | part s i hsome ih =>
    intro p hp a ha
    rcases List.mem_cons.mp hp with rfl | hp
    · exact List.mem_of_mem_take ha
    · exact List.mem_of_mem_drop (ih p hp a ha)

/-- There is only one part when no occurrence is left out. -/
theorem pieces_eq_singleton (hd : d ≠ []) (h : (pieces d s).length - 1 = 0) :
    pieces d s = [s] := by
  rcases pieces_cases hd s with ⟨-, hp⟩ | ⟨i, -, -, hp⟩
  · exact hp
  · have := List.length_pos_iff.mpr (pieces_ne_nil hd (s.drop (i + d.length)))
    rw [hp, List.length_cons] at h
    omega

/-- No part contains `d`. -/
theorem not_infix_of_mem_pieces (hd : d ≠ []) (s : List α) : ∀ p ∈ pieces d s, ¬ d <:+: p := by
  induction s using pieces_induction hd with
  | last s hnone =>
    intro p hp
    rw [List.mem_singleton.mp hp]
    exact (findSub_eq_none_iff_absent hd).mp hnone
  | part s i hsome ih =>
    intro p hp
    rcases List.mem_cons.mp hp with rfl | hp
    · -- an occurrence inside the part would start before the first one
      obtain ⟨-, -, hfirst⟩ := findSub_eq_some_iff.mp hsome
      refine not_infix_of_first hd fun j hj hpre => ?_
      rw [List.length_take] at hj
      refine hfirst j (by omega) (hpre.trans ?_)
      rw [List.drop_take]
      exact List.take_prefix _ _
    · exact ih p hp

end CLib
