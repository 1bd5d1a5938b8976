import Mathlib.Data.List.Basic
import Mathlib.Order.Lattice.Nat
import Mathlib.Tactic.Common

/-! # Edit distances

An edit inserts, deletes or substitutes one letter of a list, or exchanges two neighbours where
that is allowed; it may apply to already edited letters.

* `Edits` — a sequence of edits; `dist` is the length of a shortest one, and a metric;
* `Align` — an alignment of two lists reads them from left to right. Where neighbours may be
  exchanged, two letters cross, and what is between them is deleted and inserted;
* `Edits.align`, `Align.edits` — there is an alignment for every sequence of edits, and a sequence
  for every alignment.
-/

namespace EditDistance

variable {α : Type*} {s : Bool} {n m : Nat} {x y c d : α} {a b p q u v : List α}

/-- One edit; `swaps` tells whether neighbours may be exchanged. -/
inductive Edit (swaps : Bool) : List α → List α → Prop
  | insert (u v : List α) (c : α) : Edit swaps (u ++ v) (u ++ c :: v)
  | delete (u v : List α) (c : α) : Edit swaps (u ++ c :: v) (u ++ v)
  | substitute (u v : List α) (c d : α) : Edit swaps (u ++ c :: v) (u ++ d :: v)
  | swap (u v : List α) (c d : α) : swaps = true → Edit swaps (u ++ c :: d :: v) (u ++ d :: c :: v)

/-- `n` edits, one after the other. -/
inductive Edits (swaps : Bool) : Nat → List α → List α → Prop
  | refl (a : List α) : Edits swaps 0 a a
  | step {n : Nat} {a b c : List α} : Edit swaps a b → Edits swaps n b c → Edits swaps (n + 1) a c

/-- An alignment of cost `n`, or less. -/
inductive Align (swaps : Bool) : Nat → List α → List α → Prop
  | nil (n : Nat) : Align swaps n [] []
  | delete {n : Nat} {a b : List α} (x : α) : Align swaps n a b → Align swaps (n + 1) (x :: a) b
  | insert {n : Nat} {a b : List α} (y : α) : Align swaps n a b → Align swaps (n + 1) a (y :: b)
  | keep {n : Nat} {a b : List α} (x : α) : Align swaps n a b → Align swaps n (x :: a) (x :: b)
  | substitute {n : Nat} {a b : List α} (x y : α) : Align swaps n a b →
      Align swaps (n + 1) (x :: a) (y :: b)
  | cross {n : Nat} {a b : List α} (x y : α) (u v : List α) : swaps = true → Align swaps n a b →
      Align swaps (n + (u.length + v.length + 1)) (x :: (u ++ y :: a)) (y :: (v ++ x :: b))

/-! ## Alignments -/

namespace Align

theorem mono (h : Align s n a b) (hle : n ≤ m) : Align s m a b := by
  induction h generalizing m with
  | nil => exact .nil m
  | delete x _ ih =>
    obtain ⟨k, rfl⟩ := Nat.exists_eq_add_of_le' hle
    exact .delete x (ih (Nat.le_add_left _ k))
  | insert y _ ih =>
    obtain ⟨k, rfl⟩ := Nat.exists_eq_add_of_le' hle
    exact .insert y (ih (Nat.le_add_left _ k))
  | keep x _ ih => exact .keep x (ih hle)
  | substitute x y _ ih =>
    obtain ⟨k, rfl⟩ := Nat.exists_eq_add_of_le' hle
    exact .substitute x y (ih (Nat.le_add_left _ k))
  | cross x y u v hs _ ih =>
    obtain ⟨k, rfl⟩ := Nat.exists_eq_add_of_le' hle
    have h := cross x y u v hs (ih (Nat.le_add_left _ k))
    rwa [Nat.add_assoc] at h

theorem congr (h : Align s n a b) (hn : n ≤ m) (hb : b = p) : Align s m a p := hb ▸ h.mono hn

theorem refl (a : List α) : Align s 0 a a := by
  induction a with
  | nil => exact .nil 0
  | cons x a ih => exact .keep x ih

theorem symm (h : Align s n a b) : Align s n b a := by
  induction h with
  | nil n => exact .nil n
  | delete x _ ih => exact .insert x ih
  | insert y _ ih => exact .delete y ih
  | keep x _ ih => exact .keep x ih
  | substitute x y _ ih => exact .substitute y x ih
  | cross x y u v hs _ ih =>
    rw [Nat.add_comm u.length]
    exact .cross y x v u hs ih

theorem append (h : Align s n a b) (h' : Align s m p q) : Align s (n + m) (a ++ p) (b ++ q) := by
  induction h with
  | nil n => exact h'.mono (Nat.le_add_left m n)
  | delete x _ ih =>
    rw [Nat.add_right_comm]
    exact .delete x ih
  | insert y _ ih =>
    rw [Nat.add_right_comm]
    exact .insert y ih
  | keep x _ ih => exact .keep x ih
  | substitute x y _ ih =>
    rw [Nat.add_right_comm]
    exact .substitute x y ih
  | cross x y u v hs _ ih =>
    have h := cross x y u v hs ih
    rw [Nat.add_right_comm] at h
    simpa only [List.cons_append, List.append_assoc] using h

theorem deletes (u : List α) (h : Align s n a b) : Align s (n + u.length) (u ++ a) b := by
  induction u with
  | nil => exact h
  | cons x u ih => exact .delete x ih

theorem inserts (v : List α) (h : Align s n a b) : Align s (n + v.length) a (v ++ b) :=
  (h.symm.deletes v).symm

/-- The crossing letters cost no more when the first of the target is left out. -/
theorem cross_drop (x y : α) (u v : List α) (h : Align s n a b) :
    Align s (n + (u.length + v.length + 1)) (x :: (u ++ y :: a)) (v ++ x :: b) := by
  have hrest : Align s (n + 1 + u.length + v.length) (x :: (u ++ y :: a)) (v ++ x :: b) :=
    .inserts v (.keep x (.deletes u (.delete y h)))
  exact hrest.mono (by omega)

/-- Nor when the last of the target is. -/
theorem cross_cut (x y : α) (u v : List α) (h : Align s n a b) :
    Align s (n + (u.length + v.length + 1)) (x :: (u ++ y :: a)) (y :: (v ++ b)) := by
  have hrest : Align s (n + v.length + u.length + 1) (x :: (u ++ y :: a)) (y :: (v ++ b)) :=
    .delete x (.deletes u (.keep y (.inserts v h)))
  exact hrest.mono (by omega)

end Align

/-- An alignment where its target is cut in two: the source is cut too, or a pair of crossing
letters lies on both sides of the cut. -/
inductive Cut (swaps : Bool) : Nat → List α → List α → List α → Prop
  | clean {n m : Nat} {a a' p q : List α} : Align swaps n a p → Align swaps m a' q →
      Cut swaps (n + m) (a ++ a') p q
  | crossed {n m : Nat} {a a' p q : List α} (x y : α) (u v v' : List α) : swaps = true →
      Align swaps n a p → Align swaps m a' q →
      Cut swaps (n + (m + (u.length + (v.length + v'.length) + 1))) (a ++ x :: (u ++ y :: a'))
        (p ++ y :: v) (v' ++ x :: q)

theorem Cut.prepend {a₀ p₀ : List α} (h : Align s n a₀ p₀) (hcut : Cut s m a p q) :
    Cut s (n + m) (a₀ ++ a) (p₀ ++ p) q := by
  cases hcut with
  | clean h₁ h₂ =>
    rw [← Nat.add_assoc, ← List.append_assoc]
    exact .clean (h.append h₁) h₂
  | crossed x y u v v' hs h₁ h₂ =>
    rw [← Nat.add_assoc, ← List.append_assoc, ← List.append_assoc]
    exact .crossed x y u v v' hs (h.append h₁) h₂

theorem Cut.all (h : Align s n a b) (hb : b = [] ++ q) : Cut s n a [] q := by
  obtain rfl : b = q := hb
  have hcut : Cut s (0 + n) ([] ++ a) [] b := .clean (.nil 0) h
  rwa [Nat.zero_add] at hcut

/-- Alignments can be cut anywhere. -/
theorem Align.cut (h : Align s n a b) (hb : b = p ++ q) : Cut s n a p q := by
  induction h generalizing p with
  | nil n =>
    obtain ⟨rfl, rfl⟩ := List.nil_eq_append_iff.mp hb
    exact .all (.nil n) rfl
  | delete x _ ih =>
    rw [Nat.add_comm]
    exact (ih hb).prepend (.delete x (.nil 0))
  | insert y h ih =>
    cases p with
    | nil => exact .all (.insert y h) hb
    | cons _ p =>
      cases hb
      rw [Nat.add_comm]
      exact (ih rfl).prepend (.insert y (.nil 0))
  | @keep n _ _ x h ih =>
    cases p with
    | nil => exact .all (.keep x h) hb
    | cons _ p =>
      cases hb
      rw [← Nat.zero_add n]
      exact (ih rfl).prepend (.keep x (.nil 0))
  | substitute x y h ih =>
    cases p with
    | nil => exact .all (.substitute x y h) hb
    | cons _ p =>
      cases hb
      rw [Nat.add_comm]
      exact (ih rfl).prepend (.substitute x y (.nil 0))
  | @cross n a b x y u v hs h ih =>
    cases p with
    | nil => exact .all (.cross x y u v hs h) hb
    | cons _ p =>
      obtain ⟨rfl, hrest⟩ := List.cons.inj hb
      -- the cut is behind the pair, at its end, or between its letters
      rcases List.append_eq_append_iff.mp hrest with ⟨t, rfl, ht⟩ | ⟨v', rfl, rfl⟩
      · cases t with
        | nil =>
          obtain rfl : x :: b = q := ht
          have hcut : Cut s (0 + (n + (u.length + (v.length + 0) + 1)))
              ([] ++ x :: (u ++ y :: a)) ([] ++ y :: v) ([] ++ x :: b) :=
            .crossed x y u v [] hs (.nil 0) h
          rw [Nat.zero_add] at hcut
          simpa using hcut
        | cons _ t =>
          obtain ⟨rfl, rfl⟩ := List.cons.inj ht
          have hpair : Align s (0 + (u.length + v.length + 1)) (x :: (u ++ [y]))
            (y :: (v ++ [x])) := .cross x y u v hs (.nil 0)
          have hcut := (ih rfl).prepend hpair
          rw [Nat.zero_add, Nat.add_comm] at hcut
          simpa using hcut
      · have hcut : Cut s (0 + (n + (u.length + (p.length + v'.length) + 1)))
            ([] ++ x :: (u ++ y :: a)) ([] ++ y :: p) (v' ++ x :: b) :=
          .crossed x y u p v' hs (.nil 0) h
        rw [Nat.zero_add] at hcut
        rwa [List.length_append]

/-! ## Edits of the target -/

namespace Align

theorem delete_head (h : Align s n a b) (hb : b = c :: q) : Align s (n + 1) a q := by
  induction h with
  | nil => cases hb
  | delete x _ ih => exact .delete x (ih hb)
  | insert y h =>
    cases hb
    exact h.mono (Nat.le_add_right _ 2)
  | keep x h =>
    obtain ⟨rfl, rfl⟩ := List.cons.inj hb
    exact .delete x h
  | substitute x y h =>
    cases hb
    exact (Align.delete x h).mono (Nat.le_succ _)
  | cross x y u v _ h =>
    obtain ⟨rfl, rfl⟩ := List.cons.inj hb
    exact (h.cross_drop x y u v).mono (Nat.le_succ _)

theorem substitute_head (d : α) (h : Align s n a b) (hb : b = c :: q) :
    Align s (n + 1) a (d :: q) := by
  induction h with
  | nil => cases hb
  | delete x _ ih => exact .delete x (ih hb)
  | insert y h =>
    cases hb
    exact (Align.insert d h).mono (Nat.le_succ _)
  | keep x h =>
    obtain ⟨rfl, rfl⟩ := List.cons.inj hb
    exact .substitute x d h
  | substitute x y h =>
    cases hb
    exact (Align.substitute x d h).mono (Nat.le_succ _)
  | cross x y u v _ h =>
    obtain ⟨rfl, rfl⟩ := List.cons.inj hb
    exact .insert d (h.cross_drop x y u v)

theorem edit_insert (c : α) (h : Align s n a (p ++ q)) : Align s (n + 1) a (p ++ c :: q) := by
  generalize hb : p ++ q = b at h
  cases h.cut hb.symm with
  | clean h₁ h₂ => exact h₁.append (.insert c h₂)
  | crossed x y u v v' hs h₁ h₂ =>
    -- one more letter between those that cross
    have hpair := h₁.append (.cross x y u (v ++ c :: v') hs h₂)
    rw [List.length_append, List.length_cons] at hpair
    exact hpair.congr (by omega) (by simp)

theorem edit_delete (h : Align s n a (p ++ c :: q)) : Align s (n + 1) a (p ++ q) := by
  generalize ht : c :: q = t at h
  generalize hb : p ++ t = b at h
  cases h.cut hb.symm with
  | clean h₁ h₂ => exact h₁.append (h₂.delete_head ht.symm)
  | crossed x y u v v' hs h₁ h₂ =>
    cases v' with
    | nil =>
      -- the letter itself is one of the pair
      obtain ⟨rfl, rfl⟩ := List.cons.inj ht
      have hpair := h₁.append (h₂.cross_cut c y u v)
      exact hpair.congr (by rw [List.length_nil]; omega) (by simp)
    | cons _ v' =>
      obtain ⟨rfl, rfl⟩ := List.cons.inj ht
      have hpair := h₁.append (.cross x y u (v ++ v') hs h₂)
      rw [List.length_append] at hpair
      exact hpair.congr (by rw [List.length_cons]; omega) (by simp)

theorem edit_substitute (d : α) (h : Align s n a (p ++ c :: q)) :
    Align s (n + 1) a (p ++ d :: q) := by
  generalize ht : c :: q = t at h
  generalize hb : p ++ t = b at h
  cases h.cut hb.symm with
  | clean h₁ h₂ => exact h₁.append (h₂.substitute_head d ht.symm)
  | crossed x y u v v' hs h₁ h₂ =>
    cases v' with
    | nil =>
      -- the pair loses its second letter, and another one is inserted
      obtain ⟨rfl, rfl⟩ := List.cons.inj ht
      have hpair := h₁.append ((Align.insert d h₂).cross_cut c y u v)
      exact hpair.congr (by rw [List.length_nil]; omega) (by simp)
    | cons _ v' =>
      obtain ⟨rfl, rfl⟩ := List.cons.inj ht
      have hpair := h₁.append (.cross x y u (v ++ d :: v') hs h₂)
      rw [List.length_append, List.length_cons] at hpair
      exact hpair.congr (by rw [List.length_cons]; omega) (by simp)

/-- The first letter of the target is inserted, or it stands for one of the source. -/
theorem head_cases (h : Align s n a b) (hb : b = d :: q) : Align s n a q ∨
    (∃ u a' m, a = u ++ d :: a' ∧ n = m + u.length ∧ Align s m a' q) ∨
    ∃ u w a' m, a = u ++ w :: a' ∧ n = m + u.length + 1 ∧ Align s m a' q := by
  induction h with
  | nil => cases hb
  | delete x _ ih =>
    rcases ih hb with h | ⟨u, a', m, rfl, rfl, h⟩ | ⟨u, w, a', m, rfl, rfl, h⟩
    · exact .inl (.delete x h)
    · exact .inr (.inl ⟨x :: u, a', m, rfl, rfl, h⟩)
    · exact .inr (.inr ⟨x :: u, w, a', m, rfl, rfl, h⟩)
  | insert y h =>
    cases hb
    exact .inl (h.mono (Nat.le_succ _))
  | @keep n a b x h =>
    obtain ⟨rfl, rfl⟩ := List.cons.inj hb
    exact .inr (.inl ⟨[], a, n, rfl, rfl, h⟩)
  | @substitute n a b x y h =>
    cases hb
    exact .inr (.inr ⟨[], x, a, n, rfl, rfl, h⟩)
  | cross x y u v _ h =>
    obtain ⟨rfl, rfl⟩ := List.cons.inj hb
    exact .inl (h.cross_drop x y u v)

/-- An exchange at the start of the target: where the two letters stood for two of the source,
these now cross, or both are substituted. -/
theorem swap_head (hs : s = true) (h : Align s n a b) (hb : b = c :: d :: q) :
    Align s (n + 1) a (d :: c :: q) := by
  induction h with
  | nil => cases hb
  | delete x _ ih => exact .delete x (ih hb)
  | insert y h =>
    cases hb
    exact (edit_insert c (p := [d]) h).mono (Nat.le_succ _)
  | keep x h =>
    obtain ⟨rfl, rfl⟩ := List.cons.inj hb
    rcases h.head_cases rfl with h' | ⟨u, a', m, rfl, rfl, h'⟩ | ⟨u, w, a', m, rfl, rfl, h'⟩
    · exact .insert d (.keep x h')
    · exact .cross x d u [] hs h'
    · exact (Align.substitute x d (.deletes u (.substitute w x h'))).mono (by omega)
  | substitute x y h =>
    obtain ⟨rfl, rfl⟩ := List.cons.inj hb
    rcases h.head_cases rfl with h' | ⟨u, a', m, rfl, rfl, h'⟩ | ⟨u, w, a', m, rfl, rfl, h'⟩
    · exact .insert d (.substitute x y h')
    · exact (Align.substitute x d (.deletes u (.substitute d y h'))).mono (by omega)
    · exact (Align.substitute x d (.deletes u (.substitute w y h'))).mono (by omega)
  | cross x y u v _ h =>
    obtain ⟨rfl, hrest⟩ := List.cons.inj hb
    cases v with
    | nil =>
      -- the exchange takes back the crossing
      obtain ⟨rfl, rfl⟩ := List.cons.inj hrest
      exact (Align.keep x (.deletes u (.keep y h))).mono (by omega)
    | cons w v =>
      obtain ⟨rfl, rfl⟩ := List.cons.inj hrest
      have hpair := Align.insert w (.cross x y u v hs h)
      exact hpair.congr (by rw [List.length_cons]; omega) (by simp)

theorem edit_swap (hs : s = true) (h : Align s n a (p ++ c :: d :: q)) :
    Align s (n + 1) a (p ++ d :: c :: q) := by
  generalize ht : c :: d :: q = t at h
  generalize hb : p ++ t = b at h
  cases h.cut hb.symm with
  | clean h₁ h₂ => exact h₁.append (h₂.swap_head hs ht.symm)
  | crossed x y u v v' hs h₁ h₂ =>
    match v' with
    | [] =>
      -- the first of the two is one of the pair
      obtain ⟨rfl, rfl⟩ := List.cons.inj ht
      have hpair := h₁.append ((edit_insert c (p := [d]) h₂).cross_cut c y u v)
      exact hpair.congr (by rw [List.length_nil]; omega) (by simp)
    | [_] =>
      -- the second is: the pair becomes narrower by the first
      obtain ⟨rfl, hrest⟩ := List.cons.inj ht
      obtain ⟨rfl, rfl⟩ := List.cons.inj hrest
      have hpair := h₁.append (.cross d y u v hs (.insert c h₂))
      exact hpair.congr (by rw [List.length_singleton]; omega) (by simp)
    | _ :: _ :: v' =>
      obtain ⟨rfl, hrest⟩ := List.cons.inj ht
      obtain ⟨rfl, rfl⟩ := List.cons.inj hrest
      have hpair := h₁.append (.cross x y u (v ++ d :: c :: v') hs h₂)
      rw [List.length_append, List.length_cons, List.length_cons] at hpair
      exact hpair.congr (by rw [List.length_cons, List.length_cons]; omega) (by simp)

/-- An edit of the target costs one at most. -/
theorem edit (h : Align s n a b) (he : Edit s b q) : Align s (n + 1) a q := by
  cases he with
  | insert u v c => exact h.edit_insert c
  | delete u v c => exact h.edit_delete
  | substitute u v c d => exact h.edit_substitute d
  | swap u v c d hs => exact h.edit_swap hs

end Align

/-! ## Sequences of edits -/

theorem Edit.symm (h : Edit s a b) : Edit s b a := by
  cases h with
  | insert u v c => exact .delete u v c
  | delete u v c => exact .insert u v c
  | substitute u v c d => exact .substitute u v d c
  | swap u v c d hs => exact .swap u v d c hs

theorem Edit.cons (x : α) (h : Edit s a b) : Edit s (x :: a) (x :: b) := by
  cases h with
  | insert u v c => exact .insert (x :: u) v c
  | delete u v c => exact .delete (x :: u) v c
  | substitute u v c d => exact .substitute (x :: u) v c d
  | swap u v c d hs => exact .swap (x :: u) v c d hs

theorem Edit.reverse (h : Edit s a b) : Edit s a.reverse b.reverse := by
  cases h with
  | insert u v c => simpa using (.insert v.reverse u.reverse c : Edit s _ _)
  | delete u v c => simpa using (.delete v.reverse u.reverse c : Edit s _ _)
  | substitute u v c d => simpa using (.substitute v.reverse u.reverse c d : Edit s _ _)
  | swap u v c d hs => simpa using Edit.swap v.reverse u.reverse d c hs

theorem Edit.allow (h : Edit false a b) : Edit s a b := by
  cases h with
  | insert u v c => exact .insert u v c
  | delete u v c => exact .delete u v c
  | substitute u v c d => exact .substitute u v c d
  | swap u v c d hs => cases hs

namespace Edits

theorem trans (h : Edits s n a b) (h' : Edits s m b p) : Edits s (n + m) a p := by
  induction h with
  | refl a => rwa [Nat.zero_add]
  | step he _ ih =>
    rw [Nat.add_right_comm]
    exact .step he (ih h')

theorem single (h : Edit s a b) : Edits s 1 a b := .step h (.refl b)

theorem symm (h : Edits s n a b) : Edits s n b a := by
  induction h with
  | refl a => exact .refl a
  | step he _ ih => exact ih.trans (single he.symm)

/-- A function that takes edits to edits does so with sequences. -/
theorem map {s' : Bool} {f : List α → List α} (hf : ∀ {a b}, Edit s a b → Edit s' (f a) (f b))
    (h : Edits s n a b) : Edits s' n (f a) (f b) := by
  induction h with
  | refl a => exact .refl _
  | step he _ ih => exact .step (hf he) ih

theorem cons (x : α) (h : Edits s n a b) : Edits s n (x :: a) (x :: b) :=
  h.map (f := List.cons x) (Edit.cons x)

theorem prefix_left (u : List α) (h : Edits s n a b) : Edits s n (u ++ a) (u ++ b) := by
  induction u with
  | nil => exact h
  | cons x u ih => exact ih.cons x

theorem deletes (u a : List α) : Edits s u.length (u ++ a) a := by
  induction u with
  | nil => exact .refl a
  | cons x u ih => exact .step (.delete [] (u ++ a) x) ih

theorem align (h : Edits s n a b) : Align s n a b := by
  -- the first edit is one of the source, so the alignment is turned over for it
  induction h with
  | refl a => exact .refl a
  | step he _ ih => exact (ih.symm.edit he.symm).symm

end Edits

/-- Crossing letters are made neighbours and exchanged. -/
theorem Align.edits (h : Align s n a b) : ∃ m ≤ n, Edits s m a b := by
  induction h with
  | nil n => exact ⟨0, Nat.zero_le n, .refl []⟩
  | delete x _ ih =>
    obtain ⟨m, hle, h⟩ := ih
    exact ⟨m + 1, Nat.succ_le_succ hle, .step (.delete [] _ x) h⟩
  | insert y _ ih =>
    obtain ⟨m, hle, h⟩ := ih
    exact ⟨m + 1, Nat.succ_le_succ hle, h.trans (.single (.insert [] _ y))⟩
  | keep x _ ih =>
    obtain ⟨m, hle, h⟩ := ih
    exact ⟨m, hle, h.cons x⟩
  | @substitute n a b x y _ ih =>
    obtain ⟨m, hle, h⟩ := ih
    exact ⟨m + 1, Nat.succ_le_succ hle, .step (.substitute [] a x y) (h.cons y)⟩
  | @cross n a b x y u v hs _ ih =>
    obtain ⟨m, hle, h⟩ := ih
    have hdelete : Edits s u.length (x :: (u ++ y :: a)) (x :: y :: a) :=
      (Edits.deletes u (y :: a)).cons x
    have hswap : Edits s 1 (x :: y :: a) (y :: x :: a) := .single (.swap [] a x y hs)
    have hinsert : Edits s v.length (y :: x :: a) (y :: (v ++ x :: a)) :=
      (Edits.deletes v (x :: a)).symm.cons y
    have hrest : Edits s m (y :: (v ++ x :: a)) (y :: (v ++ x :: b)) :=
      ((h.cons x).prefix_left v).cons y
    exact ⟨_, by omega, hdelete.trans (hswap.trans (hinsert.trans hrest))⟩

/-! ## Distances -/

/-- The least number of edits. -/
noncomputable def dist (swaps : Bool) (a b : List α) : Nat := sInf {n | Edits swaps n a b}

/-- Everything can be deleted and inserted anew. -/
theorem edits_all (s : Bool) (a b : List α) : Edits s (a.length + b.length) a b := by
  have hempty := Edits.deletes (s := s) a []
  have hfull := (Edits.deletes (s := s) b []).symm
  rw [List.append_nil] at hempty hfull
  exact hempty.trans hfull

theorem isLeast_dist (s : Bool) (a b : List α) : IsLeast {n | Edits s n a b} (dist s a b) :=
  ⟨Nat.sInf_mem ⟨_, edits_all s a b⟩, fun _ hn => Nat.sInf_le hn⟩

theorem dist_le_length (s : Bool) (a b : List α) : dist s a b ≤ a.length + b.length :=
  (isLeast_dist s a b).2 (edits_all s a b)

theorem dist_le_iff : dist s a b ≤ n ↔ Align s n a b := by
  obtain ⟨hedits, hleast⟩ := isLeast_dist s a b
  constructor
  · exact fun hle => hedits.align.mono hle
  · intro h
    obtain ⟨m, hle, h⟩ := h.edits
    exact (hleast h).trans hle

theorem align_dist (s : Bool) (a b : List α) : Align s (dist s a b) a b := dist_le_iff.mp le_rfl

theorem dist_eq_zero_iff : dist s a b = 0 ↔ a = b := by
  rw [← Nat.le_zero, dist_le_iff]
  constructor
  · intro h
    obtain ⟨m, hle, h⟩ := h.edits
    obtain rfl := Nat.le_zero.mp hle
    cases h
    rfl
  · rintro rfl
    exact .refl a

theorem dist_comm (s : Bool) (a b : List α) : dist s a b = dist s b a :=
  le_antisymm (dist_le_iff.mpr (align_dist s b a).symm) (dist_le_iff.mpr (align_dist s a b).symm)

theorem dist_triangle (s : Bool) (a b c : List α) : dist s a c ≤ dist s a b + dist s b c :=
  (isLeast_dist s a c).2 ((isLeast_dist s a b).1.trans (isLeast_dist s b c).1)

/-- Exchanges can only make it shorter. -/
theorem dist_le_of_swaps (a b : List α) : dist true a b ≤ dist false a b :=
  (isLeast_dist true a b).2 ((isLeast_dist false a b).1.map (f := id) Edit.allow)

theorem dist_reverse (s : Bool) (a b : List α) : dist s a.reverse b.reverse = dist s a b := by
  have hle : ∀ a b : List α, dist s a.reverse b.reverse ≤ dist s a b := fun a b =>
    (isLeast_dist s _ _).2 ((isLeast_dist s a b).1.map Edit.reverse)
  refine le_antisymm (hle a b) ?_
  have hback := hle a.reverse b.reverse
  rwa [List.reverse_reverse, List.reverse_reverse] at hback

end EditDistance
