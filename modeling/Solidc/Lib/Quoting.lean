import Mathlib.Algebra.Group.Nat.Even
import Mathlib.Data.List.Basic
import Solidc.Lib.Splitting

/-! # Texts cut outside quotes

A quote switches between outside and inside, so that a position lies outside quotes when an even
number of quotes stands before it. `Cut delim quote text ps` says that `ps` are the pieces between
the delimiters outside quotes.

* `Cut.single`, `Cut.cons` — one piece, and a piece in front of others;
* `Bare.concat` — a piece that is read one element after the other;
* `Cut.unique` — a text is cut in one way only.
-/

namespace CLib

variable {α : Type*} [DecidableEq α] {delim quote c : α} {p p' text text' : List α}
  {ps ps' : List (List α)}

/-- The end of `l` lies outside quotes. -/
def Closed (quote : α) (l : List α) : Prop := Even (l.count quote)

/-- Every delimiter in the piece stands inside quotes. -/
def Bare (delim quote : α) (p : List α) : Prop :=
  ∀ l r, p = l ++ delim :: r → ¬ Closed quote l

/-- The pieces of a text: they are closed, so the delimiters between them lie outside quotes, and
all others lie inside. -/
structure Cut (delim quote : α) (text : List α) (ps : List (List α)) : Prop where
  joined : [delim].intercalate ps = text
  nonempty : ps ≠ []
  closed : ∀ p ∈ ps, Closed quote p
  bare : ∀ p ∈ ps, Bare delim quote p

/-! ## Pieces -/

theorem closed_nil (quote : α) : Closed quote [] := Even.zero

theorem bare_nil (delim quote : α) : Bare delim quote [] := fun l _ h => by
  cases l <;> cases h

theorem closed_append_of_closed (h : Closed quote p) (l : List α) :
    Closed quote (p ++ l) ↔ Closed quote l := by
  rw [Closed, Closed, List.count_append, Nat.even_add]
  exact iff_true_left h

theorem closed_concat_quote : Closed quote (p ++ [quote]) ↔ ¬ Closed quote p := by
  rw [Closed, Closed, List.count_append, List.count_singleton_self]
  exact Nat.even_add_one

theorem closed_concat_other (hc : c ≠ quote) : Closed quote (p ++ [c]) ↔ Closed quote p := by
  rw [Closed, Closed, List.count_append, List.count_singleton, if_neg (by simpa using hc),
    Nat.add_zero]

/-- One more element, which is no delimiter outside quotes. -/
theorem Bare.concat (h : Bare delim quote p) (hc : c = delim → ¬ Closed quote p) :
    Bare delim quote (p ++ [c]) := by
  intro l r heq
  rcases List.eq_nil_or_concat r with rfl | ⟨r, x, rfl⟩
  · obtain ⟨rfl, hlast⟩ := List.append_inj' heq rfl
    exact hc (List.cons.inj hlast).1
  · rw [List.concat_eq_append, ← List.cons_append, ← List.append_assoc] at heq
    exact h l r (List.append_inj' heq rfl).1

/-! ## Cuts -/

theorem Cut.single (hclosed : Closed quote p) (hbare : Bare delim quote p) :
    Cut delim quote p [p] where
  joined := List.intercalate_singleton
  nonempty := List.cons_ne_nil p []
  closed _ hq := List.mem_singleton.mp hq ▸ hclosed
  bare _ hq := List.mem_singleton.mp hq ▸ hbare

theorem Cut.cons (h : Cut delim quote text ps) (hclosed : Closed quote p)
    (hbare : Bare delim quote p) : Cut delim quote (p ++ delim :: text) (p :: ps) where
  joined := by
    rw [intercalate_cons h.nonempty, h.joined]
    rfl
  nonempty := List.cons_ne_nil p ps
  closed := List.forall_mem_cons.mpr ⟨hclosed, h.closed⟩
  bare := List.forall_mem_cons.mpr ⟨hbare, h.bare⟩

/-- The text of a cut, from its first piece. -/
theorem Cut.cases (h : Cut delim quote text (p :: ps)) :
    ps = [] ∧ text = p ∨ ∃ rest, text = p ++ delim :: rest ∧ Cut delim quote rest ps := by
  have hjoined := h.joined
  cases ps with
  | nil => exact Or.inl ⟨rfl, hjoined.symm.trans List.intercalate_singleton⟩
  | cons q ps =>
    rw [intercalate_cons (List.cons_ne_nil q ps)] at hjoined
    exact Or.inr ⟨_, hjoined.symm, rfl, List.cons_ne_nil q ps,
      fun r hr => h.closed r (List.mem_cons_of_mem p hr),
      fun r hr => h.bare r (List.mem_cons_of_mem p hr)⟩

/-- A closed piece before a delimiter is no shorter than a piece whose delimiters are quoted. -/
theorem Bare.length_le {rest : List α} (hclosed : Closed quote p) (hbare : Bare delim quote p')
    (h : p ++ delim :: text = p' ++ rest) : p'.length ≤ p.length := by
  by_contra hlonger
  -- otherwise the delimiter behind `p` stands in `p'`, outside quotes
  obtain ⟨l, hl⟩ : p <+: p' :=
    List.prefix_of_prefix_length_le ⟨_, h⟩ (List.prefix_append p' rest) (by omega)
  cases l with
  | nil =>
    rw [List.append_nil] at hl
    rw [hl] at hlonger
    omega
  | cons x l =>
    rw [← hl, List.append_assoc] at h
    obtain ⟨rfl, -⟩ := List.cons.inj (List.append_cancel_left h)
    exact hbare p l hl.symm hclosed

theorem Cut.unique (h : Cut delim quote text ps) (h' : Cut delim quote text ps') : ps = ps' := by
  induction ps generalizing text ps' with
  | nil => exact absurd rfl h.nonempty
  | cons p ps ih =>
    cases ps' with
    | nil => exact absurd rfl h'.nonempty
    | cons p' ps' =>
      have hp := h.closed p List.mem_cons_self
      have hp' := h'.closed p' List.mem_cons_self
      have hbare := h.bare p List.mem_cons_self
      have hbare' := h'.bare p' List.mem_cons_self
      -- the first pieces end at the same delimiter, or both at the end of the text
      rcases h.cases with ⟨rfl, rfl⟩ | ⟨rest, rfl, hrest⟩
      · rcases h'.cases with ⟨rfl, rfl⟩ | ⟨rest', heq, -⟩
        · rfl
        · exact absurd hp' (hbare p' rest' heq)
      · rcases h'.cases with ⟨-, heq⟩ | ⟨rest', heq, hrest'⟩
        · exact absurd hp (hbare' p rest heq.symm)
        · have hle := Bare.length_le hp hbare' heq
          have hge := Bare.length_le hp' hbare heq.symm
          obtain ⟨rfl, hrests⟩ := List.append_inj heq (Nat.le_antisymm hge hle)
          obtain ⟨-, rfl⟩ := List.cons.inj hrests
          rw [ih hrest hrest']

end CLib
