import Mathlib.Data.List.Nodup

/-! # Singly linked chains

A chain is given by a function from each node to the one after it. `Linked next o l` says that
following the links from `o` to the end goes through the nodes of `l`.
-/

namespace CLib

variable {ι : Type*} {next next' : ι → Option ι} {o : Option ι} {l l' l₁ l₂ : List ι} {x y : ι}

/-- The nodes from `o` to the end of the chain. -/
inductive Linked (next : ι → Option ι) : Option ι → List ι → Prop
  | nil : Linked next none []
  | cons {x : ι} {l : List ι} : Linked next (next x) l → Linked next (some x) (x :: l)

theorem Linked.unique (h : Linked next o l) (h' : Linked next o l') : l = l' := by
  induction h generalizing l' with
  | nil =>
    cases h'
    rfl
  | cons _ ih =>
    cases h' with
    | cons h' => rw [ih h']

/-- The chain from a node in the middle on. -/
theorem Linked.tail (h : Linked next o (l₁ ++ x :: l₂)) : Linked next (next x) l₂ := by
  induction l₁ generalizing o with
  | nil =>
    cases h with
    | cons h => exact h
  | cons y l₁ ih =>
    cases h with
    | cons h => exact ih h

/-- A chain that ends does not come back to a node. -/
theorem Linked.nodup (h : Linked next o l) : l.Nodup := by
  induction h with
  | nil => exact List.nodup_nil
  | @cons x l h ih =>
    refine List.nodup_cons.mpr ⟨fun hmem => ?_, ih⟩
    obtain ⟨l₁, l₂, rfl⟩ := List.append_of_mem hmem
    have := congrArg List.length (h.unique h.tail)
    simp only [List.length_append, List.length_cons] at this
    omega

theorem Linked.congr (h : Linked next o l) (heq : ∀ x ∈ l, next' x = next x) :
    Linked next' o l := by
  induction h with
  | nil => exact .nil
  | @cons x l _ ih =>
    refine .cons ?_
    rw [heq x List.mem_cons_self]
    exact ih fun y hy => heq y (List.mem_cons_of_mem x hy)

/-- Relinking a node cuts off what came after it. -/
theorem Linked.relink (h : Linked next o (l₁ ++ x :: l₂)) (hx : next' x = some y)
    (hy : next' y = none) (heq : ∀ z ∈ l₁, next' z = next z) :
    Linked next' o (l₁ ++ [x, y]) := by
  induction l₁ generalizing o with
  | nil =>
    cases h with
    | cons h =>
      refine .cons ?_
      rw [hx]
      refine .cons ?_
      rw [hy]
      exact .nil
  | cons z l₁ ih =>
    cases h with
    | cons h =>
      refine .cons ?_
      rw [heq z List.mem_cons_self]
      exact ih h fun w hw => heq w (List.mem_cons_of_mem z hw)

end CLib
