import Mathlib.Data.List.Basic
import Mathlib.Data.List.Nodup
import Mathlib.Tactic.Common

/-! # Marks in an array of flags

* `mark` — a flag is set; outside of the array there is none;
* `Marked` — the positions that were marked, each once;
* `nextMark` — the first mark from a position on: there is one as long as marks are left, and one
  less is left behind it (`nextMark_spec`);
* `FirstMarked` — flags that are set from the first one on.
-/

namespace CLib

variable {flags : List Bool} {js : List Nat} {i j k : Nat}

def mark (flags : List Bool) (i : Nat) : Option (List Bool) :=
  if i < flags.length then some (flags.set i true) else none

/-- The first mark, with the flags from position `k` on. -/
def nextMark : List Bool → Nat → Option Nat
  | [], _ => none
  | true :: _, k => some k
  | false :: flags, k => nextMark flags (k + 1)

/-- Just the flags at these positions are set. -/
structure Marked (flags : List Bool) (js : List Nat) : Prop where
  nodup : js.Nodup
  mem : ∀ j, flags[j]? = some true ↔ j ∈ js
  count : flags.count true = js.length

theorem Marked.fresh (n : Nat) : Marked (List.replicate n false) [] := by
  refine ⟨List.nodup_nil, ?_, ?_⟩
  · intro j
    rw [List.getElem?_replicate]
    split <;> simp
  · rw [List.count_replicate]
    rfl

/-- A flag that is not set yet is set. -/
theorem Marked.mark (h : Marked flags js) (hj : flags[j]? = some false) :
    Marked (flags.set j true) (js ++ [j]) := by
  obtain ⟨hlt, hget⟩ := List.getElem?_eq_some_iff.mp hj
  have hnew : j ∉ js := by
    intro hmem
    cases hj.symm.trans ((h.mem j).mpr hmem)
  refine ⟨?_, ?_, ?_⟩
  · rw [List.nodup_append]
    refine ⟨h.nodup, List.nodup_singleton j, ?_⟩
    intro i hi j' hj' heq
    rw [heq, List.mem_singleton.mp hj'] at hi
    exact hnew hi
  · intro i
    rw [List.mem_append, List.mem_singleton, ← h.mem i]
    by_cases hij : i = j
    · rw [hij, List.getElem?_set_self hlt]
      simp
    · rw [List.getElem?_set_ne (Ne.symm hij)]
      simp [hij]
  · rw [List.count_set hlt, hget, h.count, List.length_append, List.length_singleton]
    simp

/-- The marks from a position on that is one of them. -/
theorem count_drop_of_mark (h : flags[i]? = some true) :
    (flags.drop i).count true = (flags.drop (i + 1)).count true + 1 := by
  obtain ⟨hlt, hget⟩ := List.getElem?_eq_some_iff.mp h
  rw [List.drop_eq_getElem_cons hlt, hget, List.count_cons_self]

theorem count_drop_of_not_mark (h : flags[i]? = some false) :
    (flags.drop i).count true = (flags.drop (i + 1)).count true := by
  obtain ⟨hlt, hget⟩ := List.getElem?_eq_some_iff.mp h
  rw [List.drop_eq_getElem_cons hlt, hget, List.count_cons_of_ne Bool.false_ne_true]

/-- As long as marks are left, the next one is found, and one less is left behind it. -/
theorem nextMark_spec (h : 0 < (flags.drop k).count true) :
    ∃ j, nextMark (flags.drop k) k = some j ∧ k ≤ j ∧ flags[j]? = some true ∧
      (flags.drop k).count true = (flags.drop (j + 1)).count true + 1 := by
  generalize hrest : flags.drop k = rest at h
  induction rest generalizing k with
  | nil => exact absurd h (Nat.lt_irrefl 0)
  | cons flag rest ih =>
    have hget : flags[k]? = some flag := by
      rw [← Nat.add_zero k, ← List.getElem?_drop, hrest]
      rfl
    have hnext : flags.drop (k + 1) = rest := by
      rw [← List.drop_drop, hrest]
      rfl
    cases flag with
    | true =>
      refine ⟨k, rfl, Nat.le_refl _, hget, ?_⟩
      rw [hnext, List.count_cons_self]
    | false =>
      rw [List.count_cons_of_ne Bool.false_ne_true] at h ⊢
      obtain ⟨j, hfound, hle, hmark, hcount⟩ := ih hnext h
      exact ⟨j, hfound, Nat.le_of_succ_le hle, hmark, hcount⟩

/-- At a mark nothing is skipped. -/
theorem nextMark_of_mark (h : flags[k]? = some true) : nextMark (flags.drop k) k = some k := by
  obtain ⟨hlt, hget⟩ := List.getElem?_eq_some_iff.mp h
  rw [List.drop_eq_getElem_cons hlt, hget]
  rfl

/-! ## The first flags -/

/-- Just the first `n` flags are set. -/
def FirstMarked (flags : List Bool) (n : Nat) : Prop :=
  ∀ j, j < flags.length → flags[j]? = some (decide (j < n))

theorem FirstMarked.fresh (m : Nat) : FirstMarked (List.replicate m false) 0 := by
  intro j hj
  rw [List.length_replicate] at hj
  rw [List.getElem?_replicate, if_pos hj]
  rfl

/-- The next flag is set. -/
theorem FirstMarked.succ (h : FirstMarked flags i) : FirstMarked (flags.set i true) (i + 1) := by
  intro j hj
  rw [List.length_set] at hj
  by_cases hji : j = i
  · subst hji
    rw [List.getElem?_set_self hj, decide_eq_true (Nat.lt_succ_self j)]
  · have hiff : j < i + 1 ↔ j < i := by omega
    rw [List.getElem?_set_ne (Ne.symm hji), h j hj, decide_eq_decide.mpr hiff]

end CLib
