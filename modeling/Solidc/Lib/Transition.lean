import Mathlib.Tactic.TypeStar

/-! # Transition systems

A system of labelled steps. `Reach sys cond s`: some run leads to `s` in which every step
meets the condition `cond` on the state before it and its label; with `AnyStep` every run
counts.

* `Reach.invariant` — what holds initially and is kept by every step holds in every
  reachable state;
* `Reach.mono` — a weaker condition allows more runs;
* `Reach.run` — a run that a step function carries out;
* `System.Run.bounded` — a measure that every step lowers bounds the length of the runs.
-/

namespace CLib

/-- Initial states and labelled steps. -/
structure System (S A : Type*) where
  init : S → Prop
  step : S → A → S → Prop

variable {S A : Type*}

/-- The states of the runs whose steps all meet `cond`. -/
inductive Reach (sys : System S A) (cond : S → A → Prop) : S → Prop
  | init {s : S} : sys.init s → Reach sys cond s
  | step {s s' : S} {a : A} : Reach sys cond s → cond s a → sys.step s a s' → Reach sys cond s'

variable {sys : System S A} {cond cond' : S → A → Prop} {s : S}

/-- No condition on the steps. -/
def AnyStep (_ : S) (_ : A) : Prop := True

/-- The invariant rule. -/
theorem Reach.invariant (Inv : S → Prop) (hinit : ∀ s, sys.init s → Inv s)
    (hstep : ∀ s a s', Inv s → cond s a → sys.step s a s' → Inv s') (h : Reach sys cond s) :
    Inv s := by
  induction h with
  | init hs => exact hinit _ hs
  | step _ hc hs ih => exact hstep _ _ _ ih hc hs

theorem Reach.mono (hle : ∀ s a, cond s a → cond' s a) (h : Reach sys cond s) :
    Reach sys cond' s := by
  induction h with
  | init hs => exact .init hs
  | step _ hc hs ih => exact ih.step (hle _ _ hc) hs

/-- A run carried out by a step function that makes only steps of the system. -/
theorem Reach.run {perform : S → A → Option S} {acts : List A} {s' : S}
    (hperform : ∀ s a s', perform s a = some s' → cond s a ∧ sys.step s a s')
    (h : Reach sys cond s) (hrun : acts.foldlM perform s = some s') : Reach sys cond s' := by
  induction acts generalizing s with
  | nil =>
    cases hrun
    exact h
  | cons a acts ih =>
    rw [List.foldlM_cons] at hrun
    obtain ⟨m, hm, hrest⟩ := Option.bind_eq_some_iff.mp hrun
    exact ih (h.step (hperform _ _ _ hm).1 (hperform _ _ _ hm).2) hrest

/-- A run of `k` steps leads to the state. -/
inductive System.Run (sys : System S A) : Nat → S → Prop
  | init {s : S} : sys.init s → Run sys 0 s
  | step {k : Nat} {s s' : S} {a : A} : Run sys k s → sys.step s a s' → Run sys (k + 1) s'

theorem System.Run.reach {k : Nat} (h : sys.Run k s) : Reach sys AnyStep s := by
  induction h with
  | init hs => exact .init hs
  | step _ hs ih => exact ih.step trivial hs

/-- A measure of at most `N` at the start that every step lowers. -/
theorem System.Run.bounded {N k : Nat} (M : S → Nat → Prop) (hinit : ∀ s, sys.init s → M s N)
    (hstep : ∀ s a s' m, M s m → sys.step s a s' → ∃ m' < m, M s' m') (h : sys.Run k s) :
    ∃ m, M s m ∧ k + m ≤ N := by
  induction h with
  | init hs => exact ⟨N, hinit _ hs, by omega⟩
  | step _ hs ih =>
    obtain ⟨m, hm, hle⟩ := ih
    obtain ⟨m', hlt, hm'⟩ := hstep _ _ _ m hm hs
    exact ⟨m', hm', by omega⟩

end CLib
