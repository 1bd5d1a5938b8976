import Solidc.Lib.Cyclic

/-! # Mutexes and counters

A mutex stores the thread that holds it, and a counter says how many slots satisfy a test.
What a program point says about both is kept in step with them as long as every thread
changes them together.

* `MutexInv` — the mutex is held by the thread that is inside of it, and is free if none is;
* `MutexMove` — what a step of a thread may do to a mutex;
* `MutexInv.step`, `slotCount_step` — such steps keep the mutex and the counter right.
-/

namespace CLib

variable {T : Type*} {t u : T} {lock lock' : Option T} {inside inside' : T → Bool}

/-- The holder of a mutex is the thread that is inside of it. -/
def MutexInv (lock : Option T) (inside : T → Bool) : Prop :=
  ∀ t, inside t = true ↔ lock = some t

/-- A step of thread `t` acquires the mutex if it is free, releases it from the inside, or
leaves it alone. The flags say whether the thread is inside before and after the step. -/
inductive MutexMove (t : T) : Option T → Bool → Option T → Bool → Prop
  | keep (lock : Option T) (flag : Bool) : MutexMove t lock flag lock flag
  | acquire (flag : Bool) : MutexMove t none flag (some t) true
  | release (lock : Option T) : MutexMove t lock true none false

/-- A step that leaves the flag alone leaves the mutex alone. -/
theorem MutexMove.of_eq {flag flag' : Bool} (hlock : lock' = lock) (hflag : flag' = flag) :
    MutexMove t lock flag lock' flag' := by
  subst hlock hflag
  exact .keep _ _

theorem MutexInv.unique (h : MutexInv lock inside) (ht : inside t = true) (hu : inside u = true) :
    t = u :=
  Option.some.inj (((h t).mp ht).symm.trans ((h u).mp hu))

/-- What one step of thread `t` preserves. -/
theorem MutexInv.step (h : MutexInv lock inside)
    (hmove : MutexMove t lock (inside t) lock' (inside' t))
    (hothers : ∀ u, u ≠ t → inside' u = inside u) : MutexInv lock' inside' := by
  generalize hflag : inside t = flag at hmove
  generalize hflag' : inside' t = flag' at hmove
  intro u
  by_cases hu : u = t
  · subst hu
    have hself := h u
    rw [hflag] at hself
    rw [hflag']
    cases hmove with
    | keep => exact hself
    | acquire => exact ⟨fun _ => rfl, fun _ => rfl⟩
    | release => exact ⟨nofun, nofun⟩
  · have hother := h u
    rw [hothers u hu]
    cases hmove with
    | keep => exact hother
    | acquire =>
      refine ⟨fun hin => ?_, fun heq => ?_⟩
      · cases hother.mp hin
      · exact absurd (Option.some.inj heq).symm hu
    | release =>
      -- `t` was inside, and only one thread is
      refine ⟨fun hin => ?_, nofun⟩
      exact absurd (h.unique hin hflag) hu

/-- A counter that follows the flag of the only slot that changes. -/
theorem slotCount_step {α : Type*} {n i count count' : Nat} {f f' : Nat → α} {q : α → Bool}
    (h : count = slotCount n f q) (hi : i < n) (hothers : ∀ j, j ≠ i → q (f' j) = q (f j))
    (hcount : count' = count + (q (f' i)).toNat - (q (f i)).toNat) :
    count' = slotCount n f' q := by
  have hsame : slotCount n f' q = slotCount n (Function.update f i (f' i)) q := by
    refine slotCount_congr fun j _ => ?_
    by_cases hj : j = i
    · rw [hj, Function.update_self]
    · rw [Function.update_of_ne hj, hothers j hj]
  have hupdate := slotCount_update (f := f) (q := q) hi (f' i)
  rw [← hsame, ← h] at hupdate
  have hweight : ∀ b : Bool, (if b then 1 else 0) = b.toNat := fun b => by cases b <;> rfl
  rw [hweight, hweight] at hupdate
  omega

end CLib
