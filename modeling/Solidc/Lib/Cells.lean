import Mathlib.Logic.Function.Basic
import Mathlib.Tactic.Common

/-! # Arrays that loops fill

A counting loop whose body may be undefined, and an array of cells that are undefined until they
are written; access outside of the array is undefined too.

* `forLoop_inv` — a loop keeps an invariant that counts with it;
* `forLoop_keeps` — what every turn keeps, a loop keeps, if it is defined;
* `forLoop_eq_none` — a loop is undefined if one of its turns is.
-/

namespace CLib

variable {σ : Type*} {lo hi k : Nat} {body : Nat → σ → Option σ} {st : σ}

/-- `for (i = lo; i < hi; i++)`. -/
def forLoop (lo hi : Nat) (body : Nat → σ → Option σ) (st : σ) : Option σ :=
  (List.range' lo (hi - lo)).foldlM (fun st i => body i st) st

theorem forLoop_self (lo : Nat) (body : Nat → σ → Option σ) (st : σ) :
    forLoop lo lo body st = some st := by
  rw [forLoop, Nat.sub_self]
  rfl

theorem forLoop_of_lt (h : lo < hi) :
    forLoop lo hi body st = (body lo st).bind (forLoop (lo + 1) hi body) := by
  have hcount : hi - lo = hi - (lo + 1) + 1 := by omega
  rw [forLoop, hcount, List.range'_succ]
  rfl

theorem forLoop_inv (P : Nat → σ → Prop) (hle : lo ≤ hi) (hinit : P lo st)
    (hstep : ∀ i st, lo ≤ i → i < hi → P i st → ∃ st', body i st = some st' ∧ P (i + 1) st') :
    ∃ st', forLoop lo hi body st = some st' ∧ P hi st' := by
  obtain ⟨n, rfl⟩ := Nat.exists_eq_add_of_le hle
  clear hle
  induction n generalizing lo st with
  | zero => exact ⟨st, forLoop_self lo body st, hinit⟩
  | succ n ih =>
    obtain ⟨st₁, hbody, hnext⟩ := hstep lo st (Nat.le_refl lo) (by omega) hinit
    have hrest : ∃ st', forLoop (lo + 1) (lo + 1 + n) body st₁ = some st' ∧
        P (lo + 1 + n) st' :=
      ih hnext fun i st hlow hhigh => hstep i st (by omega) (by omega)
    rw [forLoop_of_lt (by omega), hbody, Option.bind_some]
    rwa [Nat.add_right_comm, Nat.add_assoc] at hrest

theorem forLoop_keeps (P : σ → Prop) (hinit : P st)
    (hstep : ∀ i st st', P st → body i st = some st' → P st') {st' : σ}
    (h : forLoop lo hi body st = some st') : P st' := by
  obtain hlt | hge := Nat.lt_or_ge lo hi
  · obtain ⟨n, rfl⟩ := Nat.exists_eq_add_of_le (Nat.le_of_lt hlt)
    clear hlt
    induction n generalizing lo st with
    | zero =>
      rw [Nat.add_zero, forLoop_self] at h
      cases h
      exact hinit
    | succ n ih =>
      rw [forLoop_of_lt (by omega), Option.bind_eq_some_iff] at h
      obtain ⟨st₁, hbody, hrest⟩ := h
      rw [Nat.add_comm n 1, ← Nat.add_assoc] at hrest
      exact ih (hstep lo st st₁ hinit hbody) hrest
  · rw [forLoop, Nat.sub_eq_zero_of_le hge] at h
    cases h
    exact hinit

theorem forLoop_eq_none (P : σ → Prop) (hk : lo ≤ k ∧ k < hi) (hinit : P st)
    (hstep : ∀ i st st', P st → body i st = some st' → P st')
    (hfail : ∀ st, P st → body k st = none) : forLoop lo hi body st = none := by
  obtain ⟨n, rfl⟩ := Nat.exists_eq_add_of_le hk.1
  have hhi := hk.2
  clear hk
  induction n generalizing lo st with
  | zero =>
    have hbody : body lo st = none := hfail st hinit
    rw [forLoop_of_lt (by omega), hbody, Option.bind_none]
  | succ n ih =>
    rw [forLoop_of_lt (by omega)]
    cases hbody : body lo st with
    | none => rfl
    | some st₁ =>
      rw [Option.bind_some]
      refine ih (hstep lo st st₁ hinit hbody) ?_ ?_
      · rwa [Nat.add_right_comm, Nat.add_assoc]
      · rwa [Nat.add_right_comm, Nat.add_assoc]

/-! ## Cells -/

/-- The cells of an array. -/
structure Cells (β : Type*) where
  size : Nat
  cell : Nat → Option β

variable {β : Type*} {mem : Cells β} {i j : Nat} {x : β}

/-- A new array. -/
def Cells.fresh (size : Nat) : Cells β := ⟨size, fun _ => none⟩

def Cells.read (mem : Cells β) (i : Nat) : Option β := if i < mem.size then mem.cell i else none

/-- The array with another value in a cell. -/
def Cells.set (mem : Cells β) (i : Nat) (x : β) : Cells β :=
  { mem with cell := Function.update mem.cell i (some x) }

def Cells.write (mem : Cells β) (i : Nat) (x : β) : Option (Cells β) :=
  if i < mem.size then some (mem.set i x) else none

@[simp] theorem Cells.size_fresh (n : Nat) : (fresh n : Cells β).size = n := rfl

@[simp] theorem Cells.size_set (mem : Cells β) (i : Nat) (x : β) : (mem.set i x).size = mem.size :=
  rfl

theorem Cells.write_eq (h : i < mem.size) : mem.write i x = some (mem.set i x) := if_pos h

theorem Cells.write_eq_none (h : mem.size ≤ i) : mem.write i x = none :=
  if_neg (Nat.not_lt.mpr h)

theorem Cells.size_write {mem' : Cells β} (h : mem.write i x = some mem') :
    mem'.size = mem.size := by
  unfold write at h
  split at h
  · cases h
    rfl
  · cases h

theorem Cells.read_set (h : i < mem.size) : (mem.set i x).read i = some x := by
  rw [read, if_pos (by exact h), set]
  exact Function.update_self i (some x) mem.cell

theorem Cells.read_set_of_ne (h : j ≠ i) : (mem.set i x).read j = mem.read j := by
  unfold read set
  dsimp only
  rw [Function.update_of_ne h]

end CLib
