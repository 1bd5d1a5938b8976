import Solidc.Lib.RobinHood

/-! # The stored distances of a Robin Hood table

A cyclic table of `n` slots, of which only the distances are looked at: `p i` is the distance that
the cell of slot `i` stores, and `none` stands for an empty slot. Whether a distance is the one to
the cell's home plays no part, so these facts hold whatever the hash function does.

* `Stepped` — a stored distance is at most one more than that of the slot before, and zero behind
  an empty slot; `FitsAt` — the same for a cell in hand;
* `Stepped.write`, `Stepped.clear` — writing a slot, and emptying one;
* `Grounded` — a slot at which a backward shift stops; `Stepped.grounded_succ` and
  `Grounded.shift` say why there always is one.
-/

namespace CLib

variable {n : Nat} {p : Nat → Option Nat} {c d i idx z : Nat}

/-- The largest distance that the slot behind may store. -/
def reach : Option Nat → Nat
  | none => 0
  | some d => d + 1

def Stepped (n : Nat) (p : Nat → Option Nat) : Prop :=
  ∀ i < n, ∀ d, p ((i + 1) % n) = some d → d ≤ reach (p i)

/-- A cell in hand with the distance `d` has come to `idx`. -/
def FitsAt (n : Nat) (p : Nat → Option Nat) (d idx : Nat) : Prop :=
  ∀ i < n, (i + 1) % n = idx → d ≤ reach (p i)

/-- The slot is empty, or its cell stores the distance zero. -/
def Grounded (p : Nat → Option Nat) (z : Nat) : Prop := ∀ d, p z = some d → d = 0

/-! ## Cells in hand -/

theorem fitsAt_zero (n : Nat) (p : Nat → Option Nat) (idx : Nat) : FitsAt n p 0 idx :=
  fun _ _ _ => Nat.zero_le _

/-- Behind an occupied slot. -/
theorem fitsAt_succ (hidx : idx < n) (hp : p idx = some c) (hd : d ≤ c + 1) :
    FitsAt n p d ((idx + 1) % n) := by
  intro i hi hnext
  rw [succ_mod_inj hi hidx hnext, hp]
  exact hd

/-! ## Writing and emptying a slot -/

theorem Stepped.write (h : Stepped n p) (h1 : 1 < n) (hfits : FitsAt n p d idx)
    (hnext : ∀ e, p ((idx + 1) % n) = some e → e ≤ d + 1) :
    Stepped n (Function.update p idx (some d)) := by
  intro i hi e he
  have hne := succ_mod_ne h1 hi
  by_cases hat : (i + 1) % n = idx
  · -- the written slot, seen from the one before
    rw [hat, Function.update_self] at he
    rw [← Option.some.inj he, Function.update_of_ne (by omega)]
    exact hfits i hi hat
  · rw [Function.update_of_ne hat] at he
    by_cases hii : i = idx
    · rw [hii] at he ⊢
      rw [Function.update_self]
      exact hnext e he
    · rw [Function.update_of_ne hii]
      exact h i hi e he

/-- Writing over a slot that is empty or stores no more than the new distance. -/
theorem Stepped.put (h : Stepped n p) (h1 : 1 < n) (hidx : idx < n) (hfits : FitsAt n p d idx)
    (hpoor : reach (p idx) ≤ d + 1) : Stepped n (Function.update p idx (some d)) :=
  h.write h1 hfits fun e he => (h idx hidx e he).trans hpoor

/-- Emptying a slot before a grounded one. -/
theorem Stepped.clear (h : Stepped n p) (hnext : Grounded p ((idx + 1) % n)) :
    Stepped n (Function.update p idx none) := by
  intro i hi e he
  by_cases hat : (i + 1) % n = idx
  · rw [hat, Function.update_self] at he
    cases he
  · rw [Function.update_of_ne hat] at he
    by_cases hii : i = idx
    · rw [hii] at he
      rw [hnext e he]
      exact Nat.zero_le _
    · rw [Function.update_of_ne hii]
      exact h i hi e he

/-! ## Where a backward shift stops -/

/-- A cell put down in an empty slot leaves a grounded slot behind it, also in a table that is full
now. -/
theorem Stepped.grounded_succ (h : Stepped n p) (h1 : 1 < n) (hidx : idx < n)
    (hempty : p idx = none) : Grounded (Function.update p idx (some d)) ((idx + 1) % n) := by
  intro e he
  rw [Function.update_of_ne (succ_mod_ne h1 hidx)] at he
  have hle := h idx hidx e he
  rw [hempty] at hle
  exact Nat.le_zero.mp hle

/-- The cell behind the hole moves into it and comes one nearer. -/
theorem Stepped.shift (h : Stepped n p) (h1 : 1 < n) (hidx : idx < n)
    (hc : p idx = some c) (hd : p ((idx + 1) % n) = some d) :
    Stepped n (Function.update p idx (some (d - 1))) := by
  have hback : d ≤ c + 1 := by
    have := h idx hidx d hd
    rwa [hc] at this
  refine h.write h1 ?_ ?_
  · intro i hi hat
    have hfits := h i hi c (by rw [hat]; exact hc)
    omega
  · intro e he
    rw [hd] at he
    have := Option.some.inj he
    omega

/-- A grounded slot stays one, also when it is the hole. -/
theorem Grounded.shift (hz : Grounded p z) (h : Stepped n p) (hidx : idx < n)
    (hc : p idx = some c) (hd : p ((idx + 1) % n) = some d) :
    Grounded (Function.update p idx (some (d - 1))) z := by
  intro e he
  by_cases hzh : z = idx
  · -- the hole is grounded: the cell behind it is at most one step from home
    rw [hzh, Function.update_self] at he
    have hback := h idx hidx d hd
    have hzero := hz c (by rw [hzh]; exact hc)
    rw [hc, hzero] at hback
    have := Option.some.inj he
    change d ≤ 0 + 1 at hback
    omega
  · rw [Function.update_of_ne hzh] at he
    exact hz e he

end CLib
