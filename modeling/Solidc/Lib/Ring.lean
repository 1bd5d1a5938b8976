import Mathlib.Data.List.Basic
import Mathlib.Data.List.Range
import Mathlib.Data.Nat.ModEq
import Mathlib.Logic.Function.Basic

/-! # Ring buffers

A ring of `n` slots holds a queue whose positions only grow; position `i` is kept in slot
`i % n`. `ring n slots lo hi` is the part of the queue at the positions `lo, …, hi - 1`, each
entry with its position.

* `ring_snoc`, `ring_cons`, `ring_append` — one more entry at either end, and two parts;
* `ring_write` — a write ahead of the queue, less than one round away, leaves it alone.
-/

namespace CLib

variable {α : Type*} {n lo hi p : Nat} {slots : Nat → α}

/-- The entries at the positions from `lo` up to `hi`. -/
def ring (n : Nat) (slots : Nat → α) (lo hi : Nat) : List (Nat × α) :=
  (List.range' lo (hi - lo)).map fun i => (i, slots (i % n))

@[simp] theorem ring_length : (ring n slots lo hi).length = hi - lo := by
  simp [ring]

theorem ring_eq_nil (h : hi ≤ lo) : ring n slots lo hi = [] := by
  simp [ring, Nat.sub_eq_zero_of_le h]

theorem ring_snoc (h : lo ≤ hi) :
    ring n slots lo (hi + 1) = ring n slots lo hi ++ [(hi, slots (hi % n))] := by
  unfold ring
  rw [Nat.succ_sub h, List.range'_concat, List.map_append]
  simp [Nat.add_sub_cancel' h]

theorem ring_cons (h : lo < hi) :
    ring n slots lo hi = (lo, slots (lo % n)) :: ring n slots (lo + 1) hi := by
  unfold ring
  obtain ⟨k, rfl⟩ := Nat.exists_eq_add_of_lt h
  rw [show lo + k + 1 - lo = k + 1 by omega, show lo + k + 1 - (lo + 1) = k by omega,
    List.range'_succ, List.map_cons]

theorem ring_append (lo a b : Nat) :
    ring n slots lo (lo + a + b) =
      ring n slots lo (lo + a) ++ ring n slots (lo + a) (lo + a + b) := by
  unfold ring
  rw [show lo + a + b - lo = a + b by omega, Nat.add_sub_cancel_left, Nat.add_sub_cancel_left,
    ← List.range'_append_1, List.map_append]

/-- The tasks of a part of the queue, without the positions. -/
theorem map_snd_ring (lo k : Nat) :
    (ring n slots lo (lo + k)).map (·.2) = (List.range k).map fun i => slots ((lo + i) % n) := by
  unfold ring
  rw [Nat.add_sub_cancel_left, List.range'_eq_map_range, List.map_map, List.map_map]
  rfl

/-- They do not depend on the round. -/
theorem map_snd_ring_mod (lo k : Nat) :
    (ring n slots (lo % n) (lo % n + k)).map (·.2) = (ring n slots lo (lo + k)).map (·.2) := by
  rw [map_snd_ring, map_snd_ring]
  refine List.map_congr_left fun i _ => ?_
  rw [Nat.mod_add_mod]

theorem mem_ring {e : Nat × α} :
    e ∈ ring n slots lo hi ↔ lo ≤ e.1 ∧ e.1 < hi ∧ e.2 = slots (e.1 % n) := by
  constructor
  · intro h
    obtain ⟨i, hi, rfl⟩ := List.mem_map.mp h
    have := List.mem_range'_1.mp hi
    exact ⟨by omega, by omega, rfl⟩
  · rintro ⟨hlo, hhi, h⟩
    exact List.mem_map.mpr ⟨e.1, List.mem_range'_1.mpr (by omega), Prod.ext rfl h.symm⟩

/-- Two positions less than a round apart are kept in different slots. -/
theorem mod_ne_of_near {i j : Nat} (hlt : i < j) (hnear : j < i + n) : i % n ≠ j % n := by
  intro h
  have hdvd : n ∣ j - i := (Nat.modEq_iff_dvd' hlt.le).mp h
  have := Nat.le_of_dvd (by omega) hdvd
  omega

/-- A write ahead of the queue, less than one round away. -/
theorem ring_write (hp : hi ≤ p) (hnear : p < lo + n) (x : α) :
    ring n (Function.update slots (p % n) x) lo hi = ring n slots lo hi := by
  unfold ring
  refine List.map_congr_left fun i hi => ?_
  have hrange := List.mem_range'_1.mp hi
  have hne : i % n ≠ p % n := mod_ne_of_near (by omega) (by omega)
  rw [Function.update_of_ne hne]

end CLib
