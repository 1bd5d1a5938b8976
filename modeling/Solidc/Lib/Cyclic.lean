import Mathlib.Data.Nat.Bitwise
import Mathlib.Data.Finset.Card
import Mathlib.Algebra.BigOperators.Group.Finset.Basic
import Mathlib.Algebra.Order.BigOperators.Group.Finset
import Mathlib.Algebra.BigOperators.Group.Finset.Piecewise

/-! # Cyclic tables

A table of `n` slots is a function on the indices below `n`; the index after the
last is the first. `cdist n a b` is how many steps lead from `a` to `b`.

* `cdist_add`, `add_cdist`, `cdist_succ` — walking and measuring agree;
* `scan` — the search every probing loop makes: the first slot, walking from a
  start, at which some test holds;
* `slotCount` — how many slots satisfy a test, and how a write changes it.
-/

namespace CLib

/-! ## Powers of two as moduli -/

/-- `n` is a power of two: what the masks `& (n - 1)` rely on. -/
def IsPow2 (n : Nat) : Prop := ∃ k, n = 2 ^ k

theorem IsPow2.pos {n : Nat} (h : IsPow2 n) : 0 < n := by
  obtain ⟨k, rfl⟩ := h
  exact Nat.two_pow_pos k

theorem IsPow2.double {n : Nat} (h : IsPow2 n) : IsPow2 (n * 2) := by
  obtain ⟨k, rfl⟩ := h
  exact ⟨k + 1, (Nat.pow_succ 2 k).symm⟩

/-- Masking with `n - 1` is the remainder by `n`. -/
theorem IsPow2.and_pred {n : Nat} (h : IsPow2 n) (a : Nat) : a &&& (n - 1) = a % n := by
  obtain ⟨k, rfl⟩ := h
  exact Nat.and_two_pow_sub_one_eq_mod a k

/-! ## Distances -/

/-- The number of steps from `a` forward to `b`, cyclically. -/
def cdist (n a b : Nat) : Nat := if a ≤ b then b - a else b + n - a

variable {n a b d : Nat}

/-- A walk of fewer than `n` steps, without the remainder. -/
theorem add_mod_cases (ha : a < n) (hd : d < n) :
    (a + d) % n = if a + d < n then a + d else a + d - n := by
  split_ifs with h
  · exact Nat.mod_eq_of_lt h
  · rw [Nat.mod_eq_sub_mod (by omega), Nat.mod_eq_of_lt (by omega)]

theorem cdist_lt (ha : a < n) (hb : b < n) : cdist n a b < n := by
  unfold cdist
  split_ifs <;> omega

@[simp] theorem cdist_self : cdist n a a = 0 := by
  simp [cdist]

theorem cdist_eq_zero (ha : a < n) : cdist n a b = 0 ↔ a = b := by
  unfold cdist
  split_ifs <;> omega

/-- Walking the distance arrives. -/
theorem add_cdist (ha : a < n) (hb : b < n) : (a + cdist n a b) % n = b := by
  rw [add_mod_cases ha (cdist_lt ha hb)]
  unfold cdist
  split_ifs <;> omega

/-- The distance walked is the distance. -/
theorem cdist_add (ha : a < n) (hd : d < n) : cdist n a ((a + d) % n) = d := by
  rw [add_mod_cases ha hd]
  unfold cdist
  split_ifs <;> omega

/-- The successor slot is one step further, unless the walk closes. -/
theorem cdist_succ (ha : a < n) (hb : b < n) (h : cdist n a b + 1 < n) :
    cdist n a ((b + 1) % n) = cdist n a b + 1 := by
  have h1 : 1 < n := by omega
  rw [add_mod_cases hb h1]
  unfold cdist at h ⊢
  split_ifs at h ⊢ <;> omega

/-- One step forward is one step closer. -/
theorem succ_cdist (ha : a < n) (hb : b < n) (h : a ≠ b) :
    cdist n ((a + 1) % n) b + 1 = cdist n a b := by
  have h1 : 1 < n := by omega
  rw [add_mod_cases ha h1]
  unfold cdist
  split_ifs <;> omega

/-- Slots at the same distance are the same slot. -/
theorem cdist_inj {c : Nat} (ha : a < n) (hb : b < n) (hc : c < n)
    (h : cdist n a b = cdist n a c) : b = c := by
  rw [← add_cdist ha hb, h, add_cdist ha hc]

/-- Distances compose as long as they do not go round. -/
theorem cdist_trans {c : Nat} (ha : a < n) (hb : b < n) (hc : c < n)
    (h : cdist n a b ≤ cdist n a c) : cdist n b c = cdist n a c - cdist n a b := by
  unfold cdist at h ⊢
  split_ifs at h ⊢ <;> omega

/-- A slot met on the way lies between. -/
theorem cdist_split {c : Nat} (ha : a < n) (hb : b < n)
    (h : cdist n a b + cdist n b c < n) : cdist n a c = cdist n a b + cdist n b c := by
  unfold cdist at h ⊢
  split_ifs at h ⊢ <;> omega

/-- The masked difference `(b - a) & (n - 1)` is the distance. -/
theorem sub_mod_eq_cdist (ha : a < n) (hb : b < n) : (b + n - a) % n = cdist n a b := by
  unfold cdist
  split_ifs with h
  · have e : b + n - a = (b - a) + n := by omega
    rw [e, Nat.add_mod_right, Nat.mod_eq_of_lt (by omega)]
  · exact Nat.mod_eq_of_lt (by omega)

/-! ## Searching -/

/-- The first slot at which `stop` holds, walking at most `fuel` slots from `i`. -/
def scan (n : Nat) (stop : Nat → Bool) : Nat → Nat → Option Nat
  | 0, _ => none
  | fuel + 1, i => if stop i then some i else scan n stop fuel ((i + 1) % n)

theorem succ_add_mod (i d : Nat) : ((i + 1) % n + d) % n = (i + (d + 1)) % n := by
  rw [Nat.mod_add_mod]
  congr 1
  omega

/-- What a successful search found, and what it passed over. -/
theorem scan_some {stop : Nat → Bool} {fuel i j : Nat} (hi : i < n)
    (h : scan n stop fuel i = some j) :
    ∃ d < fuel, j = (i + d) % n ∧ stop j = true ∧ ∀ e < d, stop ((i + e) % n) = false := by
  induction fuel generalizing i with
  | zero => cases h
  | succ fuel ih =>
    unfold scan at h
    by_cases hs : stop i = true
    · rw [if_pos hs] at h
      cases h
      exact ⟨0, by omega, (Nat.mod_eq_of_lt hi).symm, hs, fun e he => absurd he (by omega)⟩
    · rw [if_neg hs] at h
      obtain ⟨d, hd, hj, hstop, hbefore⟩ := ih (Nat.mod_lt _ (by omega)) h
      rw [succ_add_mod] at hj
      refine ⟨d + 1, by omega, hj, hstop, ?_⟩
      intro e he
      cases e with
      | zero =>
        rw [Nat.add_zero, Nat.mod_eq_of_lt hi]
        exact Bool.eq_false_iff.mpr hs
      | succ e =>
        rw [← succ_add_mod]
        exact hbefore e (by omega)

/-- A failed search saw no slot satisfying the test. -/
theorem scan_none {stop : Nat → Bool} {fuel i : Nat} (hi : i < n)
    (h : scan n stop fuel i = none) : ∀ d < fuel, stop ((i + d) % n) = false := by
  induction fuel generalizing i with
  | zero => intro d hd; omega
  | succ fuel ih =>
    unfold scan at h
    by_cases hs : stop i = true
    · rw [if_pos hs] at h
      cases h
    · rw [if_neg hs] at h
      intro d hd
      cases d with
      | zero =>
        rw [Nat.add_zero, Nat.mod_eq_of_lt hi]
        exact Bool.eq_false_iff.mpr hs
      | succ d =>
        rw [← succ_add_mod]
        exact ih (Nat.mod_lt _ (by omega)) h d (by omega)

/-- The slot a search found, by its distance from the start. -/
theorem scan_some_cdist {stop : Nat → Bool} {i j : Nat} (hi : i < n)
    (h : scan n stop n i = some j) :
    j < n ∧ stop j = true ∧ ∀ d < cdist n i j, stop ((i + d) % n) = false := by
  rcases scan_some hi h with ⟨d, hd, hj, hs, hbefore⟩
  have hdist : cdist n i j = d := by
    rw [hj]
    exact cdist_add hi hd
  have hjn : j < n := by
    rw [hj]
    exact Nat.mod_lt _ (by omega)
  exact ⟨hjn, hs, by rw [hdist]; exact hbefore⟩

/-- A search of the whole table finds any slot that satisfies the test. -/
theorem scan_isSome (stop : Nat → Bool) {i j : Nat} (hi : i < n) (hj : j < n)
    (hs : stop j = true) : ∃ k, scan n stop n i = some k := by
  cases h : scan n stop n i with
  | some k => exact ⟨k, rfl⟩
  | none =>
    have hno := scan_none hi h (cdist n i j) (cdist_lt hi hj)
    rw [add_cdist hi hj, hs] at hno
    cases hno

/-! ## Counting -/

/-- The number of slots below `n` whose content satisfies `q`. -/
def slotCount {α : Type*} (n : Nat) (f : Nat → α) (q : α → Bool) : Nat :=
  ∑ i ∈ Finset.range n, if q (f i) then 1 else 0

section Counting

variable {α : Type*} {f g : Nat → α} {q : α → Bool}

theorem slotCount_le : slotCount n f q ≤ n := by
  unfold slotCount
  calc ∑ i ∈ Finset.range n, (if q (f i) then 1 else 0)
      ≤ ∑ _i ∈ Finset.range n, 1 := by
        apply Finset.sum_le_sum
        intro i _
        split_ifs <;> omega
    _ = n := by simp

theorem slotCount_congr (h : ∀ i < n, q (f i) = q (g i)) :
    slotCount n f q = slotCount n g q := by
  unfold slotCount
  apply Finset.sum_congr rfl
  intro i hi
  rw [h i (Finset.mem_range.mp hi)]

@[simp] theorem slotCount_zero : slotCount 0 f q = 0 := rfl

theorem slotCount_succ (m : Nat) :
    slotCount (m + 1) f q = slotCount m f q + if q (f m) then 1 else 0 := by
  unfold slotCount
  exact Finset.sum_range_succ _ m

theorem slotCount_eq_zero (h : ∀ i < n, q (f i) = false) : slotCount n f q = 0 := by
  unfold slotCount
  apply Finset.sum_eq_zero
  intro i hi
  rw [h i (Finset.mem_range.mp hi)]
  rfl

/-- Writing slot `i` replaces its weight in a sum over slots. -/
theorem sum_update {T : Type*} [DecidableEq T] {S : Finset T} {i : T} (hi : i ∈ S) (w : α → Nat)
    (f : T → α) (x : α) :
    ∑ j ∈ S, w (Function.update f i x j) + w (f i) = ∑ j ∈ S, w (f j) + w x := by
  rw [← Finset.add_sum_erase _ _ hi, ← Finset.add_sum_erase _ (fun j => w (f j)) hi]
  have hrest : ∑ j ∈ S.erase i, w (Function.update f i x j) = ∑ j ∈ S.erase i, w (f j) := by
    apply Finset.sum_congr rfl
    intro j hj
    rw [Function.update_of_ne (Finset.ne_of_mem_erase hj)]
  simp only [Function.update_self]
  rw [hrest]
  omega

theorem slotCount_pos {i : Nat} (hi : i < n) (hq : q (f i) = true) : 0 < slotCount n f q := by
  unfold slotCount
  have hle := Finset.single_le_sum (f := fun i => if q (f i) then 1 else 0)
    (fun _ _ => Nat.zero_le _) (Finset.mem_range.mpr hi)
  rw [if_pos hq] at hle
  exact hle

/-- Writing slot `i` replaces its contribution. -/
theorem slotCount_update {i : Nat} (hi : i < n) (x : α) :
    slotCount n (Function.update f i x) q + (if q (f i) then 1 else 0) =
      slotCount n f q + (if q x then 1 else 0) :=
  sum_update (Finset.mem_range.mpr hi) (fun a => if q a then 1 else 0) f x

/-- A count of `n` leaves no slot out. -/
theorem exists_of_slotCount_lt (h : slotCount n f q < n) : ∃ i < n, q (f i) = false := by
  by_contra hno
  push Not at hno
  have hall : ∀ i ∈ Finset.range n, (if q (f i) then 1 else 0) = 1 := by
    intro i hi
    rw [if_pos (by simpa using hno i (Finset.mem_range.mp hi))]
  have : slotCount n f q = n := by
    unfold slotCount
    rw [Finset.sum_congr rfl hall]
    simp
  omega

/-- A positive count has a witness. -/
theorem exists_of_slotCount_pos (h : 0 < slotCount n f q) : ∃ i < n, q (f i) = true := by
  by_contra hno
  push Not at hno
  have := slotCount_eq_zero (n := n) (f := f) (q := q) (fun i hi => by simpa using hno i hi)
  omega

end Counting

/-! ## Integer keys -/

/-- Integer keys are compared by an equivalence. -/
theorem nat_beq_equivalence : Equivalence fun a b : Nat => (a == b) = true := by
  constructor
  · intro a
    simp
  · intro a b h
    simpa using (beq_iff_eq.mp h).symm
  · intro a b c h h'
    simpa using (beq_iff_eq.mp h).trans (beq_iff_eq.mp h')

end CLib
