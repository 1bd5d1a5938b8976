import Mathlib.Order.Basic
import Mathlib.Data.List.Basic
import Mathlib.Order.Defs.LinearOrder
import Mathlib.Order.Lattice

/-! # Sorted tables

A table of keys and values kept as an array in strictly increasing order of the keys.

* `bsearch` — binary search with an inclusive upper end, as C code writes it;
* `shiftInsert` — insertion from the end, shifting the greater entries up;
* `assoc` — what the table says about a key, and how it changes.
-/

namespace CLib

variable {κ ν : Type*} [LinearOrder κ]

/-- Strictly increasing keys. -/
def SortedKeys (l : List (κ × ν)) : Prop := l.Pairwise fun a b => a.1 < b.1

/-- The value stored under a key. -/
def assoc (l : List (κ × ν)) (k : κ) : Option ν := (l.find? fun e => e.1 == k).map (·.2)

/-- Binary search between `lo` and `hi`. -/
def bsearch (l : List (κ × ν)) (k : κ) : Nat → Int → Int → Option Nat
  | 0, _, _ => none
  | fuel + 1, lo, hi =>
    if hi < lo then none
    else
      match l[((lo + hi) / 2).toNat]? with
      | none => none
      | some e =>
        if e.1 = k then some ((lo + hi) / 2).toNat
        else if e.1 < k then bsearch l k fuel ((lo + hi) / 2 + 1) hi
        else bsearch l k fuel lo ((lo + hi) / 2 - 1)

/-- The entries greater than `k` move from the left part, last entry first, to the right. -/
def shiftRight (k : κ) : List (κ × ν) → List (κ × ν) → List (κ × ν) × List (κ × ν)
  | e :: left, right => if k < e.1 then shiftRight k left (e :: right) else (e :: left, right)
  | [], right => ([], right)

/-- Insertion at the place that the shift leaves free. -/
def shiftInsert (k : κ) (v : ν) (l : List (κ × ν)) : List (κ × ν) :=
  (shiftRight k l.reverse []).1.reverse ++ (k, v) :: (shiftRight k l.reverse []).2

variable {l : List (κ × ν)} {k k' : κ} {v : ν}

/-! ## Looking up -/

theorem assoc_eq_none : assoc l k = none ↔ ∀ e ∈ l, e.1 ≠ k := by
  simp [assoc]

theorem SortedKeys.assoc_eq_some (h : SortedKeys l) {e : κ × ν} (he : e ∈ l) :
    assoc l e.1 = some e.2 := by
  induction l with
  | nil => cases he
  | cons a l ih =>
    obtain ⟨ha, hl⟩ := List.pairwise_cons.mp h
    rcases List.mem_cons.mp he with rfl | he
    · simp [assoc]
    · have hne : (a.1 == e.1) = false := beq_eq_false_iff_ne.mpr (ha e he).ne
      unfold assoc
      rw [List.find?_cons_of_neg (by simp [hne])]
      exact ih hl he

theorem SortedKeys.assoc_iff (h : SortedKeys l) : assoc l k = some v ↔ (k, v) ∈ l := by
  constructor
  · intro hv
    obtain ⟨e, hfind, rfl⟩ := Option.map_eq_some_iff.mp hv
    have hk : e.1 = k := by simpa using List.find?_some hfind
    exact hk ▸ List.mem_of_find?_eq_some hfind
  · intro hmem
    exact h.assoc_eq_some hmem

/-- Indices order the keys. -/
theorem SortedKeys.lt_of_key_lt (h : SortedKeys l) {i j : Nat} {a b : κ × ν}
    (ha : l[i]? = some a) (hb : l[j]? = some b) (hlt : a.1 < b.1) : i < j := by
  obtain ⟨hi, rfl⟩ := List.getElem?_eq_some_iff.mp ha
  obtain ⟨hj, rfl⟩ := List.getElem?_eq_some_iff.mp hb
  rcases Nat.lt_trichotomy i j with hij | hij | hij
  · exact hij
  · subst hij
    exact absurd hlt (lt_irrefl _)
  · have := List.pairwise_iff_getElem.mp h j i hj hi hij
    exact absurd (hlt.trans this) (lt_irrefl _)

/-- A search finds only entries with its key. -/
theorem bsearch_some {fuel : Nat} {lo hi : Int} {i : Nat} (h : bsearch l k fuel lo hi = some i) :
    ∃ v, l[i]? = some (k, v) := by
  induction fuel generalizing lo hi with
  | zero => simp [bsearch] at h
  | succ fuel ih =>
    unfold bsearch at h
    split at h
    · cases h
    · split at h
      · cases h
      · next e he =>
        split at h
        · next hk =>
          cases h
          exact ⟨e.2, by rw [he, ← hk]⟩
        · split at h
          · exact ih h
          · exact ih h

/-- A search that covers every index of its key finds it. -/
theorem SortedKeys.bsearch_none (h : SortedKeys l) {fuel : Nat} {lo hi : Int} (hlo : 0 ≤ lo)
    (hhi : hi < l.length) (hfuel : hi - lo < fuel)
    (hcover : ∀ (i : Nat) (v : ν), l[i]? = some (k, v) → lo ≤ i ∧ (i : Int) ≤ hi)
    (hnone : bsearch l k fuel lo hi = none) (i : Nat) (v : ν) : l[i]? ≠ some (k, v) := by
  induction fuel generalizing lo hi with
  | zero =>
    intro hi
    have := hcover i v hi
    omega
  | succ fuel ih =>
    unfold bsearch at hnone
    split at hnone
    · intro hi
      have := hcover i v hi
      omega
    · split at hnone
      · next hmid =>
        have := List.getElem?_eq_none_iff.mp hmid
        omega
      · next e he =>
        -- the half that is given up has only keys on the wrong side
        split at hnone
        · cases hnone
        · next hne =>
          split at hnone
          · next hlt =>
            refine ih (by omega) hhi (by omega) (fun i v hi => ?_) hnone
            have hcov := hcover i v hi
            have := h.lt_of_key_lt he hi hlt
            omega
          · next hnlt =>
            have hgt : k < e.1 := lt_of_le_of_ne (not_lt.mp hnlt) (Ne.symm hne)
            refine ih hlo (by omega) (by omega) (fun i v hi => ?_) hnone
            have hcov := hcover i v hi
            have := h.lt_of_key_lt hi he hgt
            omega

/-- The search over the whole table. -/
theorem SortedKeys.bsearch_spec (h : SortedKeys l) :
    (bsearch l k (l.length + 1) 0 (l.length - 1) = none ∧ assoc l k = none) ∨
      ∃ i v, bsearch l k (l.length + 1) 0 (l.length - 1) = some i ∧ l[i]? = some (k, v) ∧
        assoc l k = some v := by
  cases hb : bsearch l k (l.length + 1) 0 (l.length - 1) with
  | none =>
    left
    refine ⟨rfl, assoc_eq_none.mpr fun e he hk => ?_⟩
    obtain ⟨i, hi⟩ := List.mem_iff_getElem?.mp he
    refine h.bsearch_none (Int.le_refl 0) (by omega) (by omega)
      (fun i v hi => ?_) hb i e.2 (hk ▸ hi)
    have := (List.getElem?_eq_some_iff.mp hi).1
    omega
  | some i =>
    right
    obtain ⟨v, hv⟩ := bsearch_some hb
    exact ⟨i, v, rfl, hv, h.assoc_eq_some (List.mem_of_getElem? hv)⟩

theorem SortedKeys.set (h : SortedKeys l) {i : Nat} (hi : l[i]? = some (k, v)) (v' : ν) :
    SortedKeys (l.set i (k, v')) := by
  have hkeys : (l.set i (k, v')).map (·.1) = l.map (·.1) := by
    refine List.ext_getElem? fun j => ?_
    rw [List.getElem?_map, List.getElem?_map, List.getElem?_set]
    split_ifs with hij hlt
    · rw [← hij, hi]
      rfl
    · exact absurd (List.getElem?_eq_some_iff.mp hi).1 hlt
    · rfl
  have hsorted : (l.map (·.1)).Pairwise (· < ·) := List.pairwise_map.mpr h
  rw [← hkeys] at hsorted
  exact List.pairwise_map.mp hsorted

theorem SortedKeys.assoc_set (h : SortedKeys l) {i : Nat} (hi : l[i]? = some (k, v)) (v' : ν) :
    assoc (l.set i (k, v')) k' = if k' = k then some v' else assoc l k' := by
  have hs := h.set hi v'
  have hlt := (List.getElem?_eq_some_iff.mp hi).1
  split_ifs with hk
  · subst hk
    exact hs.assoc_iff.mpr (List.mem_set hlt _)
  · cases hv : assoc l k' with
    | some w =>
      -- the entry of `k'` is at another index
      obtain ⟨j, hj⟩ := List.mem_iff_getElem?.mp (h.assoc_iff.mp hv)
      have hne : i ≠ j := by
        rintro rfl
        exact hk (congrArg Prod.fst (Option.some.inj (hj.symm.trans hi)))
      refine hs.assoc_iff.mpr (List.mem_iff_getElem?.mpr ⟨j, ?_⟩)
      rw [List.getElem?_set_ne hne]
      exact hj
    | none =>
      refine assoc_eq_none.mpr fun e he hek => ?_
      rcases List.mem_or_eq_of_mem_set he with he | rfl
      · exact assoc_eq_none.mp hv e he hek
      · exact hk hek.symm

/-! ## Inserting -/

/-- The shift splits the table at `k`. -/
theorem shiftRight_spec {left right : List (κ × ν)} (hleft : SortedKeys left.reverse)
    (hright : ∀ e ∈ right, k < e.1) (hne : ∀ e ∈ left, e.1 ≠ k) :
    (shiftRight k left right).1.reverse ++ (shiftRight k left right).2 = left.reverse ++ right ∧
      (∀ e ∈ (shiftRight k left right).1, e.1 < k) ∧
      ∀ e ∈ (shiftRight k left right).2, k < e.1 := by
  induction left generalizing right with
  | nil => exact ⟨rfl, nofun, hright⟩
  | cons e left ih =>
    rw [List.reverse_cons] at hleft
    obtain ⟨hrest, -, hlast⟩ := List.pairwise_append.mp hleft
    unfold shiftRight
    split
    · next hlt =>
      obtain ⟨happ, hlow, hhigh⟩ := ih hrest (List.forall_mem_cons.mpr ⟨hlt, hright⟩)
        fun e he => hne e (List.mem_cons_of_mem _ he)
      refine ⟨?_, hlow, hhigh⟩
      rw [happ, List.reverse_cons, List.append_assoc]
      rfl
    · next hnlt =>
      have hlt : e.1 < k := lt_of_le_of_ne (not_lt.mp hnlt) (hne e List.mem_cons_self)
      refine ⟨rfl, List.forall_mem_cons.mpr ⟨hlt, fun x hx => ?_⟩, hright⟩
      exact (hlast x (List.mem_reverse.mpr hx) e (List.mem_singleton_self e)).trans hlt

theorem shiftInsert_spec (h : SortedKeys l) (hnew : assoc l k = none) :
    SortedKeys (shiftInsert k v l) ∧ ∃ low high, l = low ++ high ∧
      shiftInsert k v l = low ++ (k, v) :: high := by
  have hne : ∀ e ∈ l.reverse, e.1 ≠ k := fun e he =>
    assoc_eq_none.mp hnew e (List.mem_reverse.mp he)
  have hnil : ∀ e ∈ ([] : List (κ × ν)), k < e.1 := nofun
  obtain ⟨happ, hlow, hhigh⟩ := shiftRight_spec (by rwa [List.reverse_reverse]) hnil hne
  rw [List.reverse_reverse, List.append_nil] at happ
  unfold shiftInsert
  refine ⟨?_, _, _, happ.symm, rfl⟩
  rw [← happ] at h
  obtain ⟨h₁, h₂, h₁₂⟩ := List.pairwise_append.mp h
  refine List.pairwise_append.mpr ⟨h₁, List.pairwise_cons.mpr ⟨hhigh, h₂⟩, ?_⟩
  intro a ha b hb
  rcases List.mem_cons.mp hb with rfl | hb
  · exact hlow a (List.mem_reverse.mp ha)
  · exact h₁₂ a ha b hb

theorem length_shiftInsert (h : SortedKeys l) (hnew : assoc l k = none) :
    (shiftInsert k v l).length = l.length + 1 := by
  obtain ⟨-, low, high, hl, hins⟩ := shiftInsert_spec (v := v) h hnew
  rw [hins, hl, List.length_append, List.length_cons, List.length_append]
  omega

theorem mem_shiftInsert (h : SortedKeys l) (hnew : assoc l k = none) {e : κ × ν} :
    e ∈ shiftInsert k v l ↔ e = (k, v) ∨ e ∈ l := by
  obtain ⟨-, low, high, hl, hins⟩ := shiftInsert_spec (v := v) h hnew
  rw [hins, hl, List.mem_append, List.mem_cons, List.mem_append]
  tauto

theorem assoc_shiftInsert (h : SortedKeys l) (hnew : assoc l k = none) :
    assoc (shiftInsert k v l) k' = if k' = k then some v else assoc l k' := by
  have hs := (shiftInsert_spec (v := v) h hnew).1
  split_ifs with hk
  · subst hk
    exact hs.assoc_iff.mpr ((mem_shiftInsert h hnew).mpr (.inl rfl))
  · cases hv : assoc l k' with
    | some w =>
      exact hs.assoc_iff.mpr ((mem_shiftInsert h hnew).mpr (.inr (h.assoc_iff.mp hv)))
    | none =>
      refine assoc_eq_none.mpr fun e he hek => ?_
      rcases (mem_shiftInsert h hnew).mp he with rfl | he
      · exact hk hek.symm
      · exact assoc_eq_none.mp hv e he hek

/-- The shift in a sorted table without the key: what stays and what moves. -/
theorem shiftRight_split (h : SortedKeys l) (hnew : assoc l k = none) :
    ∃ low high, l = low ++ high ∧ shiftRight k l.reverse [] = (low.reverse, high) ∧
      (∀ e ∈ low, e.1 < k) ∧ ∀ e ∈ high, k < e.1 := by
  have hne : ∀ e ∈ l.reverse, e.1 ≠ k := fun e he =>
    assoc_eq_none.mp hnew e (List.mem_reverse.mp he)
  have hsorted : SortedKeys l.reverse.reverse := by rwa [List.reverse_reverse]
  have hempty : ∀ e ∈ ([] : List (κ × ν)), k < e.1 := nofun
  obtain ⟨happ, hlow, hhigh⟩ := shiftRight_spec hsorted hempty hne
  rw [List.reverse_reverse, List.append_nil] at happ
  refine ⟨_, _, happ.symm, ?_, fun e he => hlow e (List.mem_reverse.mp he), hhigh⟩
  rw [List.reverse_reverse]

/-! ## Changing all values -/

section Map

variable {μ : Type*} (f : ν → μ)

theorem SortedKeys.map (h : SortedKeys l) : SortedKeys (l.map fun e => (e.1, f e.2)) :=
  List.pairwise_map.mpr h

theorem assoc_map : assoc (l.map fun e => (e.1, f e.2)) k = (assoc l k).map f := by
  simp [assoc, List.find?_map, Function.comp_def]

theorem bsearch_map {fuel : Nat} {lo hi : Int} :
    bsearch (l.map fun e => (e.1, f e.2)) k fuel lo hi = bsearch l k fuel lo hi := by
  induction fuel generalizing lo hi with
  | zero => rfl
  | succ fuel ih =>
    simp only [bsearch, List.getElem?_map]
    cases l[((lo + hi) / 2).toNat]? with
    | none => rfl
    | some e => simp only [Option.map_some, ih]

theorem shiftRight_map {left right : List (κ × ν)} :
    shiftRight k (left.map fun e => (e.1, f e.2)) (right.map fun e => (e.1, f e.2)) =
      ((shiftRight k left right).1.map (fun e => (e.1, f e.2)),
        (shiftRight k left right).2.map fun e => (e.1, f e.2)) := by
  induction left generalizing right with
  | nil => rfl
  | cons e left ih =>
    rw [List.map_cons, shiftRight, shiftRight]
    split
    · exact @ih (e :: right)
    · rfl

theorem shiftInsert_map :
    shiftInsert k (f v) (l.map fun e => (e.1, f e.2)) =
      (shiftInsert k v l).map fun e => (e.1, f e.2) := by
  have hnil : ([] : List (κ × μ)) = ([] : List (κ × ν)).map fun e => (e.1, f e.2) := rfl
  rw [shiftInsert, ← List.map_reverse, hnil, shiftRight_map, shiftInsert, List.map_append,
    List.map_cons, List.map_reverse]

end Map

end CLib
