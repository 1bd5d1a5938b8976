import Mathlib.Data.List.Basic

/-! # Searching a list for another

`findSub` is the first place where a list occurs in another one, as `strstr` finds it, and
`lastSub` the last one; occurrences may overlap. -/

namespace CLib

variable {α : Type*} [DecidableEq α]

/-- The first index at which `needle` occurs. -/
def findSub (needle : List α) : List α → Option Nat
  | [] => if needle = [] then some 0 else none
  | a :: hay =>
    if needle <+: a :: hay then some 0 else (findSub needle hay).map (· + 1)

/-- The last index at which `needle` occurs. -/
def lastSub (needle : List α) : List α → Option Nat
  | [] => if needle = [] then some 0 else none
  | a :: hay =>
    match lastSub needle hay with
    | some i => some (i + 1)
    | none => if needle <+: a :: hay then some 0 else none

attribute [local simp] findSub lastSub

variable {needle hay : List α} {i : Nat}

/-- It is the first one. -/
theorem findSub_eq_some_iff : findSub needle hay = some i ↔
    i ≤ hay.length ∧ needle <+: hay.drop i ∧ ∀ j < i, ¬ needle <+: hay.drop j := by
  induction hay generalizing i with
  | nil =>
    rw [findSub]
    split
    · next h =>
      constructor
      · rintro ⟨⟩
        simp [h]
      · rintro ⟨hi, -⟩
        rw [Nat.le_zero.mp hi]
    · next h => simp [h]
  | cons a hay ih =>
    rw [findSub]
    split
    · next h =>
      cases i with
      | zero => simp [h]
      | succ i =>
        simp only [Option.some.injEq, reduceCtorEq, false_iff, not_and]
        intro _ _ hfirst
        exact hfirst 0 (Nat.succ_pos i) h
    · next h =>
      cases i with
      | zero => simp [h]
      | succ i =>
        simp only [Option.map_eq_some_iff, Nat.add_right_cancel_iff, exists_eq_right, ih,
          List.length_cons, Nat.add_le_add_iff_right, List.drop_succ_cons]
        refine and_congr_right fun _ => and_congr_right fun _ => ?_
        constructor
        · intro hfirst j hj
          cases j with
          | zero => exact h
          | succ j => exact hfirst j (Nat.lt_of_succ_lt_succ hj)
        · intro hfirst j hj
          exact hfirst (j + 1) (Nat.succ_lt_succ hj)

theorem findSub_eq_none_iff : findSub needle hay = none ↔
    ∀ j ≤ hay.length, ¬ needle <+: hay.drop j := by
  induction hay with
  | nil => simp
  | cons a hay ih =>
    rw [findSub]
    split
    · next h =>
      simp only [reduceCtorEq, false_iff, not_forall]
      exact ⟨0, Nat.zero_le _, fun hn => hn h⟩
    · next h =>
      rw [Option.map_eq_none_iff, ih]
      constructor
      · intro hall j hj
        cases j with
        | zero => exact h
        | succ j => exact hall j (Nat.le_of_succ_le_succ hj)
      · intro hall j hj
        exact hall (j + 1) (Nat.succ_le_succ hj)

/-- Where no occurrence starts is passed over. -/
theorem findSub_append {l : List α} (h : ∀ j < l.length, ¬ needle <+: (l ++ hay).drop j) :
    findSub needle (l ++ hay) = (findSub needle hay).map (· + l.length) := by
  induction l with
  | nil => simp
  | cons a l ih =>
    have hhead : ¬ needle <+: a :: (l ++ hay) := h 0 (Nat.succ_pos _)
    have hrest := ih fun j hj => h (j + 1) (Nat.succ_lt_succ hj)
    rw [List.cons_append, findSub, if_neg hhead, hrest, Option.map_map]
    rfl

/-- One element is found where it stands. -/
theorem findSub_singleton (a : α) (hay : List α) : findSub [a] hay = hay.idxOf? a := by
  induction hay with
  | nil => rfl
  | cons b hay ih =>
    have hhead : [a] <+: b :: hay ↔ (b == a) = true := by
      rw [List.cons_prefix_cons, beq_iff_eq, eq_comm]
      exact and_iff_left (List.nil_prefix)
    rw [findSub, List.idxOf?_cons, ih]
    exact if_congr hhead rfl rfl

/-- The same for a place inside of the list. -/
theorem findSub_drop {k : Nat} (hk : k ≤ hay.length) (h : ∀ j < k, ¬ needle <+: hay.drop j) :
    findSub needle hay = (findSub needle (hay.drop k)).map (· + k) := by
  have htake : (hay.take k).length = k := by rw [List.length_take, Nat.min_eq_left hk]
  have hpass : ∀ j < (hay.take k).length, ¬ needle <+: (hay.take k ++ hay.drop k).drop j := by
    rwa [List.take_append_drop, htake]
  have hskip := findSub_append hpass
  rwa [List.take_append_drop, htake] at hskip

/-! ## The last occurrence -/

theorem lastSub_eq_none_iff : lastSub needle hay = none ↔
    ∀ j ≤ hay.length, ¬ needle <+: hay.drop j := by
  induction hay with
  | nil => simp
  | cons a hay ih =>
    rw [lastSub]
    cases hlast : lastSub needle hay with
    | some i =>
      simp only [reduceCtorEq, false_iff, not_forall]
      have hsome : ¬ ∀ j ≤ hay.length, ¬ needle <+: hay.drop j := by
        rw [← ih, hlast]
        exact Option.some_ne_none i
      push Not at hsome
      obtain ⟨j, hj, hpre⟩ := hsome
      exact ⟨j + 1, Nat.succ_le_succ hj, not_not.mpr hpre⟩
    | none =>
      have hall := ih.mp hlast
      dsimp only
      rw [ite_eq_right_iff]
      constructor
      · intro hhead j hj
        cases j with
        | zero => exact fun h => Option.some_ne_none 0 (hhead h)
        | succ j => exact hall j (Nat.le_of_succ_le_succ hj)
      · intro hnone h
        exact absurd h (hnone 0 (Nat.zero_le _))

/-- What is found stands there, and not behind it. -/
theorem lastSub_spec (h : lastSub needle hay = some i) : i ≤ hay.length ∧ needle <+: hay.drop i ∧
    ∀ j ≤ hay.length, i < j → ¬ needle <+: hay.drop j := by
  induction hay generalizing i with
  | nil =>
    obtain ⟨hnil, hzero⟩ := Option.ite_none_right_eq_some.mp h
    obtain rfl := Option.some.inj hzero
    exact ⟨Nat.le_refl 0, by simp [hnil], fun j hj hlt => absurd hj (Nat.not_le_of_lt hlt)⟩
  | cons a hay ih =>
    rw [lastSub] at h
    cases hlast : lastSub needle hay with
    | some k =>
      rw [hlast] at h
      obtain ⟨hk, hpre, hlater⟩ := ih hlast
      obtain rfl := Option.some.inj h
      refine ⟨Nat.succ_le_succ hk, hpre, fun j hj hlt => ?_⟩
      cases j with
      | zero => exact absurd hlt (Nat.not_lt_zero _)
      | succ j => exact hlater j (Nat.le_of_succ_le_succ hj) (Nat.lt_of_succ_lt_succ hlt)
    | none =>
      rw [hlast] at h
      have hall := lastSub_eq_none_iff.mp hlast
      obtain ⟨hhead, hzero⟩ := Option.ite_none_right_eq_some.mp h
      obtain rfl := Option.some.inj hzero
      refine ⟨Nat.zero_le _, hhead, fun j hj hlt => ?_⟩
      cases j with
      | zero => exact absurd hlt (Nat.lt_irrefl 0)
      | succ j => exact hall j (Nat.le_of_succ_le_succ hj)

/-- It is the last one. -/
theorem lastSub_eq_some_iff : lastSub needle hay = some i ↔
    i ≤ hay.length ∧ needle <+: hay.drop i ∧
      ∀ j ≤ hay.length, i < j → ¬ needle <+: hay.drop j := by
  refine ⟨lastSub_spec, ?_⟩
  rintro ⟨hi, hpre, hlater⟩
  cases hlast : lastSub needle hay with
  | none => exact absurd hpre (lastSub_eq_none_iff.mp hlast i hi)
  | some k =>
    -- neither of two last places is behind the other
    obtain ⟨hk, hpre', hlater'⟩ := lastSub_spec hlast
    have hik : ¬ i < k := fun hlt => hlater k hk hlt hpre'
    have hki : ¬ k < i := fun hlt => hlater' i hi hlt hpre
    exact congrArg some (Nat.le_antisymm (Nat.le_of_not_lt hik) (Nat.le_of_not_lt hki))

/-- It is looked for behind the first one. -/
theorem lastSub_of_findSub (hne : needle ≠ []) (h : findSub needle hay = some i) :
    lastSub needle hay = some (((lastSub needle (hay.drop (i + 1))).map (i + 1 + ·)).getD i) := by
  obtain ⟨hi, hpre, -⟩ := findSub_eq_some_iff.mp h
  rw [lastSub_eq_some_iff]
  cases hlast : lastSub needle (hay.drop (i + 1)) with
  | none =>
    rw [Option.map_none, Option.getD_none]
    refine ⟨hi, hpre, fun j hj hlt => ?_⟩
    have hlater := lastSub_eq_none_iff.mp hlast (j - (i + 1)) (by rw [List.length_drop]; omega)
    rwa [List.drop_drop, Nat.add_sub_cancel' hlt] at hlater
  | some k =>
    obtain ⟨hk, hpre', hlater⟩ := lastSub_eq_some_iff.mp hlast
    have hpos := List.length_pos_iff.mpr hne
    have hfits := hpre.length_le
    rw [List.length_drop] at hk hlater hfits
    rw [List.drop_drop] at hpre'
    rw [Option.map_some, Option.getD_some]
    refine ⟨by omega, hpre', fun j hj hlt => ?_⟩
    have hj' := hlater (j - (i + 1)) (by omega) (by omega)
    rwa [List.drop_drop, Nat.add_sub_cancel' (by omega)] at hj'

theorem lastSub_eq_none_iff_findSub : lastSub needle hay = none ↔ findSub needle hay = none := by
  rw [lastSub_eq_none_iff, findSub_eq_none_iff]

end CLib
