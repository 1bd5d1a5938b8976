import Solidc.Containers.LinkedList
import Solidc.Containers.Slist

/-! # Insertion in front of an element

`slist_insert_before` searches for the element as `list_insert_before` does, and then inserts one
position further to the front, because a node of an `slist` is linked behind the one before it;
but `slist_insert` walks to that node by itself.

* `insertBefore_eq` — the position at which the element ends up;
* `insertIdx_eq_iff` — when two positions of an insertion make no difference;
* `insertsBefore_iff` — when the element is in front of the first equal one, as in a `list_t`.
-/

namespace Solidc.Containers

open CLib

/-! ## The code -/

def slistInsertBefore (s : Slist) (elem before : Nat → UInt8) (mem : Option Nat) :
    Option Slist := do
  let idx ← slistIndexOf s before
  if idx > 0 ∧ intToSize idx < s.size then slistInsert s (intToSize idx - 1) elem mem
  else if idx = 0 then slistPushFront s elem mem
  else some s

/-- The call gives a well-formed list with `elem` in front of the first element equal to
`before`, if there is one, and otherwise the same elements. So does `list_insert_before` on a
`list_t` with the same elements. -/
def InsertsBefore (s : Slist) (elem before : Nat → UInt8) (mem : Option Nat) : Prop :=
  ∃ s', slistInsertBefore s elem before mem = some s' ∧ s'.WellFormed ∧
    s'.elems = sequenceEffect s.elemSize s.elems (.insertBefore elem before mem) ∧
    ∀ (t : LinkedList) (l : List (Nat × List UInt8)), t.Represents l →
      t.elemSize = s.elemSize → t.elems = s.elems →
      (ListOp.insertBefore elem before mem).Fresh t → InRange t (.insertBefore elem before mem) →
      ∃ t', listInsertBefore t elem before mem = some t' ∧ t'.elems = s'.elems

/-- If there is a new node and the element is found: the new element fits behind its node, the
`int` that holds the index is not negative, and all elements between the place where the code
inserts and the found one equal the new element. -/
def LandsBefore (s : Slist) (elem before : Nat → UInt8) (mem : Option Nat) : Prop :=
  mem ≠ none → ∀ i ∈ s.elems.idxOf? (extent before s.elemSize),
    s.elemSize ≤ 2 ^ 32 - 8 ∧ i % 2 ^ 32 < 2 ^ 31 ∧
      ∀ y ∈ (s.elems.take i).drop (i % 2 ^ 32 - 1), y = extent elem s.elemSize

/-! ## Two positions of an insertion -/

theorem cons_eq_snoc_iff {α : Type*} {x : α} {m : List α} :
    x :: m = m ++ [x] ↔ ∀ y ∈ m, y = x := by
  induction m with
  | nil => simp
  | cons y m ih =>
    rw [List.cons_append, List.cons.injEq, List.forall_mem_cons]
    constructor
    · rintro ⟨rfl, hm⟩
      exact ⟨rfl, ih.mp hm⟩
    · rintro ⟨rfl, hm⟩
      exact ⟨rfl, ih.mpr hm⟩

/-- An element can be inserted at two positions alike when only copies of it lie between them. -/
theorem insertIdx_eq_iff {α : Type*} {xs : List α} {x : α} {i j : Nat} (hij : j ≤ i)
    (hi : i ≤ xs.length) :
    xs.insertIdx j x = xs.insertIdx i x ↔ ∀ y ∈ (xs.take i).drop j, y = x := by
  obtain ⟨a, m, b, rfl, rfl, rfl⟩ : ∃ a m b, xs = a ++ (m ++ b) ∧ j = a.length ∧
      i = (a ++ m).length := by
    have hfront := List.take_append_drop j (xs.take i)
    rw [List.take_take, Nat.min_eq_left hij] at hfront
    refine ⟨xs.take j, (xs.take i).drop j, xs.drop i, ?_, ?_, ?_⟩
    · rw [← List.append_assoc, hfront, List.take_append_drop]
    · rw [List.length_take]
      omega
    · rw [List.length_append, List.length_take, List.length_drop, List.length_take]
      omega
  have hfirst := insertIdx_append a (m ++ b) x
  have hsecond := insertIdx_append (a ++ m) b x
  rw [List.append_assoc] at hsecond
  have hmid : ((a ++ (m ++ b)).take (a ++ m).length).drop a.length = m := by
    rw [← List.append_assoc, List.take_left, List.drop_left]
  have hlast : m ++ x :: b = m ++ [x] ++ b := by simp
  rw [hfirst, hsecond, hmid, List.append_assoc, List.append_cancel_left_eq, ← List.cons_append,
    ← cons_eq_snoc_iff, hlast, List.append_cancel_right_eq]

/-! ## The call -/

variable {s : Slist} {l : List (Nat × List UInt8)} {elem before : Nat → UInt8} {mem : Option Nat}

namespace Slist.Represents

theorem length_elems (h : s.Represents l) : s.elems.length = s.size := by
  rw [h.elems_eq, List.length_map, h.size]

theorem found_lt (h : s.Represents l) {x : List UInt8} {i : Nat}
    (hi : s.elems.idxOf? x = some i) : i < s.size := by
  rw [h.elems_eq] at hi
  obtain ⟨l₁, p, l₂, rfl, rfl, -⟩ := exists_cell_of_idxOf? hi
  rw [h.size]
  simp

/-- The found index as an `int` decides what is done, and the insertion is one position off. -/
theorem insertBefore_eq (h : s.Represents l) (elem before : Nat → UInt8) (mem : Option Nat) :
    slistInsertBefore s elem before mem =
      match s.elems.idxOf? (extent before s.elemSize) with
      | some i =>
        if i % 2 ^ 32 < 2 ^ 31 then slistInsert s (i % 2 ^ 32 - 1) elem mem else some s
      | none => some s := by
  have hindex := h.indexOf before
  rcases hi : s.elems.idxOf? (extent before s.elemSize) with _ | i
  · rw [hi, Option.elim_none] at hindex
    simp [slistInsertBefore, hindex]
  · have hlt := h.found_lt hi
    rw [hi, Option.elim_some] at hindex
    rw [slistInsertBefore, hindex, Option.bind_eq_bind, Option.bind_some]
    dsimp only
    by_cases hsmall : i % 2 ^ 32 < 2 ^ 31
    · have hint : toInt32 i = (i % 2 ^ 32 : Nat) := by
        unfold toInt32
        omega
      have hsize : intToSize (toInt32 i) = i % 2 ^ 32 := by
        rw [hint, intToSize]
        omega
      rw [if_pos hsmall, hsize, hint]
      -- index 0 goes to `slist_push_front`, any other one to the position in front of it
      by_cases hzero : i % 2 ^ 32 = 0
      · rw [if_neg (by omega), if_pos (by omega), hzero]
        rw [slistInsert, if_neg (by omega), if_pos rfl]
      · rw [if_pos (by omega)]
    · have hneg : toInt32 i < 0 := by
        unfold toInt32
        omega
      rw [if_neg hsmall, if_neg (by omega), if_neg (by omega)]

/-- A new element that does not fit behind its node is written all the same. -/
theorem insert_huge {index p : Nat} (hindex : index < s.size)
    (hbig : ¬ s.elemSize ≤ 2 ^ 32 - 8) (elem : Nat → UInt8) :
    slistInsert s index elem (some p) = none := by
  have hnew : slistNodeNew s elem (some p) = none :=
    if_neg (Nat.not_le_of_lt (alignedSize_lt (not_le.mp hbig)))
  rw [slistInsert, if_neg (by omega)]
  by_cases hzero : index = 0
  · rw [if_pos hzero, slistPushFront, hnew]
    rfl
  · rw [if_neg hzero, if_neg (by omega), hnew]
    cases walkNext SNode.next s.nodes (index - 1) s.head <;> rfl

theorem insertsBefore_of_gives {xs : List (List UInt8)}
    (hcall : Slist.Gives (slistInsertBefore s elem before mem) xs) :
    InsertsBefore s elem before mem ↔
      xs = sequenceEffect s.elemSize s.elems (.insertBefore elem before mem) := by
  obtain ⟨s', l', hs', hrep, hl'⟩ := hcall
  constructor
  · rintro ⟨s'', hs'', -, helems, -⟩
    obtain rfl := Option.some.inj (hs'.symm.trans hs'')
    rw [← hl', ← hrep.elems_eq, helems]
  · intro heq
    have helems : s'.elems = sequenceEffect s.elemSize s.elems (.insertBefore elem before mem) := by
      rw [hrep.elems_eq, hl', heq]
    -- a second list with the same elements is changed in the same way
    refine ⟨s', hs', hrep.wellFormed, helems, fun t lt ht hsize hsame hfresh hrange => ?_⟩
    obtain ⟨t', lt', ht', hrept, hlt'⟩ := ht.apply _ hfresh hrange
    exact ⟨t', ht', by rw [helems, hrept.elems_eq, hlt', hsize, hsame]⟩

/-- The call with a new node on a list in which the element is found. -/
theorem insertsBefore_found (h : s.Represents l) {i p : Nat}
    (hi : s.elems.idxOf? (extent before s.elemSize) = some i) (hfresh : s.nodes p = none) :
    InsertsBefore s elem before (some p) ↔
      s.elemSize ≤ 2 ^ 32 - 8 ∧ i % 2 ^ 32 < 2 ^ 31 ∧
        ∀ y ∈ (s.elems.take i).drop (i % 2 ^ 32 - 1), y = extent elem s.elemSize := by
  have hlt := h.found_lt hi
  have hmod := Nat.mod_le i (2 ^ 32)
  have hle : i ≤ s.elems.length := by
    rw [h.length_elems]
    omega
  have hcall := h.insertBefore_eq elem before (some p)
  have heffect : sequenceEffect s.elemSize s.elems (.insertBefore elem before (some p)) =
      s.elems.insertIdx i (extent elem s.elemSize) := by
    simp [sequenceEffect, hi]
  rw [hi] at hcall
  dsimp only at hcall
  by_cases hsmall : i % 2 ^ 32 < 2 ^ 31
  · rw [if_pos hsmall] at hcall
    by_cases hfits : s.elemSize ≤ 2 ^ 32 - 8
    · have hnew : ∀ q ∈ some p, s.nodes q = none := by
        rintro q ⟨⟩
        exact hfresh
      have hgives := h.insert elem (i % 2 ^ 32 - 1) hnew fun _ _ => hfits
      rw [if_neg (Option.some_ne_none p), ← h.elems_eq, ← hcall] at hgives
      rw [insertsBefore_of_gives hgives, heffect, insertIdx_eq_iff (by omega) hle]
      exact ⟨fun hall => ⟨hfits, hsmall, hall⟩, fun hall => hall.2.2⟩
    · -- the write over the end of the node has no value
      rw [insert_huge (by omega) hfits] at hcall
      refine ⟨?_, fun hall => absurd hall.1 hfits⟩
      rintro ⟨s', hs', -⟩
      rw [hcall] at hs'
      cases hs'
  · -- nothing is inserted, and the sequence should get longer
    have hgives : Slist.Gives (slistInsertBefore s elem before (some p)) s.elems := by
      rw [hcall, if_neg hsmall]
      exact ⟨s, l, rfl, h, h.elems_eq.symm⟩
    rw [insertsBefore_of_gives hgives, heffect]
    refine ⟨fun heq => ?_, fun hall => absurd hall.2.1 hsmall⟩
    have hlen := congrArg List.length heq
    rw [List.length_insertIdx_of_le_length hle] at hlen
    omega

/-- Without a new node or an equal element nothing changes. -/
theorem insertsBefore_idle (h : s.Represents l)
    (hidle : mem = none ∨ s.elems.idxOf? (extent before s.elemSize) = none) :
    InsertsBefore s elem before mem := by
  have hcall := h.insertBefore_eq elem before mem
  have hgives : Slist.Gives (slistInsertBefore s elem before mem) s.elems := by
    have hsame : Slist.Gives (some s) s.elems := ⟨s, l, rfl, h, h.elems_eq.symm⟩
    rw [hcall]
    rcases hi : s.elems.idxOf? (extent before s.elemSize) with _ | i
    · exact hsame
    · -- the element is found, but there is no node for the new one
      obtain rfl : mem = none := hidle.resolve_right (by simp [hi])
      dsimp only
      split
      · have hnew : ∀ q ∈ (none : Option Nat), s.nodes q = none := nofun
        have hinsert := h.insert elem (i % 2 ^ 32 - 1) hnew nofun
        rwa [if_pos rfl, ← h.elems_eq] at hinsert
      · exact hsame
  rw [insertsBefore_of_gives hgives, sequenceEffect]
  rcases hidle with rfl | hnone
  · cases s.elems.idxOf? (extent before s.elemSize) <;> rfl
  · rw [hnone]

end Slist.Represents

/-- On a list that stands for any cells, `slist_insert_before` does what its name says exactly
when its position makes no difference. -/
theorem insertsBefore_iff (h : s.Represents l) (elem before : Nat → UInt8)
    (hfresh : ∀ p ∈ mem, s.nodes p = none) :
    InsertsBefore s elem before mem ↔ LandsBefore s elem before mem := by
  cases mem with
  | none => exact ⟨fun _ hmem => absurd rfl hmem, fun _ => h.insertsBefore_idle (Or.inl rfl)⟩
  | some p =>
    rcases hi : s.elems.idxOf? (extent before s.elemSize) with _ | i
    · refine ⟨fun _ _ i hi' => ?_, fun _ => h.insertsBefore_idle (Or.inr hi)⟩
      rw [hi] at hi'
      cases hi'
    · rw [h.insertsBefore_found hi (hfresh p rfl)]
      constructor
      · intro hall _ j hj
        obtain rfl : i = j := by
          rw [hi] at hj
          exact Option.some.inj hj
        exact hall
      · intro hall
        exact hall (Option.some_ne_none p) i hi

/-- The list of `[7]` and `[8]` at the addresses 1 and 0. -/
def sevenEight : Slist where
  head := some 1
  tail := some 0
  size := 2
  elemSize := 1
  nodes p := if p = 1 then some ⟨[7], some 0⟩ else if p = 0 then some ⟨[8], none⟩ else none

theorem sevenEight_represents : sevenEight.Represents [(1, [7]), (0, [8])] := by
  refine ⟨⟨rfl, rfl, trivial⟩, by decide, rfl, rfl, rfl, fun p hp => ?_⟩
  have hone : p ≠ 1 := fun h => hp (by simp [h])
  have hzero : p ≠ 0 := fun h => hp (by simp [h])
  simp [sevenEight, hone, hzero]

/-- `[9]` in front of `[7]`. -/
theorem insertsBefore_first :
    InsertsBefore sevenEight (fun _ => 9) (fun _ => 7) (some 2) := by
  refine (insertsBefore_iff sevenEight_represents _ _ ?_).mpr ?_
  · rintro p ⟨⟩
    rfl
  · intro _ i hi
    obtain rfl : 0 = i := Option.some.inj hi
    exact ⟨by decide, by decide, by decide⟩

/-- `[9]` in front of `[8]` is put in front of `[7]`. -/
theorem insertsBefore_second :
    (∃ s', slistInsertBefore sevenEight (fun _ => 9) (fun _ => 8) (some 2) = some s' ∧
      s'.elems = [[9], [7], [8]]) ∧
    ¬ InsertsBefore sevenEight (fun _ => 9) (fun _ => 8) (some 2) := by
  refine ⟨⟨_, rfl, rfl⟩, ?_⟩
  rintro ⟨s', hs', -, helems, -⟩
  obtain rfl := Option.some.inj hs'
  exact absurd helems (by decide)

end Solidc.Containers
