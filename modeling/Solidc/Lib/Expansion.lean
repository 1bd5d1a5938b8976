import Solidc.Lib.Buffer
import Mathlib.Data.List.Induction

/-! # Expanding a list in place

Every element of a list is replaced by a piece, which may depend on its position. In a block with
enough room behind the list this can be done from right to left: the slot to write next is never
in front of the element to read next.

* `expand` — the list of the pieces, with `expand_induction`, element by element, and
  `expand_map`, for pieces of one element;
* `storeDown` — writing from right to left;
* `Expanding` — the block while some of the elements are still to be read, with `Expanding.start`,
  `Expanding.turn` and `Expanding.finished`.
-/

namespace CLib

variable {α β : Type*}

/-- The pieces of all elements, one behind the other. -/
def expand (piece : Nat → α → List β) (xs : List α) : List β := (xs.mapIdx piece).flatten

section expand

variable {piece : Nat → α → List β} {xs : List α} {i : Nat}

@[simp] theorem expand_nil : expand piece [] = [] := rfl

theorem expand_concat (xs : List α) (x : α) :
    expand piece (xs ++ [x]) = expand piece xs ++ piece xs.length x := by
  rw [expand, List.mapIdx_concat, List.flatten_append, List.flatten_singleton, expand]

theorem expand_take_succ (h : i < xs.length) :
    expand piece (xs.take (i + 1)) = expand piece (xs.take i) ++ piece i xs[i] := by
  rw [List.take_succ_eq_append_getElem h, expand_concat, List.length_take,
    Nat.min_eq_left (Nat.le_of_lt h)]

/-- What holds without elements and is kept by the piece of every element. -/
theorem expand_induction {P : Nat → List β → Prop} (hzero : P 0 [])
    (hsucc : ∀ i (hi : i < xs.length) l, P i l → P (i + 1) (l ++ piece i xs[i])) :
    ∀ n, n ≤ xs.length → P n (expand piece (xs.take n)) := by
  intro n
  induction n with
  | zero => exact fun _ => hzero
  | succ n ih =>
    intro hn
    rw [expand_take_succ hn]
    exact hsucc n hn _ (ih (Nat.le_of_lt hn))

/-- What is kept by every piece holds of all of them. -/
theorem expand_whole {P : Nat → List β → Prop} (hzero : P 0 [])
    (hsucc : ∀ i (hi : i < xs.length) l, P i l → P (i + 1) (l ++ piece i xs[i])) :
    P xs.length (expand piece xs) := by
  have hall := expand_induction hzero hsucc xs.length (Nat.le_refl _)
  rwa [List.take_length] at hall

/-- A list does not become shorter if no piece is empty. -/
theorem le_length_expand (hne : ∀ i x, piece i x ≠ []) (xs : List α) :
    xs.length ≤ (expand piece xs).length := by
  induction xs using List.reverseRecOn with
  | nil => exact Nat.zero_le _
  | append_singleton xs x ih =>
    have hpos := List.length_pos_iff.mpr (hne xs.length x)
    rw [expand_concat, List.length_append, List.length_append, List.length_singleton]
    omega

/-- Where every element becomes one other element the list is mapped. -/
theorem expand_map {f : α → β} (h : ∀ i (hi : i < xs.length), piece i xs[i] = [f xs[i]]) :
    expand piece xs = xs.map f := by
  have hstep : ∀ i (hi : i < xs.length) (l : List β), l = (xs.take i).map f →
      l ++ piece i xs[i] = (xs.take (i + 1)).map f := by
    intro i hi l hl
    rw [hl, h i hi, List.take_succ_eq_append_getElem hi, List.map_append, List.map_singleton]
  have hall := expand_whole (P := fun n l => l = (xs.take n).map f) rfl hstep
  rwa [List.take_length] at hall

end expand

/-! ## Writing from right to left -/

variable {piece : Nat → α → List α} {xs rest mem : List α} {i : Nat} {w : Int}

/-- `*w-- = x` for the elements in turn. There is no slot in front of the block. -/
def storeDown (mem : List α) (w : Int) : List α → Option (List α)
  | [] => some mem
  | x :: xs => do
    let mem ← if 0 ≤ w then store mem w.toNat [x] else none
    storeDown mem (w - 1) xs

/-- Slots in the middle of the block get the elements in the order of the block. -/
theorem storeDown_reverse (l r : List α) {old new : List α} (h : old.length = new.length)
    (hw : w + 1 = l.length + old.length) :
    storeDown (l ++ old ++ r) w new.reverse = some (l ++ new ++ r) := by
  induction new using List.reverseRecOn generalizing old r w with
  | nil =>
    obtain rfl := List.length_eq_zero_iff.mp h
    rfl
  | append_singleton new x ih =>
    rw [List.length_append, List.length_singleton] at h
    have hne : old ≠ [] := List.length_pos_iff.mp (by omega)
    obtain ⟨old, y, rfl⟩ : ∃ front y, old = front ++ [y] :=
      ⟨_, _, (List.dropLast_append_getLast hne).symm⟩
    rw [List.length_append, List.length_singleton] at h hw
    have hslot : w.toNat = (l ++ old).length := by
      rw [List.length_append]
      omega
    have hstore : store (l ++ (old ++ [y]) ++ r) w.toNat [x] = some (l ++ old ++ [x] ++ r) := by
      rw [hslot, ← List.append_assoc l, List.append_assoc _ [y]]
      exact store_slot (l ++ old) y x r
    have hrest := @ih (w - 1) ([x] ++ r) old (by omega) (by omega)
    rw [List.reverse_append, List.reverse_singleton, List.singleton_append, storeDown,
      if_pos (by omega), hstore, List.append_assoc _ [x]]
    refine hrest.trans ?_
    simp only [List.append_assoc]

/-! ## The block in between -/

/-- The first `i` elements are still to be read, and `w` is the slot to write next. Behind the
elements there is a gap, and then the pieces of all elements that have been read. -/
structure Expanding (piece : Nat → α → List α) (xs rest mem : List α) (i : Nat) (w : Int) :
    Prop where
  le : i ≤ xs.length
  cursor : w + 1 = (expand piece (xs.take i)).length
  mem : ∃ gap done, mem = xs.take i ++ gap ++ (done ++ rest) ∧
    i + gap.length = (expand piece (xs.take i)).length ∧
    expand piece xs = expand piece (xs.take i) ++ done

namespace Expanding

theorem start {gap : List α} (h : xs.length + gap.length = (expand piece xs).length) :
    Expanding piece xs rest (xs ++ gap ++ rest) xs.length ((expand piece xs).length - 1) := by
  have htake : xs.take xs.length = xs := List.take_length
  refine ⟨Nat.le_refl _, ?_, gap, [], ?_, ?_, ?_⟩
  · rw [htake]
    omega
  · rw [htake, List.nil_append]
  · rw [htake, h]
  · rw [htake, List.append_nil]

/-- The block has the size of the new list and what stands behind it. -/
theorem length_mem (h : Expanding piece xs rest mem i w) :
    mem.length = (expand piece xs ++ rest).length := by
  obtain ⟨gap, done, rfl, hgap, hdone⟩ := h.mem
  have hle := h.le
  rw [hdone]
  simp only [List.length_append, List.length_take]
  omega

/-- What is still to be read is as it was. -/
theorem unread (h : Expanding piece xs rest mem i w) : mem.take i = xs.take i := by
  obtain ⟨gap, done, rfl, -, -⟩ := h.mem
  have hlen : (xs.take i).length = i := by
    rw [List.length_take, Nat.min_eq_left h.le]
  rw [List.append_assoc, List.take_left' hlen]

/-- The slot to write next is not in front of the element to read next. -/
theorem le_cursor (h : Expanding piece xs rest mem i w) : i ≤ w + 1 := by
  obtain ⟨gap, done, -, hgap, -⟩ := h.mem
  have hcursor := h.cursor
  omega

theorem read (h : Expanding piece xs rest mem (i + 1) w) : mem[i]? = xs[i]? := by
  have heq := congrArg (·[i]?) h.unread
  simpa only [List.getElem?_take_of_lt (Nat.lt_succ_self i)] using heq

/-- One element is read, and its piece is written. -/
theorem turn (h : Expanding piece xs rest mem (i + 1) w) (hi : i < xs.length)
    (hne : ∀ i x, piece i x ≠ []) :
    ∃ mem', storeDown mem w (piece i xs[i]).reverse = some mem' ∧
      Expanding piece xs rest mem' i (w - (piece i xs[i]).length) := by
  obtain ⟨gap, done, hmem, hgap, hdone⟩ := h.mem
  have hcursor := h.cursor
  have hle := le_length_expand hne (xs.take i)
  rw [expand_take_succ hi, List.length_append] at hgap hcursor
  rw [expand_take_succ hi, List.append_assoc] at hdone
  rw [List.length_take, Nat.min_eq_left (Nat.le_of_lt hi)] at hle
  -- the element and the gap: what stays free, and as many slots as the piece has
  have hpos := List.length_pos_iff.mpr (hne i xs[i])
  obtain ⟨free, old, hsplit, hfree⟩ : ∃ free old, xs[i] :: gap = free ++ old ∧
      free.length = (expand piece (xs.take i)).length - i := by
    refine ⟨_, _, (List.take_append_drop ((expand piece (xs.take i)).length - i) _).symm, ?_⟩
    rw [List.length_take, List.length_cons]
    omega
  have hlen := congrArg List.length hsplit
  rw [List.length_cons, List.length_append] at hlen
  have hblock : mem = xs.take i ++ free ++ old ++ (done ++ rest) := by
    rw [hmem, List.take_succ_eq_append_getElem hi, List.append_assoc _ [xs[i]],
      List.singleton_append, hsplit]
    simp only [List.append_assoc]
  have hfront : (xs.take i ++ free).length = (expand piece (xs.take i)).length := by
    rw [List.length_append, List.length_take, Nat.min_eq_left (Nat.le_of_lt hi)]
    omega
  have hstore : storeDown mem w (piece i xs[i]).reverse =
      some (xs.take i ++ free ++ piece i xs[i] ++ (done ++ rest)) := by
    rw [hblock]
    exact storeDown_reverse (xs.take i ++ free) (done ++ rest) (by omega) (by omega)
  refine ⟨_, hstore, Nat.le_of_lt hi, by omega, free, piece i xs[i] ++ done, ?_, by omega, hdone⟩
  simp only [List.append_assoc]

/-- When all elements are read the block has the pieces, and the cursor has passed its start. -/
theorem finished (h : Expanding piece xs rest mem 0 w) :
    mem = expand piece xs ++ rest ∧ w = -1 := by
  obtain ⟨gap, done, hmem, hgap, hdone⟩ := h.mem
  have hcursor := h.cursor
  rw [List.take_zero, expand_nil] at hgap hdone hcursor
  obtain rfl := List.length_eq_zero_iff.mp (by simpa using hgap : gap.length = 0)
  rw [List.nil_append] at hdone
  rw [List.length_nil] at hcursor
  refine ⟨?_, by omega⟩
  rw [hmem, hdone, List.take_zero, List.nil_append, List.nil_append]

end Expanding

end CLib
