import Mathlib.Data.List.Basic
import Mathlib.Tactic.Common

/-! # Blocks of memory

A block is the list of its bytes. Reading or writing outside of it has no value, so a function
that returns has stayed inside its blocks.

* `load`, `store` — access to a part of a block;
* `extent` — the bytes that `n` reads from a pointer give;
* `storeAll` — pieces written one behind the other;
* `realloc` — a block of another size with the same beginning;
* `chunks` — the elements of an array that lie one after the other in a block.
-/

namespace CLib

variable {α : Type*} {mem l l' : List α} {off n k size : Nat}

/-- `n` bytes from `off` on. -/
def load (mem : List α) (off n : Nat) : Option (List α) :=
  if off + n ≤ mem.length then some ((mem.drop off).take n) else none

/-- The bytes are written from `off` on. -/
def store (mem : List α) (off : Nat) (bytes : List α) : Option (List α) :=
  if off + bytes.length ≤ mem.length then
    some (mem.take off ++ (bytes ++ mem.drop (off + bytes.length)))
  else none

/-- The pieces are written one behind the other, from `off` on. -/
def storeAll (mem : List α) (off : Nat) : List (List α) → Option (List α)
  | [] => some mem
  | piece :: pieces => do
    let mem ← store mem off piece
    storeAll mem (off + piece.length) pieces

/-- The `n` bytes from a pointer on. -/
def extent (p : Nat → α) (n : Nat) : List α := (List.range n).map p

/-- The block of `n` bytes that a reallocation gives; `junk` is what stands behind the old
content. -/
def realloc (mem : List α) (n : Nat) (junk : Nat → α) : List α :=
  mem.take n ++ extent junk (n - mem.length)

theorem load_eq (h : off + n ≤ mem.length) : load mem off n = some ((mem.drop off).take n) :=
  if_pos h

/-- Reading what stands behind a known part. -/
theorem load_append : load (l ++ (l' ++ mem)) l.length l'.length = some l' := by
  rw [load_eq (by simp), List.drop_left, List.take_left]

/-- Reading a part of what stands in front. -/
theorem load_left (h : off + n ≤ l.length) :
    load (l ++ mem) off n = some ((l.drop off).take n) := by
  have hdrop : n ≤ (l.drop off).length := by
    rw [List.length_drop]
    omega
  rw [load_eq (by rw [List.length_append]; omega), List.drop_append_of_le_length (by omega),
    List.take_append_of_le_length hdrop]

theorem store_eq {bytes : List α} (h : off + bytes.length ≤ mem.length) :
    store mem off bytes = some (mem.take off ++ (bytes ++ mem.drop (off + bytes.length))) :=
  if_pos h

/-- Writing behind a known part. -/
theorem store_append {bytes : List α} (h : bytes.length ≤ mem.length) :
    store (l ++ mem) l.length bytes = some (l ++ (bytes ++ mem.drop bytes.length)) := by
  rw [store_eq (by simp; omega), List.take_left, ← List.drop_drop, List.drop_left]

/-- Writing the slot behind a known part. -/
theorem store_slot (l : List α) (x y : α) (rest : List α) :
    store (l ++ x :: rest) l.length [y] = some (l ++ [y] ++ rest) := by
  rw [store_append (by simp), List.append_assoc]
  rfl

/-- What is written at the start of a block stands there. -/
theorem store_starts {mem' bytes : List α} (h : store mem 0 bytes = some mem') :
    bytes <+: mem' := by
  unfold store at h
  split at h
  · obtain rfl := Option.some.inj h
    exact List.prefix_append bytes _
  · cases h

theorem length_store {mem' bytes : List α} (h : store mem off bytes = some mem') :
    mem'.length = mem.length := by
  unfold store at h
  split at h
  · obtain rfl := Option.some.inj h
    simp only [List.length_append, List.length_take, List.length_drop]
    omega
  · cases h

/-- Pieces for which there is room behind a known part. -/
theorem storeAll_append {pieces : List (List α)} (h : pieces.flatten.length ≤ mem.length) :
    storeAll (l ++ mem) l.length pieces =
      some (l ++ (pieces.flatten ++ mem.drop pieces.flatten.length)) := by
  induction pieces generalizing l mem with
  | nil => rfl
  | cons piece pieces ih =>
    rw [List.flatten_cons, List.length_append] at h
    have hroom : pieces.flatten.length ≤ (mem.drop piece.length).length := by
      rw [List.length_drop]
      omega
    have hrest := @ih (mem.drop piece.length) (l ++ piece) hroom
    rw [List.length_append, List.append_assoc, List.append_assoc, List.drop_drop] at hrest
    rw [storeAll, store_append (by omega), Option.bind_eq_bind, Option.bind_some, hrest,
      List.flatten_cons, List.length_append, List.append_assoc]

/-- Without room for all of them, one of the pieces reaches outside. -/
theorem storeAll_none {pieces : List (List α)} (hoff : off ≤ mem.length)
    (h : mem.length < off + pieces.flatten.length) : storeAll mem off pieces = none := by
  induction pieces generalizing off mem with
  | nil =>
    rw [List.flatten_nil, List.length_nil] at h
    omega
  | cons piece pieces ih =>
    rw [List.flatten_cons, List.length_append] at h
    rw [storeAll]
    cases hstore : store mem off piece with
    | none => rfl
    | some mem' =>
      have hlen := length_store hstore
      have hroom : off + piece.length ≤ mem.length := by
        by_contra hout
        rw [store, if_neg hout] at hstore
        cases hstore
      exact ih (by omega) (by omega)

@[simp] theorem length_extent (p : Nat → α) (n : Nat) : (extent p n).length = n := by
  simp [extent]

/-- Pieces that leave room for one more element, and that element. -/
theorem storeAll_last (junk : Nat → α) (pieces : List (List α)) (x : α) :
    ((storeAll (extent junk (pieces.flatten.length + 1)) 0 pieces).bind fun r =>
      store r pieces.flatten.length [x]) = some (pieces.flatten ++ [x]) := by
  have hblock := length_extent junk (pieces.flatten.length + 1)
  generalize extent junk (pieces.flatten.length + 1) = block at hblock ⊢
  have hstore : storeAll block 0 pieces =
      some (pieces.flatten ++ block.drop pieces.flatten.length) :=
    storeAll_append (l := []) (by omega)
  obtain ⟨y, hy⟩ : ∃ y, block.drop pieces.flatten.length = [y] := by
    refine List.length_eq_one_iff.mp ?_
    rw [List.length_drop, hblock, Nat.add_sub_cancel_left]
  have hlast := store_slot pieces.flatten y x []
  rw [List.append_nil] at hlast
  rw [hstore, hy, Option.bind_some, hlast]

/-- A text and its last element in a block of their size. -/
theorem store_last (junk : Nat → α) (l : List α) (x : α) :
    ((store (extent junk (l.length + 1)) 0 l).bind fun r => store r l.length [x]) =
      some (l ++ [x]) := by
  have hall := storeAll_last junk [l] x
  rw [List.flatten_singleton, storeAll, Option.bind_eq_bind, Option.bind_assoc] at hall
  exact hall

theorem extent_add (p : Nat → α) (n k : Nat) :
    extent p (n + k) = extent p n ++ extent (fun i => p (n + i)) k := by
  rw [extent, List.range_add, List.map_append, List.map_map]
  rfl

@[simp] theorem length_realloc (mem : List α) (n : Nat) (junk : Nat → α) :
    (realloc mem n junk).length = n := by
  simp only [realloc, List.length_append, List.length_take, length_extent]
  omega

theorem take_realloc (junk : Nat → α) (hn : k ≤ n) (hk : k ≤ mem.length) :
    (realloc mem n junk).take k = mem.take k := by
  rw [realloc, List.take_append_of_le_length (by simp; omega), List.take_take, Nat.min_eq_left hn]

/-! ## Arrays -/

/-- The first `n` elements of `size` bytes each. -/
def chunks (size : Nat) : Nat → List α → List (List α)
  | 0, _ => []
  | n + 1, mem => mem.take size :: chunks size n (mem.drop size)

@[simp] theorem length_chunks (size n : Nat) (mem : List α) : (chunks size n mem).length = n := by
  induction n generalizing mem with
  | zero => rfl
  | succ n ih => rw [chunks, List.length_cons, ih]

/-- The first elements and those that follow them. -/
theorem chunks_add (size n k : Nat) (mem : List α) :
    chunks size (n + k) mem = chunks size n mem ++ chunks size k (mem.drop (n * size)) := by
  induction n generalizing mem with
  | zero => simp [chunks]
  | succ n ih =>
    rw [Nat.succ_add_eq_add_succ, Nat.add_succ, chunks, chunks, ih, List.cons_append,
      List.drop_drop, Nat.succ_mul, Nat.add_comm size]

/-- The elements depend only on the bytes they occupy. -/
theorem chunks_congr (h : l.take (n * size) = l'.take (n * size)) :
    chunks size n l = chunks size n l' := by
  induction n generalizing l l' with
  | zero => rfl
  | succ n ih =>
    have hsize : size ≤ (n + 1) * size := Nat.le_mul_of_pos_left size (Nat.succ_pos n)
    have hhead : l.take size = l'.take size := by
      have := congrArg (List.take size) h
      rwa [List.take_take, List.take_take, Nat.min_eq_left hsize] at this
    have htail : (l.drop size).take (n * size) = (l'.drop size).take (n * size) := by
      have := congrArg (List.drop size) h
      rwa [List.drop_take, List.drop_take, Nat.succ_mul, Nat.add_sub_cancel] at this
    rw [chunks, chunks, hhead, ih htail]

theorem chunks_one (size : Nat) (mem : List α) : chunks size 1 mem = [mem.take size] := rfl

/-- The elements of an array that a pointer leads to. -/
theorem chunks_extent (size n : Nat) (p : Nat → α) :
    chunks size n (extent p (n * size)) =
      (List.range n).map fun i => extent (fun b => p (i * size + b)) size := by
  induction n with
  | zero => rfl
  | succ n ih =>
    rw [chunks_add, List.range_succ, List.map_append, ← ih, Nat.succ_mul, extent_add]
    congr 1
    · refine chunks_congr ?_
      rw [List.take_append_of_le_length (by simp)]
    · rw [chunks_one, List.drop_append_of_le_length (by simp), List.drop_of_length_le (by simp),
        List.nil_append, List.take_of_length_le (by simp)]
      rfl

end CLib
