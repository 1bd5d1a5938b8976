import Solidc.Lib.Align
import Solidc.Lib.Buffer
import Solidc.Lib.NodeChain
import Mathlib.Order.Nat

/-! # Nodes of linked lists

What `list.c` and `slist.c` have in common: the size of a node's element, the walks along `next`
and the count of a search in an `int`. A node is one allocation, the links and behind them
`aligned_size(elem_size)` bytes. A node that is not allocated, a NULL pointer that is followed and
a walk that does not end have no value.

The definitions are over any type of nodes with a `next` link and an element; `NodeLike` relates
them to chains of cells.
-/

namespace Solidc.Containers

open CLib

/-! ## Sizes and indices -/

/-- `aligned_size`. The mask `~(ALIGNMENT_MASK)` is a 32-bit value. -/
def alignedSize (n : Nat) : Nat := (n + 7) % 2 ^ 64 &&& (2 ^ 32 - 1 - 7)

/-- The value of an `int` after an operation that wraps around. -/
def toInt32 (x : Int) : Int := (x + 2 ^ 31) % 2 ^ 32 - 2 ^ 31

/-- `(size_t)x` of an `int`. -/
def intToSize (x : Int) : Nat := (x % 2 ^ 64).toNat

/-- Below 4 GiB the mask of `aligned_size` loses nothing. -/
theorem le_alignedSize {n : Nat} (h : n ≤ 2 ^ 32 - 8) : n ≤ alignedSize n := by
  have hmask : (2 ^ 32 - 1 - 7 : Nat) = (wordSize - 2 ^ 3) &&& (2 ^ 32 - 1) := by decide
  have hmod : (n + 7) % 2 ^ 64 = n + 7 := Nat.mod_eq_of_lt (by omega)
  rw [alignedSize, hmod, hmask, ← Nat.land_assoc, and_high_mask (by unfold wordSize; omega)
    (by decide), Nat.and_two_pow_sub_one_eq_mod, Nat.mod_eq_of_lt (by omega)]
  omega

/-- From there on it cuts the size. -/
theorem alignedSize_lt {n : Nat} (h : 2 ^ 32 - 8 < n) : alignedSize n < n :=
  lt_of_le_of_lt Nat.and_le_right h

theorem toInt32_succ (k : Nat) : toInt32 (toInt32 k + 1) = toInt32 (k + 1 : Nat) := by
  unfold toInt32
  omega

theorem toInt32_eq {i : Nat} (h : i < 2 ^ 31) : toInt32 i = i := by
  unfold toInt32
  omega

/-- An index within the range of an `int` survives the conversions. -/
theorem intToSize_toInt32 {i : Nat} (h : i < 2 ^ 31) : intToSize (toInt32 i) = i := by
  rw [toInt32_eq h, intToSize, Int.emod_eq_of_lt (by omega) (by omega), Int.toNat_natCast]

/-! ## Walks -/

variable {ν δ : Type*} (next : ν → Option Nat) (data : ν → δ)

/-- `steps` times `cur = cur->next`. -/
def walkNext (nodes : Nat → Option ν) : Nat → Option Nat → Option (Option Nat)
  | 0, cur => some cur
  | _ + 1, none => none
  | steps + 1, some cur => (nodes cur).bind fun n => walkNext nodes steps (next n)

/-- Frees the nodes from `cur` on. -/
def clearLoop : Nat → (Nat → Option ν) → Option Nat → Option (Nat → Option ν)
  | _, nodes, none => some nodes
  | 0, _, some _ => none
  | fuel + 1, nodes, some cur => (nodes cur).bind fun n => clearLoop fuel (free nodes cur) (next n)

/-- The loop of a search at the node `cur` with the count `idx`. -/
def indexOfLoop [BEq δ] (nodes : Nat → Option ν) (elem : δ) :
    Nat → Option Nat → Int → Option Int
  | _, none, _ => some (-1)
  | 0, some _, _ => none
  | fuel + 1, some cur, idx =>
    (nodes cur).bind fun n =>
      if data n == elem then some idx
      else indexOfLoop nodes elem fuel (next n) (toInt32 (idx + 1))

/-- The elements of the nodes from `cur` on, `size` of them at most. -/
def collect (nodes : Nat → Option ν) : Nat → Option Nat → List δ
  | 0, _ => []
  | _ + 1, none => []
  | size + 1, some cur =>
    match nodes cur with
    | none => []
    | some n => data n :: collect nodes size (next n)

/-- A cell stands for a node with its element and its successor. -/
def NodeLike (P : (Nat → Option ν) → Option Nat → Nat → δ → Option Nat → Prop) : Prop :=
  ∀ nodes o p d o', P nodes o p d o' → ∃ n, nodes p = some n ∧ data n = d ∧ next n = o'

variable {next data} {P : (Nat → Option ν) → Option Nat → Nat → δ → Option Nat → Prop}
  {nodes : Nat → Option ν} {l l₁ l₂ : List (Nat × δ)} {prv : Option Nat}

theorem collect_chain (hP : NodeLike next data P) (h : Chain (P nodes) prv l none) :
    collect next data nodes l.length (firstOr none l) = l.map Prod.snd := by
  induction l generalizing prv with
  | nil => rfl
  | cons c l ih =>
    obtain ⟨n, hn, hdata, hnext⟩ := hP _ _ _ _ _ h.1
    simp only [firstOr_cons, List.length_cons, collect, hn, List.map_cons, hdata, hnext, ih h.2]

theorem walkNext_chain (hP : NodeLike next data P) (h : Chain (P nodes) prv (l₁ ++ l₂) none) :
    walkNext next nodes l₁.length (firstOr none (l₁ ++ l₂)) = some (firstOr none l₂) := by
  induction l₁ generalizing prv with
  | nil => rfl
  | cons c l₁ ih =>
    obtain ⟨n, hn, -, hnext⟩ := hP _ _ _ _ _ h.1
    have hnext : next n = firstOr none (l₁ ++ l₂) := hnext
    simp only [List.cons_append, firstOr_cons, List.length_cons, walkNext, hn, Option.bind_some,
      hnext, ih h.2]

/-- The search finds the first equal element; its index is counted in an `int`. -/
theorem indexOfLoop_chain [BEq δ] (hP : NodeLike next data P)
    (h : Chain (P nodes) prv l none) (x : δ) (k : Nat) :
    indexOfLoop next data nodes x l.length (firstOr none l) (toInt32 k) =
      some (((l.map Prod.snd).idxOf? x).elim (-1) fun i => toInt32 (k + i : Nat)) := by
  induction l generalizing prv k with
  | nil => rfl
  | cons c l ih =>
    obtain ⟨n, hn, hdata, hnext⟩ := hP _ _ _ _ _ h.1
    simp only [firstOr_cons, List.length_cons, indexOfLoop, hn, Option.bind_some, List.map_cons,
      List.idxOf?_cons, hdata, hnext]
    by_cases hx : c.2 == x
    · rw [if_pos hx, if_pos hx, Option.elim_some, Nat.add_zero]
    · rw [if_neg hx, if_neg hx, toInt32_succ, ih h.2]
      cases (l.map Prod.snd).idxOf? x with
      | none => rw [Option.map_none, Option.elim_none, Option.elim_none]
      | some i =>
        rw [Option.map_some, Option.elim_some, Option.elim_some, Nat.add_assoc k 1 i,
          Nat.add_comm 1 i]

/-- Every node is freed. -/
theorem clearLoop_chain (hP : NodeLike next data P)
    (hframe : ∀ nodes nodes' o p d o', nodes' p = nodes p → P nodes o p d o' → P nodes' o p d o')
    (h : Chain (P nodes) prv l none) (hnd : (addrs l).Nodup)
    (honly : ∀ p ∉ addrs l, nodes p = none) :
    clearLoop next l.length nodes (firstOr none l) = some fun _ => none := by
  induction l generalizing prv nodes with
  | nil => exact congrArg some (funext fun p => honly p (by simp))
  | cons c l ih =>
    obtain ⟨n, hn, -, hnext⟩ := hP _ _ _ _ _ h.1
    rw [addrs_cons, List.nodup_cons] at hnd
    have hrest : Chain (P (free nodes c.1)) (some c.1) l none := by
      refine h.2.congr fun o p d o' hp => hframe _ _ o p d o' (free_ne ?_)
      rintro rfl
      exact hnd.1 hp
    have hclear := ih hrest hnd.2 fun p hp => by
      by_cases hpc : p = c.1
      · rw [hpc, free_self]
      · rw [free_ne hpc, honly p (by simp [hpc, hp])]
    simp only [firstOr_cons, List.length_cons, clearLoop, hn, Option.bind_some, hnext, hclear]

/-! ## Cells by index -/

theorem firstOr_eq_none : firstOr none l = none ↔ l = [] := by
  cases l <;> simp

theorem lastOr_eq_none : lastOr none l = none ↔ l = [] := by
  cases l using List.reverseRecOn <;> simp [lastOr_concat]

/-- The element before an index inside of a list or at its end. -/
theorem exists_split_behind {α : Type*} {l : List α} {index : Nat} (hzero : index ≠ 0)
    (hle : index ≤ l.length) : ∃ (l₁ : List α) (c : α) (l₂ : List α),
      l = l₁ ++ [c] ++ l₂ ∧ index = l₁.length + 1 := by
  obtain ⟨k, rfl⟩ := Nat.exists_eq_add_one_of_ne_zero hzero
  refine ⟨l.take k, l.get ⟨k, hle⟩, l.drop (k + 1), ?_, ?_⟩
  · rw [List.append_assoc, List.singleton_append, List.get_eq_getElem, List.getElem_cons_drop,
      List.take_append_drop]
  · rw [List.length_take]
    omega

theorem insertIdx_append {α : Type*} (a b : List α) (x : α) :
    (a ++ b).insertIdx a.length x = a ++ x :: b := by
  induction a with
  | nil => rfl
  | cons y a ih => simp [ih]

/-- The elements after an insertion between two parts of the cells. -/
theorem map_snd_insertIdx (x : δ) :
    ((l₁ ++ l₂).map Prod.snd).insertIdx l₁.length x =
      l₁.map Prod.snd ++ x :: l₂.map Prod.snd := by
  have := insertIdx_append (l₁.map Prod.snd) (l₂.map Prod.snd) x
  rwa [List.length_map, ← List.map_append] at this

/-- The cell in which the first equal element stands. -/
theorem exists_cell_of_idxOf? [BEq δ] [LawfulBEq δ] {x : δ} {i : Nat}
    (h : (l.map Prod.snd).idxOf? x = some i) :
    ∃ l₁ p l₂, l = l₁ ++ (p, x) :: l₂ ∧ l₁.length = i ∧ x ∉ l₁.map Prod.snd := by
  induction l generalizing i with
  | nil => simp at h
  | cons c l ih =>
    rw [List.map_cons, List.idxOf?_cons] at h
    by_cases hx : c.2 = x
    · obtain rfl : 0 = i := by simpa [hx] using h
      exact ⟨[], c.1, l, by rw [← hx]; rfl, rfl, by simp⟩
    · rw [if_neg (by simpa using hx)] at h
      obtain ⟨j, hj, rfl⟩ := Option.map_eq_some_iff.mp h
      obtain ⟨l₁, p, l₂, rfl, rfl, hnot⟩ := ih hj
      refine ⟨c :: l₁, p, l₂, rfl, rfl, ?_⟩
      rw [List.map_cons, List.mem_cons, not_or]
      exact ⟨Ne.symm hx, hnot⟩

theorem idxOf?_behind {α : Type*} [BEq α] [LawfulBEq α] {a b : List α} {x : α} (h : x ∉ a) :
    (a ++ x :: b).idxOf? x = some a.length := by
  induction a with
  | nil => simp [List.idxOf?_cons]
  | cons y a ih =>
    rw [List.mem_cons, not_or] at h
    rw [List.cons_append, List.idxOf?_cons, if_neg (by simpa using Ne.symm h.1), ih h.2]
    rfl

end Solidc.Containers
