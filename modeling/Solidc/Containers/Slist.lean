import Solidc.Containers.Nodes
import Solidc.Lib.Transition
import Mathlib.Data.Fintype.EquivFin

/-! # The singly linked list

`slist` with the nodes it leads to. The chain from the head is all there is; the tail pointer is
repaired by hand wherever the last node changes.

* `Slist.WellFormed` — the chain ends after `size` nodes, at the tail;
* `Slist.Represents` — the cells of the list on its heap;
* `slist_refines_sequence` — every operation does on the sequence what its name says, in every
  run in which elements are found within the range of an `int` and have less than 4 GiB.
-/

namespace Solidc.Containers

open CLib

/-! ## The code -/

/-- The nodes that are allocated, each with its element. -/
abbrev SlistNodes : Type := Nat → Option (SNode Nat (List UInt8))

/-- `slist`, with its nodes. -/
structure Slist where
  head : Option Nat
  tail : Option Nat
  size : Nat
  elemSize : Nat
  nodes : SlistNodes

/-- `slist_new`. -/
def slistNew (elemSize : Nat) : Slist := ⟨none, none, 0, elemSize, fun _ => none⟩

/-- `slist_node_new` with what `malloc` returns: the new node and the nodes with it. -/
def slistNodeNew (s : Slist) (elem : Nat → UInt8) :
    Option Nat → Option (Option (Nat × SlistNodes))
  | none => some none
  | some node =>
    if s.elemSize ≤ alignedSize s.elemSize then
      some (some (node, put s.nodes node ⟨extent elem s.elemSize, none⟩))
    else none

def slistClear (s : Slist) : Option Slist :=
  (clearLoop SNode.next s.size s.nodes s.head).map fun nodes =>
    { s with nodes := nodes, head := none, tail := none, size := 0 }

def slistPushFront (s : Slist) (elem : Nat → UInt8) (mem : Option Nat) : Option Slist := do
  match ← slistNodeNew s elem mem with
  | none => some s
  | some (node, nodes) =>
    let nodes ← writeLink nodes node s.head
    let tail := if s.tail = none then some node else s.tail
    some { s with nodes := nodes, head := some node, tail := tail, size := s.size + 1 }

def slistPushBack (s : Slist) (elem : Nat → UInt8) (mem : Option Nat) : Option Slist := do
  match ← slistNodeNew s elem mem with
  | none => some s
  | some (node, nodes) =>
    if s.head = none then
      some { s with nodes := nodes, head := some node, tail := some node, size := s.size + 1 }
    else
      let nodes ← writeLink nodes (← s.tail) (some node)
      some { s with nodes := nodes, tail := some node, size := s.size + 1 }

def slistPopFront (s : Slist) : Option Slist :=
  match s.head with
  | none => some s
  | some temp => do
    let head := (← s.nodes temp).next
    let tail := if head = none then none else s.tail
    some { s with nodes := free s.nodes temp, head := head, tail := tail, size := s.size - 1 }

def slistInsert (s : Slist) (index : Nat) (elem : Nat → UInt8) (mem : Option Nat) :
    Option Slist :=
  if index > s.size then some s
  else if index = 0 then slistPushFront s elem mem
  else if index = s.size then slistPushBack s elem mem
  else do
    let found ← walkNext SNode.next s.nodes (index - 1) s.head
    match ← slistNodeNew s elem mem with
    | none => some s
    | some (node, nodes) =>
      let current ← found
      let nodes ← writeLink nodes node (← nodes current).next
      let nodes ← writeLink nodes current (some node)
      some { s with nodes := nodes, size := s.size + 1 }

def slistRemove (s : Slist) (index : Nat) : Option Slist :=
  if index ≥ s.size then some s
  else if index = 0 then slistPopFront s
  else do
    let current ← ← walkNext SNode.next s.nodes (index - 1) s.head
    let temp ← (← s.nodes current).next
    let nodes ← writeLink s.nodes current (← s.nodes temp).next
    let tail := if some temp = s.tail then some current else s.tail
    some { s with nodes := free nodes temp, tail := tail, size := s.size - 1 }

def slistIndexOf (s : Slist) (elem : Nat → UInt8) : Option Int :=
  indexOfLoop SNode.next SNode.data s.nodes (extent elem s.elemSize) s.size s.head 0

def slistInsertAfter (s : Slist) (elem after : Nat → UInt8) (mem : Option Nat) :
    Option Slist := do
  let idx ← slistIndexOf s after
  if idx ≥ 0 ∧ intToSize idx < s.size then
    slistInsert s ((intToSize idx + 1) % 2 ^ 64) elem mem
  else some s

/-! ## Runs -/

/-- A call, with the address that `malloc` returns if it is called. -/
inductive SlistOp where
  | pushFront (elem : Nat → UInt8) (mem : Option Nat)
  | pushBack (elem : Nat → UInt8) (mem : Option Nat)
  | popFront
  | insert (index : Nat) (elem : Nat → UInt8) (mem : Option Nat)
  | remove (index : Nat)
  | insertAfter (elem after : Nat → UInt8) (mem : Option Nat)
  | clear

def Slist.apply (s : Slist) : SlistOp → Option Slist
  | .pushFront elem mem => slistPushFront s elem mem
  | .pushBack elem mem => slistPushBack s elem mem
  | .popFront => slistPopFront s
  | .insert index elem mem => slistInsert s index elem mem
  | .remove index => slistRemove s index
  | .insertAfter elem after mem => slistInsertAfter s elem after mem
  | .clear => slistClear s

/-- What `malloc` returns in a call. -/
def SlistOp.mem : SlistOp → Option Nat
  | .pushFront _ mem | .pushBack _ mem | .insert _ _ mem | .insertAfter _ _ mem => mem
  | .popFront | .remove _ | .clear => none

/-- `malloc` returns no address that is in use. -/
def SlistOp.Fresh (op : SlistOp) (s : Slist) : Prop := ∀ p ∈ op.mem, s.nodes p = none

/-- Lists of elements of any size under any sequence of calls. -/
def slists : System Slist SlistOp where
  init s := ∃ elemSize, s = slistNew elemSize
  step s op s' := op.Fresh s ∧ s.apply op = some s'

/-! ## The sequence -/

/-- The element sequence. -/
def Slist.elems (s : Slist) : List (List UInt8) :=
  collect SNode.next SNode.data s.nodes s.size s.head

/-- What a call does on a sequence of elements of `size` bytes; a call whose allocation fails
does nothing. -/
def slistEffect (size : Nat) (xs : List (List UInt8)) : SlistOp → List (List UInt8)
  | .pushFront elem mem => if mem = none then xs else extent elem size :: xs
  | .pushBack elem mem => if mem = none then xs else xs ++ [extent elem size]
  | .popFront => xs.tail
  | .insert index elem mem => if mem = none then xs else xs.insertIdx index (extent elem size)
  | .remove index => xs.eraseIdx index
  | .insertAfter elem after mem =>
    match xs.idxOf? (extent after size) with
    | some i => if mem = none then xs else xs.insertIdx (i + 1) (extent elem size)
    | none => xs
  | .clear => []

/-- The nodes `ps` of the chain from the head: it ends, so no node comes twice, `size` counts
them, the tail is the last one, and no other node is allocated. -/
structure Slist.WellFormedAt (s : Slist) (ps : List Nat) : Prop where
  next : Linked (fun p => (s.nodes p).bind SNode.next) s.head ps
  nodup : ps.Nodup
  size : s.size = ps.length
  tail : s.tail = ps.getLast?
  tail_null : s.tail = none ↔ s.size = 0
  allocated : ∀ p, s.nodes p ≠ none ↔ p ∈ ps

def Slist.WellFormed (s : Slist) : Prop := ∃ ps, s.WellFormedAt ps

/-- The condition on a step: a new element fits behind its node, and the element that
`slist_insert_after` searches for stands within the first `2 ^ 31` ones, if it is there. -/
structure SlistInRange (s : Slist) (op : SlistOp) : Prop where
  fits : ∀ p ∈ op.mem, s.elemSize ≤ 2 ^ 32 - 8
  found : ∀ elem after mem, op = .insertAfter elem after mem →
    ∀ i ∈ s.elems.idxOf? (extent after s.elemSize), i < 2 ^ 31

/-- The cells of a list on its heap, which has no other nodes. -/
structure Slist.Represents (s : Slist) (l : List (Nat × List UInt8)) : Prop where
  chain : Chain (SCell s.nodes) none l none
  nodup : (addrs l).Nodup
  head : s.head = firstOr none l
  tail : s.tail = lastOr none l
  size : s.size = l.length
  only : ∀ p ∉ addrs l, s.nodes p = none

/-! ## What the representation gives -/

variable {s : Slist} {l l₁ l₂ : List (Nat × List UInt8)}

theorem scell_nodeLike : NodeLike SNode.next SNode.data (SCell (ι := Nat) (δ := List UInt8)) :=
  fun _ _ _ _ _ h => ⟨_, h, rfl, rfl⟩

theorem lastOr_getLast? : lastOr none l = (addrs l).getLast? := by
  cases l using List.reverseRecOn with
  | nil => rfl
  | append_singleton l c => simp [lastOr_concat]

namespace Slist.Represents

theorem elems_eq (h : s.Represents l) : s.elems = l.map Prod.snd := by
  rw [Slist.elems, h.size, h.head, collect_chain scell_nodeLike h.chain]

theorem wellFormed (h : s.Represents l) : s.WellFormed := by
  refine ⟨addrs l, ?_, h.nodup, ?_, ?_, ?_, fun p => ⟨fun hp => ?_, fun hp => ?_⟩⟩
  · rw [h.head]
    exact h.chain.linked fun o p d o' hcell => by rw [show s.nodes p = _ from hcell]; rfl
  · rw [h.size, addrs, List.length_map]
  · rw [h.tail, lastOr_getLast?]
  · rw [h.tail, h.size, lastOr_eq_none, List.length_eq_zero_iff]
  · by_contra hmem
    exact hp (h.only p hmem)
  · exact h.chain.sallocated hp

theorem indexOf (h : s.Represents l) (elem : Nat → UInt8) :
    slistIndexOf s elem =
      some ((s.elems.idxOf? (extent elem s.elemSize)).elim (-1) fun i => toInt32 (i : Nat)) := by
  rw [h.elems_eq, slistIndexOf, h.size, h.head]
  have hloop := indexOfLoop_chain scell_nodeLike h.chain (extent elem s.elemSize) 0
  simpa [toInt32] using hloop

end Slist.Represents

theorem slistNew_represents (elemSize : Nat) : (slistNew elemSize).Represents [] :=
  ⟨trivial, List.nodup_nil, rfl, rfl, rfl, fun _ _ => rfl⟩

/-! ## Links -/

theorem slistNodeNew_eq (hfits : s.elemSize ≤ 2 ^ 32 - 8) (elem : Nat → UInt8) (node : Nat) :
    slistNodeNew s elem (some node) =
      some (some (node, put s.nodes node ⟨extent elem s.elemSize, none⟩)) :=
  if_pos (le_alignedSize hfits)

namespace Slist.Represents

variable {node : Nat} {x : List UInt8} {c t : Nat × List UInt8}

/-- A new node between two parts, on a heap that links it, with the pointers of the list. -/
theorem insert_cell (h : s.Represents (l₁ ++ l₂)) (hfresh : s.nodes node = none)
    {nodes : SlistNodes} (hkeep : ∀ q ∉ addrs (l₁ ++ (node, x) :: l₂), nodes q = s.nodes q)
    (hchain : Chain (SCell nodes) none (l₁ ++ (node, x) :: l₂) none) :
    ({ s with
      nodes := nodes
      head := firstOr (some node) l₁
      tail := lastOr (some node) l₂
      size := s.size + 1 } : Slist).Represents (l₁ ++ (node, x) :: l₂) := by
  have hnew : node ∉ addrs (l₁ ++ l₂) := fun hmem => h.chain.sallocated hmem hfresh
  refine ⟨hchain, ?_, ?_, ?_, ?_, fun p hp => ?_⟩
  · have hnd := h.nodup
    rw [addrs_append] at hnd hnew
    rw [addrs_append, addrs_cons]
    exact List.nodup_middle.mpr (List.nodup_cons.mpr ⟨hnew, hnd⟩)
  · rw [firstOr_append, firstOr_cons]
  · rw [lastOr_append, lastOr_cons]
  · rw [h.size]
    simp only [List.length_append, List.length_cons]
    omega
  · refine (hkeep p hp).trans (h.only p fun hmem => hp ?_)
    simp only [addrs_append, addrs_cons, List.mem_append, List.mem_cons] at hmem ⊢
    tauto

/-- The new node in front of the others. -/
theorem linkFront (h : s.Represents l) (hfresh : s.nodes node = none) :
    Chain (SCell (put s.nodes node ⟨x, firstOr none l⟩)) none ((node, x) :: l) none := by
  refine ⟨put_self _ _ _, (h.chain.sframe fun p hp => put_ne ?_).of_prev _⟩
  rintro rfl
  exact h.chain.sallocated hp hfresh

/-- The new node behind a cell, and the write to the node of that cell. -/
theorem linkAfter (h : s.Represents (l₁ ++ [c] ++ l₂)) (hfresh : s.nodes node = none) :
    ∃ nodes, writeLink (put s.nodes node ⟨x, firstOr none l₂⟩) c.1 (some node) = some nodes ∧
      Chain (SCell nodes) none (l₁ ++ [c] ++ (node, x) :: l₂) none ∧
      ∀ q ∉ addrs (l₁ ++ [c] ++ (node, x) :: l₂), nodes q = s.nodes q := by
  have hnew : node ∉ addrs (l₁ ++ [c] ++ l₂) := fun hmem => h.chain.sallocated hmem hfresh
  have hnd := h.nodup
  rw [addrs_append, List.nodup_append'] at hnd
  rw [addrs_append, List.mem_append, not_or] at hnew
  have hput : ∀ l' : List (Nat × List UInt8), node ∉ addrs l' → ∀ p ∈ addrs l',
      put s.nodes node ⟨x, firstOr none l₂⟩ p = s.nodes p := by
    rintro l' hl' p hp
    refine put_ne ?_
    rintro rfl
    exact hl' hp
  have hc : c.1 ∈ addrs (l₁ ++ [c]) := by simp
  obtain ⟨hc₁, hc₂⟩ := chain_append.mp h.chain
  obtain ⟨hw, hc₁⟩ := (hc₁.sframe (hput _ hnew.1)).writeLink hnd.1 (some node)
  have hcn : c.1 ≠ node := by
    rintro heq
    exact hnew.1 (heq ▸ hc)
  refine ⟨_, hw, chain_append.mpr ⟨hc₁, ?_, ?_⟩, fun q hq => ?_⟩
  · exact (put_ne hcn.symm).trans (put_self _ _ _)
  · refine ((hc₂.sframe (hput _ hnew.2)).sframe fun p hp => put_ne ?_).of_prev _
    rintro rfl
    exact hnd.2.2 hc hp
  · simp only [addrs_append, addrs_cons, addrs_nil, List.mem_append, List.mem_cons,
      List.not_mem_nil, or_false, not_or] at hq
    rw [put_ne hq.1.2, put_ne hq.2.1]

/-- The write to the node of a cell that takes the one behind it out of the list. -/
theorem unlinkAfter (h : s.Represents (l₁ ++ [c] ++ t :: l₂)) :
    ∃ nodes, writeLink s.nodes c.1 (firstOr none l₂) = some nodes ∧
      ({ s with
        nodes := free nodes t.1
        tail := lastOr (some c.1) l₂
        size := s.size - 1 } : Slist).Represents (l₁ ++ [c] ++ l₂) := by
  have hnd := h.nodup
  rw [addrs_append, addrs_cons, List.nodup_append', List.nodup_cons] at hnd
  obtain ⟨hnd₁, ⟨ht₂, hnd₂⟩, hdisj⟩ := hnd
  have hc : c.1 ∈ addrs (l₁ ++ [c]) := by simp
  have ht₁ : t.1 ∉ addrs (l₁ ++ [c]) := fun hmem => hdisj hmem List.mem_cons_self
  obtain ⟨hc₁, -, hc₂⟩ := chain_append.mp h.chain
  obtain ⟨hw, hc₁⟩ := hc₁.writeLink hnd₁ (firstOr none l₂)
  refine ⟨_, hw, chain_append.mpr ⟨hc₁.sframe fun p hp => ?_, ?_⟩, ?_, ?_, ?_, ?_, fun p hp => ?_⟩
  · refine free_ne ?_
    rintro rfl
    exact ht₁ hp
  · refine (hc₂.sframe fun p hp => (free_ne ?_).trans (put_ne ?_)).of_prev _
    · rintro rfl
      exact ht₂ hp
    · rintro rfl
      exact hdisj hc (List.mem_cons_of_mem _ hp)
  · rw [addrs_append, List.nodup_append']
    exact ⟨hnd₁, hnd₂, fun p hp hp' => hdisj hp (List.mem_cons_of_mem _ hp')⟩
  · rw [h.head, firstOr_append, firstOr_append, firstOr_append, firstOr_append]
    rfl
  · rw [lastOr_append, lastOr_concat]
  · rw [h.size]
    simp only [List.length_append, List.length_cons]
    omega
  · by_cases hpt : p = t.1
    · subst hpt
      exact free_self _ _
    · have hpc : p ≠ c.1 := by
        rintro rfl
        exact hp (by simp)
      refine (free_ne hpt).trans ((put_ne hpc).trans (h.only p fun hmem => hp ?_))
      simp only [addrs_append, addrs_cons, List.mem_append, List.mem_cons] at hmem ⊢
      tauto

end Slist.Represents

/-! ## One call -/

/-- What a call gives on a list that stands for the cells `l`. -/
def Slist.Gives (r : Option Slist) (xs : List (List UInt8)) : Prop :=
  ∃ s' l', r = some s' ∧ s'.Represents l' ∧ l'.map Prod.snd = xs

namespace Slist.Represents

variable (elem : Nat → UInt8) {mem : Option Nat} {c : Nat × List UInt8}

theorem pushFront (h : s.Represents l) (hfresh : ∀ p ∈ mem, s.nodes p = none)
    (hfits : ∀ p ∈ mem, s.elemSize ≤ 2 ^ 32 - 8) :
    Slist.Gives (slistPushFront s elem mem)
      (if mem = none then l.map Prod.snd else extent elem s.elemSize :: l.map Prod.snd) := by
  cases mem with
  | none => exact ⟨s, l, rfl, h, rfl⟩
  | some node =>
    have h' : s.Represents ([] ++ l) := h
    have hrep := h'.insert_cell (x := extent elem s.elemSize) (hfresh node rfl)
      (fun q hq => put_ne (by rintro rfl; simp at hq)) (h.linkFront (hfresh node rfl))
    have htail : (if s.tail = none then some node else s.tail) = lastOr (some node) l := by
      rw [h.tail]
      cases l with
      | nil => rfl
      | cons c l => exact if_neg fun heq => List.cons_ne_nil _ _ (lastOr_eq_none.mp heq)
    refine ⟨_, _, ?_, hrep, rfl⟩
    rw [slistPushFront, slistNodeNew_eq (hfits node rfl)]
    simp [writeLink, htail, h.head]

theorem pushBack (h : s.Represents l) (hfresh : ∀ p ∈ mem, s.nodes p = none)
    (hfits : ∀ p ∈ mem, s.elemSize ≤ 2 ^ 32 - 8) :
    Slist.Gives (slistPushBack s elem mem)
      (if mem = none then l.map Prod.snd else l.map Prod.snd ++ [extent elem s.elemSize]) := by
  cases mem with
  | none => exact ⟨s, l, rfl, h, rfl⟩
  | some node =>
    have hnew := hfresh node rfl
    cases l using List.reverseRecOn with
    | nil =>
      -- the first node is head and tail
      have h' : s.Represents ([] ++ []) := h
      have hrep := h'.insert_cell (x := extent elem s.elemSize) hnew
        (fun q hq => put_ne (by rintro rfl; simp at hq)) (h.linkFront hnew)
      refine ⟨_, _, ?_, hrep, rfl⟩
      rw [slistPushBack, slistNodeNew_eq (hfits node rfl)]
      simp [h.head]
    | append_singleton l c =>
      have h' : s.Represents (l ++ [c] ++ []) := by rwa [List.append_nil]
      obtain ⟨nodes, hw, hchain, hkeep⟩ := h'.linkAfter (x := extent elem s.elemSize) hnew
      have hrep := h'.insert_cell hnew hkeep hchain
      have hhead : firstOr (some node) (l ++ [c]) = s.head := by
        rw [h.head, firstOr_append, firstOr_append]
        rfl
      refine ⟨_, _, ?_, hrep, by simp⟩
      rw [slistPushBack, slistNodeNew_eq (hfits node rfl)]
      have hne : s.head ≠ none := by
        rw [h.head]
        exact fun heq => List.append_ne_nil_of_right_ne_nil l (List.cons_ne_nil c [])
          (firstOr_eq_none.mp heq)
      have htail : s.tail = some c.1 := by rw [h.tail, lastOr_concat]
      rw [firstOr_nil] at hw
      simp [hne, htail, hw, hhead]

theorem popFront (h : s.Represents (c :: l)) : Slist.Gives (slistPopFront s) (l.map Prod.snd) := by
  have hcell : s.nodes c.1 = some ⟨c.2, firstOr none l⟩ := h.chain.1
  have hhead : s.head = some c.1 := h.head
  have hnd := h.nodup
  rw [addrs_cons, List.nodup_cons] at hnd
  have hrep : ({ s with
      nodes := free s.nodes c.1
      head := firstOr none l
      tail := if firstOr none l = none then none else s.tail
      size := s.size - 1 } : Slist).Represents l := by
    refine ⟨(h.chain.2.sframe fun p hp => free_ne ?_).of_prev _, hnd.2, rfl, ?_, ?_, fun p hp => ?_⟩
    · rintro rfl
      exact hnd.1 hp
    · rw [h.tail]
      cases l with
      | nil => rfl
      | cons d l => rfl
    · rw [h.size, List.length_cons]
      rfl
    · by_cases hpc : p = c.1
      · subst hpc
        exact free_self _ _
      · exact (free_ne hpc).trans (h.only p (by simp [hpc, hp]))
  refine ⟨_, l, ?_, hrep, rfl⟩
  rw [slistPopFront, hhead]
  simp only [hcell, Option.bind_eq_bind, Option.bind_some]

/-- `slist_insert` between two nodes. -/
theorem insertMiddle {node : Nat} (h : s.Represents (l₁ ++ [c] ++ l₂))
    (hfresh : s.nodes node = none) (hfits : s.elemSize ≤ 2 ^ 32 - 8) (hl₂ : l₂ ≠ []) :
    Slist.Gives (slistInsert s (l₁.length + 1) elem (some node))
      ((l₁ ++ [c]).map Prod.snd ++ extent elem s.elemSize :: l₂.map Prod.snd) := by
  obtain ⟨nodes, hw, hchain, hkeep⟩ := h.linkAfter (x := extent elem s.elemSize) hfresh
  have hrep := h.insert_cell hfresh hkeep hchain
  have hsize : s.size = l₁.length + 1 + l₂.length := by
    rw [h.size, List.length_append, List.length_append, List.length_singleton]
  have hpos : 0 < l₂.length := List.length_pos_iff.mpr hl₂
  have hsplit : s.Represents (l₁ ++ c :: l₂) := by
    have := h
    rwa [List.append_assoc, List.singleton_append] at this
  have hcell : s.nodes c.1 = some ⟨c.2, firstOr none l₂⟩ :=
    (chain_append.mp hsplit.chain).2.1
  have hcn : c.1 ≠ node := by
    rintro rfl
    rw [hfresh] at hcell
    cases hcell
  have hhead : firstOr (some node) (l₁ ++ [c]) = s.head := by
    rw [h.head, firstOr_append, firstOr_append, firstOr_append]
    rfl
  have htail : lastOr (some node) l₂ = s.tail := by
    rw [h.tail, lastOr_append]
    exact lastOr_ne_nil hl₂ _ _
  refine ⟨_, _, ?_, hrep, by simp⟩
  rw [slistInsert, if_neg (by omega), if_neg (by omega), if_neg (by omega), Nat.add_sub_cancel,
    hsplit.head, walkNext_chain scell_nodeLike hsplit.chain, slistNodeNew_eq hfits]
  have hlink : writeLink (put s.nodes node ⟨extent elem s.elemSize, none⟩) node (firstOr none l₂) =
      some (put s.nodes node ⟨extent elem s.elemSize, firstOr none l₂⟩) := by
    simp [writeLink]
  simp only [firstOr_cons, Option.bind_eq_bind, Option.bind_some, put_ne hcn, hcell, hlink, hw,
    hhead, htail, ← hsplit.head]

/-- `slist_insert` at any index, whatever `malloc` returns. -/
theorem insert (h : s.Represents l) (index : Nat) (hfresh : ∀ p ∈ mem, s.nodes p = none)
    (hfits : ∀ p ∈ mem, s.elemSize ≤ 2 ^ 32 - 8) :
    Slist.Gives (slistInsert s index elem mem) (if mem = none then l.map Prod.snd
      else (l.map Prod.snd).insertIdx index (extent elem s.elemSize)) := by
  by_cases hindex : index > s.size
  · refine ⟨s, l, if_pos hindex, h, ?_⟩
    rw [List.insertIdx_of_length_lt (by rw [List.length_map, ← h.size]; exact hindex), ite_self]
  by_cases hzero : index = 0
  · subst hzero
    rw [slistInsert, if_neg hindex, if_pos rfl, List.insertIdx_zero]
    exact h.pushFront elem hfresh hfits
  by_cases hend : index = s.size
  · subst hend
    have hlen : s.size = (l.map Prod.snd).length := by rw [List.length_map, h.size]
    rw [slistInsert, if_neg hindex, if_neg hzero, if_pos rfl, hlen, List.insertIdx_length_self]
    exact h.pushBack elem hfresh hfits
  -- the node before the index and those behind it
  have hlt : index < l.length := by
    rw [← h.size]
    omega
  obtain ⟨l₁, c, l₂, rfl, rfl⟩ := exists_split_behind hzero (Nat.le_of_lt hlt)
  cases mem with
  | none =>
    have hsplit : s.Represents (l₁ ++ c :: l₂) := by
      rwa [List.append_assoc, List.singleton_append] at h
    refine ⟨s, _, ?_, h, rfl⟩
    rw [slistInsert, if_neg hindex, if_neg hzero, if_neg hend, Nat.add_sub_cancel, hsplit.head,
      walkNext_chain scell_nodeLike hsplit.chain]
    rfl
  | some node =>
    have hl₂ : l₂ ≠ [] := by
      rintro rfl
      simp at hlt
    have hmap : ((l₁ ++ [c] ++ l₂).map Prod.snd).insertIdx (l₁.length + 1)
        (extent elem s.elemSize) =
        (l₁ ++ [c]).map Prod.snd ++ extent elem s.elemSize :: l₂.map Prod.snd := by
      rw [← map_snd_insertIdx, List.length_append, List.length_singleton]
    rw [if_neg (Option.some_ne_none node), hmap]
    exact h.insertMiddle elem (hfresh node rfl) (hfits node rfl) hl₂

/-- `slist_remove` at any index. -/
theorem remove (h : s.Represents l) (index : Nat) :
    Slist.Gives (slistRemove s index) ((l.map Prod.snd).eraseIdx index) := by
  by_cases hindex : index ≥ s.size
  · refine ⟨s, l, if_pos hindex, h, ?_⟩
    rw [List.eraseIdx_of_length_le (by rw [List.length_map, ← h.size]; exact hindex)]
  have hlt : index < l.length := by
    rw [← h.size]
    omega
  by_cases hzero : index = 0
  · subst hzero
    obtain ⟨c, l, rfl⟩ := List.exists_cons_of_ne_nil (List.length_pos_iff.mp hlt)
    rw [slistRemove, if_neg hindex, if_pos rfl]
    exact h.popFront
  -- the node before the one that goes, and those behind it
  obtain ⟨l₁, c, behind, rfl, rfl⟩ := exists_split_behind hzero (Nat.le_of_lt hlt)
  obtain ⟨t, l₂, rfl⟩ : ∃ t l₂, behind = t :: l₂ := by
    refine List.exists_cons_of_length_pos ?_
    rw [List.length_append, List.length_append, List.length_singleton] at hlt
    omega
  obtain ⟨nodes, hw, hrep⟩ := h.unlinkAfter
  have hsplit : s.Represents (l₁ ++ c :: t :: l₂) := by
    have := h
    rwa [List.append_assoc, List.singleton_append] at this
  obtain ⟨-, hcell, hcell', -⟩ := chain_append.mp hsplit.chain
  have hcell : s.nodes c.1 = some ⟨c.2, some t.1⟩ := hcell
  have hcell' : s.nodes t.1 = some ⟨t.2, firstOr none l₂⟩ := hcell'
  have htail : (if some t.1 = s.tail then some c.1 else s.tail) = lastOr (some c.1) l₂ := by
    have hnd := h.nodup
    rw [addrs_append, addrs_cons, List.nodup_append', List.nodup_cons] at hnd
    rw [h.tail, lastOr_append, lastOr_cons]
    cases l₂ using List.reverseRecOn with
    | nil => exact if_pos rfl
    | append_singleton l₂ d =>
      rw [lastOr_concat, lastOr_concat, if_neg]
      intro heq
      exact hnd.2.1.1 (by simp [Option.some.inj heq])
  refine ⟨_, _, ?_, hrep, ?_⟩
  · rw [slistRemove, if_neg hindex, if_neg hzero, Nat.add_sub_cancel, hsplit.head,
      walkNext_chain scell_nodeLike hsplit.chain]
    simp only [firstOr_cons, Option.bind_eq_bind, Option.bind_some, hcell, hcell', hw, htail,
      ← hsplit.head]
  · have hlen : l₁.length + 1 = ((l₁ ++ [c]).map Prod.snd).length := by simp
    have hmap : (l₁ ++ [c] ++ t :: l₂).map Prod.snd =
        (l₁ ++ [c]).map Prod.snd ++ t.2 :: l₂.map Prod.snd := by simp
    rw [hmap, hlen, List.eraseIdx_append_of_length_le le_rfl, Nat.sub_self,
      List.eraseIdx_cons_zero, List.map_append]

/-- The insertion behind the first equal element. -/
theorem insertAfter (h : s.Represents l) (after : Nat → UInt8)
    (hfresh : ∀ p ∈ mem, s.nodes p = none) (hfits : ∀ p ∈ mem, s.elemSize ≤ 2 ^ 32 - 8)
    (hfound : ∀ i ∈ s.elems.idxOf? (extent after s.elemSize), i < 2 ^ 31) :
    Slist.Gives (slistInsertAfter s elem after mem)
      (slistEffect s.elemSize s.elems (.insertAfter elem after mem)) := by
  have hx := h.elems_eq
  have hindex := h.indexOf after
  rw [slistEffect]
  rcases hi : s.elems.idxOf? (extent after s.elemSize) with _ | i
  · rw [hi] at hindex
    exact ⟨s, l, by simp [slistInsertAfter, hindex], h, hx.symm⟩
  · have hsmall := hfound i hi
    rw [hi, Option.elim_some] at hindex
    have hlt : i < s.size := by
      rw [hx] at hi
      obtain ⟨l₁, p, l₂, rfl, rfl, -⟩ := exists_cell_of_idxOf? hi
      rw [h.size]
      simp
    have hguard : toInt32 i ≥ 0 ∧ intToSize (toInt32 i) < s.size := by
      rw [intToSize_toInt32 hsmall, toInt32_eq hsmall]
      exact ⟨by omega, hlt⟩
    rw [slistInsertAfter, hindex, Option.bind_eq_bind, Option.bind_some, if_pos hguard,
      intToSize_toInt32 hsmall, Nat.mod_eq_of_lt (by omega), hx]
    exact h.insert elem (i + 1) hfresh hfits

/-- Every call does on the sequence what its name says. -/
theorem apply (h : s.Represents l) (op : SlistOp) (hfresh : op.Fresh s)
    (hrange : SlistInRange s op) :
    Slist.Gives (s.apply op) (slistEffect s.elemSize s.elems op) := by
  have hx := h.elems_eq
  cases op with
  | pushFront elem mem =>
    rw [slistEffect, hx]
    exact h.pushFront elem hfresh hrange.fits
  | pushBack elem mem =>
    rw [slistEffect, hx]
    exact h.pushBack elem hfresh hrange.fits
  | popFront =>
    rw [slistEffect, hx]
    cases l with
    | nil => exact ⟨s, [], by simp [Slist.apply, slistPopFront, h.head], h, rfl⟩
    | cons c l => exact h.popFront
  | insert index elem mem =>
    rw [slistEffect, hx]
    exact h.insert elem index hfresh hrange.fits
  | remove index =>
    rw [slistEffect, hx]
    exact h.remove index
  | insertAfter elem after mem =>
    exact h.insertAfter elem after hfresh hrange.fits (hrange.found elem after mem rfl)
  | clear =>
    have hclear := clearLoop_chain scell_nodeLike (fun _ _ _ _ _ _ heq hc => heq.trans hc) h.chain
      h.nodup h.only
    rw [← h.size, ← h.head] at hclear
    refine ⟨_, [], by rw [Slist.apply, slistClear, hclear]; rfl, ?_, rfl⟩
    exact ⟨trivial, List.nodup_nil, rfl, rfl, rfl, fun _ _ => rfl⟩

end Slist.Represents

/-! ## Runs -/

theorem slist_reach_represents (h : Reach slists SlistInRange s) : ∃ l, s.Represents l := by
  refine h.invariant (fun s => ∃ l, s.Represents l) ?_ ?_
  · rintro s ⟨elemSize, rfl⟩
    exact ⟨[], slistNew_represents elemSize⟩
  · rintro s op s' ⟨l, hrep⟩ hrange ⟨hfresh, hstep⟩
    obtain ⟨s'', l', hs'', hrep', -⟩ := hrep.apply op hfresh hrange
    obtain rfl : s'' = s' := Option.some.inj (hs''.symm.trans hstep)
    exact ⟨l', hrep'⟩

/-- In every run in range the list is well formed, and every call in range is carried out and
gives a well-formed list with the sequence that the operation gives on sequences. -/
theorem slist_refines_sequence (h : Reach slists SlistInRange s) :
    s.WellFormed ∧ ∀ op : SlistOp, op.Fresh s → SlistInRange s op →
      ∃ s', s.apply op = some s' ∧ s'.WellFormed ∧
        s'.elems = slistEffect s.elemSize s.elems op := by
  obtain ⟨l, hrep⟩ := slist_reach_represents h
  refine ⟨hrep.wellFormed, fun op hfresh hrange => ?_⟩
  obtain ⟨s', l', hs', hrep', hl'⟩ := hrep.apply op hfresh hrange
  exact ⟨s', hs', hrep'.wellFormed, by rw [hrep'.elems_eq, hl']⟩

theorem slist_refines_sequence_two : ∃ s : Slist, Reach slists SlistInRange s ∧ s.WellFormed ∧
    s.elems = [[7], [8]] ∧ ∃ s', s.apply (.remove 1) = some s' ∧ s'.elems = [[7]] := by
  have hfits : 1 ≤ 2 ^ 32 - 8 := by decide
  have hreach₁ := (Reach.init ⟨1, rfl⟩ : Reach slists SlistInRange (slistNew 1)).step
    (a := .pushBack (fun _ => 8) (some 0)) ⟨fun _ _ => hfits, nofun⟩ ⟨fun _ _ => rfl, rfl⟩
  have hreach₂ := hreach₁.step
    (a := .pushFront (fun _ => 7) (some 1)) ⟨fun _ _ => hfits, nofun⟩
    ⟨by rintro p ⟨⟩; rfl, rfl⟩
  obtain ⟨hwf, hcall⟩ := slist_refines_sequence hreach₂
  obtain ⟨s', hs', -, helems⟩ := hcall (.remove 1) nofun ⟨nofun, nofun⟩
  exact ⟨_, hreach₂, hwf, rfl, s', hs', helems⟩

/-! ## Out of range -/

/-- `slist_insert_after` at an index that an `int` does not hold does nothing. -/
theorem Slist.Represents.insertAfter_wraps (h : s.Represents l) {elem after : Nat → UInt8}
    {mem : Option Nat} {i : Nat} (hi : s.elems.idxOf? (extent after s.elemSize) = some i)
    (hlow : 2 ^ 31 ≤ i) (hhigh : i < 2 ^ 32) : slistInsertAfter s elem after mem = some s := by
  have hindex := h.indexOf after
  rw [hi, Option.elim_some] at hindex
  have hneg : toInt32 i < 0 := by
    unfold toInt32
    omega
  rw [slistInsertAfter, hindex, Option.bind_eq_bind, Option.bind_some, if_neg (by omega)]

/-- An element that does not fit behind its node is written all the same. -/
theorem slistPushBack_huge (hbig : 2 ^ 32 - 8 < s.elemSize) (elem : Nat → UInt8) (node : Nat) :
    slistPushBack s elem (some node) = none := by
  rw [slistPushBack, slistNodeNew, if_neg (Nat.not_le_of_lt (alignedSize_lt hbig))]
  rfl

theorem slistPushFront_elemSize {elem : Nat → UInt8} {mem : Option Nat} {s' : Slist}
    (h : slistPushFront s elem mem = some s') : s'.elemSize = s.elemSize := by
  unfold slistPushFront at h
  rcases hnew : slistNodeNew s elem mem with _ | _ | ⟨node, nodes⟩
  · rw [hnew] at h
    cases h
  · rw [hnew] at h
    cases h
    rfl
  · rw [hnew, Option.bind_eq_bind, Option.bind_some] at h
    obtain ⟨nodes', -, hs'⟩ := Option.bind_eq_some_iff.mp h
    cases hs'
    rfl

/-- Any number of elements `[0]` can be pushed in front of a `[1]`. -/
theorem slist_exists_replicate (n : Nat) : ∃ s l, Reach slists SlistInRange s ∧ s.Represents l ∧
    l.map Prod.snd = List.replicate n [0] ++ [[1]] ∧ s.elemSize = 1 := by
  have hfits : 1 ≤ 2 ^ 32 - 8 := by decide
  have hpush : ∀ (s : Slist) (l : List (Nat × List UInt8)) (x : UInt8),
      Reach slists SlistInRange s → s.Represents l → s.elemSize = 1 →
      ∃ s' l', Reach slists SlistInRange s' ∧ s'.Represents l' ∧
        l'.map Prod.snd = [x] :: l.map Prod.snd ∧ s'.elemSize = 1 := by
    intro s l x hreach hrep hsize
    obtain ⟨p, hp⟩ := Infinite.exists_notMem_finset (addrs l).toFinset
    have hnone : s.nodes p = none := hrep.only p (by simpa using hp)
    have hfresh : ∀ q ∈ some p, s.nodes q = none := by
      rintro q ⟨⟩
      exact hnone
    have hroom : ∀ q ∈ some p, s.elemSize ≤ 2 ^ 32 - 8 := fun _ _ => hsize ▸ hfits
    obtain ⟨s', l', hs', hrep', hl'⟩ := hrep.pushFront (fun _ => x) hfresh hroom
    refine ⟨s', l', hreach.step (a := .pushFront (fun _ => x) (some p)) ⟨hroom, nofun⟩
      ⟨hfresh, hs'⟩, hrep', ?_, (slistPushFront_elemSize hs').trans hsize⟩
    rw [hl', hsize]
    rfl
  induction n with
  | zero => exact hpush _ _ 1 (.init ⟨1, rfl⟩) (slistNew_represents 1) rfl
  | succ n ih =>
    obtain ⟨s, l, hreach, hrep, hl, hsize⟩ := ih
    obtain ⟨s', l', hreach', hrep', hl', hsize'⟩ := hpush s l 0 hreach hrep hsize
    exact ⟨s', l', hreach', hrep', by rw [hl', hl, List.replicate_succ, List.cons_append], hsize'⟩

/-- Behind so many elements `[0]` nothing is inserted after the `[1]`. -/
theorem insertAfter_behind_replicate {n : Nat} (hlow : 2 ^ 31 ≤ n) (hhigh : n < 2 ^ 32) :
    ∃ s, Reach slists SlistInRange s ∧ ∃ p, s.nodes p = none ∧
      ∃ s', s.apply (.insertAfter (fun _ => 2) (fun _ => 1) (some p)) = some s' ∧
        s'.elems ≠ slistEffect s.elemSize s.elems
          (.insertAfter (fun _ => 2) (fun _ => 1) (some p)) := by
  obtain ⟨s, l, hreach, hrep, hl, hsize⟩ := slist_exists_replicate n
  obtain ⟨p, hp⟩ := Infinite.exists_notMem_finset (addrs l).toFinset
  have hone : extent (fun _ => (1 : UInt8)) s.elemSize = [1] := by
    rw [hsize]
    rfl
  have hnot : [1] ∉ List.replicate n ([0] : List UInt8) := fun hmem =>
    absurd (List.eq_of_mem_replicate hmem) (by decide)
  have hfound : s.elems.idxOf? (extent (fun _ => 1) s.elemSize) = some n := by
    rw [hone, hrep.elems_eq, hl, idxOf?_behind hnot, List.length_replicate]
  refine ⟨s, hreach, p, hrep.only p (by simpa using hp), s,
    hrep.insertAfter_wraps hfound hlow hhigh, fun heq => ?_⟩
  -- the insertion would make the sequence longer
  rw [slistEffect, hfound] at heq
  dsimp only at heq
  have hlen := congrArg List.length heq
  rw [if_neg (Option.some_ne_none p), hrep.elems_eq, hl,
    List.length_insertIdx_of_le_length (by simp)] at hlen
  omega

/-- Behind `2 ^ 31` elements `[0]` the call `slist_insert_after` of `[1]` inserts nothing; and an
element of 4 GiB is written over the end of its node. -/
theorem slist_out_of_range :
    (∃ s, Reach slists AnyStep s ∧ ∃ p, s.nodes p = none ∧
      ∃ s', s.apply (.insertAfter (fun _ => 2) (fun _ => 1) (some p)) = some s' ∧
        s'.elems ≠ slistEffect s.elemSize s.elems
          (.insertAfter (fun _ => 2) (fun _ => 1) (some p))) ∧
    (slistNew (2 ^ 32)).apply (.pushBack (fun _ => 0) (some 0)) = none := by
  refine ⟨?_, ?_⟩
  · obtain ⟨s, hreach, hrest⟩ := insertAfter_behind_replicate (n := 2 ^ 31) le_rfl (by decide)
    exact ⟨s, hreach.mono fun _ _ _ => trivial, hrest⟩
  · exact slistPushBack_huge (s := slistNew (2 ^ 32)) (by decide) _ _

end Solidc.Containers
