import Solidc.Containers.Nodes
import Solidc.Lib.Transition
import Mathlib.Data.Fintype.EquivFin

/-! # The doubly linked list

`list_t` with the nodes it leads to. A node that is not allocated, a NULL pointer that is
followed, an element that does not fit behind its node and a walk that does not end have no
value. Addresses of new nodes come from outside; `malloc` may return NULL.

* `LinkedList.WellFormed` — the links both ways agree, and `size` counts the nodes;
* `LinkedList.Represents` — the cells of the list on its heap;
* `LinkedList.Represents.apply` — every operation does on the sequence what its name says;
* `list_refines_sequence` — so it does in every run in which elements are found within the range
  of an `int` and have less than 4 GiB.
-/

namespace Solidc.Containers

open CLib

/-! ## The code -/

/-- The nodes that are allocated, each with its element. -/
abbrev ListNodes : Type := Nat → Option (DNode Nat (List UInt8))

/-- `list_t`, with its nodes. -/
structure LinkedList where
  head : Option Nat
  tail : Option Nat
  size : Nat
  elemSize : Nat
  nodes : ListNodes

/-- `list_new`. -/
def listNew (elemSize : Nat) : LinkedList := ⟨none, none, 0, elemSize, fun _ => none⟩

/-- `list_node_new` with what `malloc` returns: the new node and the nodes with it. -/
def listNodeNew (s : LinkedList) (elem : Nat → UInt8) :
    Option Nat → Option (Option (Nat × ListNodes))
  | none => some none
  | some node =>
    if s.elemSize ≤ alignedSize s.elemSize then
      some (some (node, put s.nodes node ⟨extent elem s.elemSize, none, none⟩))
    else none

def listClear (s : LinkedList) : Option LinkedList :=
  (clearLoop DNode.next s.size s.nodes s.head).map fun nodes =>
    { s with nodes := nodes, head := none, tail := none, size := 0 }

def listPushBack (s : LinkedList) (elem : Nat → UInt8) (mem : Option Nat) : Option LinkedList := do
  match ← listNodeNew s elem mem with
  | none => some s
  | some (node, nodes) =>
    if s.tail = none then
      some { s with nodes := nodes, head := some node, tail := some node, size := s.size + 1 }
    else
      let nodes ← writePrev nodes (some node) s.tail
      let nodes ← writeNext nodes s.tail (some node)
      some { s with nodes := nodes, tail := some node, size := s.size + 1 }

def listPopBack (s : LinkedList) : Option LinkedList :=
  match s.tail with
  | none => some s
  | some n => do
    let node ← s.nodes n
    if node.prev ≠ none then
      let nodes ← writeNext s.nodes node.prev none
      some { s with nodes := free nodes n, tail := node.prev, size := s.size - 1 }
    else
      some { s with nodes := free s.nodes n, tail := none, head := none, size := s.size - 1 }

def listPushFront (s : LinkedList) (elem : Nat → UInt8) (mem : Option Nat) : Option LinkedList := do
  match ← listNodeNew s elem mem with
  | none => some s
  | some (node, nodes) =>
    if s.head = none then
      some { s with nodes := nodes, head := some node, tail := some node, size := s.size + 1 }
    else
      let nodes ← writeNext nodes (some node) s.head
      let nodes ← writePrev nodes s.head (some node)
      some { s with nodes := nodes, head := some node, size := s.size + 1 }

def listPopFront (s : LinkedList) : Option LinkedList :=
  match s.head with
  | none => some s
  | some n => do
    let node ← s.nodes n
    if node.next ≠ none then
      let nodes ← writePrev s.nodes node.next none
      some { s with nodes := free nodes n, head := node.next, size := s.size - 1 }
    else
      some { s with nodes := free s.nodes n, head := none, tail := none, size := s.size - 1 }

def listIndexOf (s : LinkedList) (elem : Nat → UInt8) : Option Int :=
  indexOfLoop DNode.next DNode.data s.nodes (extent elem s.elemSize) s.size s.head 0

def listInsert (s : LinkedList) (index : Nat) (elem : Nat → UInt8) (mem : Option Nat) :
    Option LinkedList :=
  if index > s.size then some s
  else if index = 0 then listPushFront s elem mem
  else if index = s.size then listPushBack s elem mem
  else do
    let found ← walkNext DNode.next s.nodes index s.head
    match ← listNodeNew s elem mem with
    | none => some s
    | some (node, nodes) =>
      let cur ← found
      let nodes ← writeNext nodes (some node) (some cur)
      let before ← nodes cur
      let nodes ← writePrev nodes (some node) before.prev
      let nodes ← writeNext nodes before.prev (some node)
      let nodes ← writePrev nodes (some cur) (some node)
      let head := if some cur = s.head then some node else s.head
      some { s with nodes := nodes, head := head, size := s.size + 1 }

def listRemove (s : LinkedList) (elem : Nat → UInt8) : Option LinkedList := do
  let idx ← listIndexOf s elem
  if idx = -1 then some s
  else
    let cur ← ← walkNext DNode.next s.nodes idx.toNat s.head
    let node ← s.nodes cur
    let nodes ← writeNext s.nodes node.prev node.next
    let head := if node.prev = none then node.next else s.head
    let node ← nodes cur
    let nodes ← writePrev nodes node.next node.prev
    let tail := if node.next = none then node.prev else s.tail
    some { s with nodes := free nodes cur, head := head, tail := tail, size := s.size - 1 }

def listInsertAfter (s : LinkedList) (elem after : Nat → UInt8) (mem : Option Nat) :
    Option LinkedList := do
  let idx ← listIndexOf s after
  if idx = -1 then some s
  else listInsert s ((intToSize idx + 1) % 2 ^ 64) elem mem

def listInsertBefore (s : LinkedList) (elem before : Nat → UInt8) (mem : Option Nat) :
    Option LinkedList := do
  let idx ← listIndexOf s before
  if idx = -1 then some s
  else listInsert s (intToSize idx) elem mem

/-! ## Runs -/

/-- A call, with the address that `malloc` returns if it is called. -/
inductive ListOp where
  | pushBack (elem : Nat → UInt8) (mem : Option Nat)
  | pushFront (elem : Nat → UInt8) (mem : Option Nat)
  | popBack
  | popFront
  | insert (index : Nat) (elem : Nat → UInt8) (mem : Option Nat)
  | remove (elem : Nat → UInt8)
  | insertAfter (elem after : Nat → UInt8) (mem : Option Nat)
  | insertBefore (elem before : Nat → UInt8) (mem : Option Nat)
  | clear

def LinkedList.apply (s : LinkedList) : ListOp → Option LinkedList
  | .pushBack elem mem => listPushBack s elem mem
  | .pushFront elem mem => listPushFront s elem mem
  | .popBack => listPopBack s
  | .popFront => listPopFront s
  | .insert index elem mem => listInsert s index elem mem
  | .remove elem => listRemove s elem
  | .insertAfter elem after mem => listInsertAfter s elem after mem
  | .insertBefore elem before mem => listInsertBefore s elem before mem
  | .clear => listClear s

/-- What `malloc` returns in a call. -/
def ListOp.mem : ListOp → Option Nat
  | .pushBack _ mem | .pushFront _ mem | .insert _ _ mem | .insertAfter _ _ mem
  | .insertBefore _ _ mem => mem
  | .popBack | .popFront | .remove _ | .clear => none

/-- `malloc` returns no address that is in use. -/
def ListOp.Fresh (op : ListOp) (s : LinkedList) : Prop := ∀ p ∈ op.mem, s.nodes p = none

/-- Lists of elements of any size under any sequence of calls. -/
def lists : System LinkedList ListOp where
  init s := ∃ elemSize, s = listNew elemSize
  step s op s' := op.Fresh s ∧ s.apply op = some s'

/-! ## The sequence -/

/-- The element sequence. -/
def LinkedList.elems (s : LinkedList) : List (List UInt8) :=
  collect DNode.next DNode.data s.nodes s.size s.head

/-- What a call does on a sequence of elements of `size` bytes; a call whose allocation fails
does nothing. -/
def sequenceEffect (size : Nat) (xs : List (List UInt8)) : ListOp → List (List UInt8)
  | .pushBack elem mem => if mem = none then xs else xs ++ [extent elem size]
  | .pushFront elem mem => if mem = none then xs else extent elem size :: xs
  | .popBack => xs.dropLast
  | .popFront => xs.tail
  | .insert index elem mem => if mem = none then xs else xs.insertIdx index (extent elem size)
  | .remove elem => xs.erase (extent elem size)
  | .insertAfter elem after mem =>
    match xs.idxOf? (extent after size) with
    | some i => if mem = none then xs else xs.insertIdx (i + 1) (extent elem size)
    | none => xs
  | .insertBefore elem before mem =>
    match xs.idxOf? (extent before size) with
    | some i => if mem = none then xs else xs.insertIdx i (extent elem size)
    | none => xs
  | .clear => []

/-- The nodes `ps` in the order of the list: `next` from the head and `prev` from the tail go
through the same nodes in opposite orders and end at NULL, `size` counts them, and no other node
is allocated. -/
structure LinkedList.WellFormedAt (s : LinkedList) (ps : List Nat) : Prop where
  next : Linked (fun p => (s.nodes p).bind DNode.next) s.head ps
  prev : Linked (fun p => (s.nodes p).bind DNode.prev) s.tail ps.reverse
  allocated : ∀ p, s.nodes p ≠ none ↔ p ∈ ps
  head_prev : ∀ p, s.head = some p → (s.nodes p).bind DNode.prev = none
  tail_next : ∀ p, s.tail = some p → (s.nodes p).bind DNode.next = none
  head_null : s.head = none ↔ ps = []
  tail_null : s.tail = none ↔ ps = []
  size : s.size = ps.length

def LinkedList.WellFormed (s : LinkedList) : Prop := ∃ ps, s.WellFormedAt ps

/-- The element that a call searches for. -/
def ListOp.sought (size : Nat) : ListOp → Option (List UInt8)
  | .remove elem => some (extent elem size)
  | .insertAfter _ after _ => some (extent after size)
  | .insertBefore _ before _ => some (extent before size)
  | _ => none

/-- The condition on a step: a new element fits behind its node, and the element that is searched
for stands within the first `2 ^ 31` ones, if it is there. -/
structure InRange (s : LinkedList) (op : ListOp) : Prop where
  fits : ∀ p ∈ op.mem, s.elemSize ≤ 2 ^ 32 - 8
  found : ∀ x ∈ op.sought s.elemSize, ∀ i ∈ s.elems.idxOf? x, i < 2 ^ 31

/-- The cells of a list on its heap, which has no other nodes. -/
structure LinkedList.Represents (s : LinkedList) (l : List (Nat × List UInt8)) : Prop where
  chain : Chain (DCell s.nodes) none l none
  nodup : (addrs l).Nodup
  head : s.head = firstOr none l
  tail : s.tail = lastOr none l
  size : s.size = l.length
  only : ∀ p ∉ addrs l, s.nodes p = none

/-! ## What the representation gives -/

variable {s : LinkedList} {l l₁ l₂ : List (Nat × List UInt8)}

theorem dcell_nodeLike :
    NodeLike DNode.next DNode.data (DCell (δ := List UInt8) (ι := Nat)) :=
  fun _ _ _ _ _ h => ⟨_, h, rfl, rfl⟩

namespace LinkedList.Represents

theorem elems_eq (h : s.Represents l) : s.elems = l.map Prod.snd := by
  rw [LinkedList.elems, h.size, h.head, collect_chain dcell_nodeLike h.chain]

theorem wellFormed (h : s.Represents l) : s.WellFormed := by
  refine ⟨addrs l, ?_⟩
  have hhead := h.head
  have htail := h.tail
  constructor
  · rw [hhead]
    exact h.chain.linked fun o p d o' hcell => by rw [show s.nodes p = _ from hcell]; rfl
  · rw [htail]
    exact h.chain.linked_prev fun o p d o' hcell => by rw [show s.nodes p = _ from hcell]; rfl
  · intro p
    refine ⟨fun hp => ?_, fun hp => h.chain.allocated hp⟩
    by_contra hmem
    exact hp (h.only p hmem)
  · intro p hp
    cases l with
    | nil => simp [hhead, firstOr] at hp
    | cons c l =>
      obtain rfl : c.1 = p := by simpa [hhead, firstOr] using hp
      rw [show s.nodes c.1 = _ from h.chain.1]
      rfl
  · intro p hp
    cases l using List.reverseRecOn with
    | nil => simp [htail, lastOr] at hp
    | append_singleton l c =>
      obtain rfl : c.1 = p := by simpa [htail, lastOr_concat] using hp
      rw [show s.nodes c.1 = _ from (chain_append.mp h.chain).2.1]
      rfl
  · rw [hhead]
    cases l <;> simp [firstOr]
  · rw [htail]
    cases l using List.reverseRecOn <;> simp [lastOr_concat, lastOr]
  · rw [h.size, addrs, List.length_map]

theorem indexOf (h : s.Represents l) (elem : Nat → UInt8) :
    listIndexOf s elem =
      some ((s.elems.idxOf? (extent elem s.elemSize)).elim (-1) fun i => toInt32 (i : Nat)) := by
  rw [h.elems_eq, listIndexOf, h.size, h.head]
  have hloop := indexOfLoop_chain dcell_nodeLike h.chain (extent elem s.elemSize) 0
  simpa [toInt32] using hloop

end LinkedList.Represents

theorem listNew_represents (elemSize : Nat) : (listNew elemSize).Represents [] :=
  ⟨trivial, List.nodup_nil, rfl, rfl, rfl, fun _ _ => rfl⟩

/-! ## New nodes -/

theorem listNodeNew_eq (hfits : s.elemSize ≤ 2 ^ 32 - 8) (elem : Nat → UInt8) (node : Nat) :
    listNodeNew s elem (some node) =
      some (some (node, put s.nodes node ⟨extent elem s.elemSize, none, none⟩)) :=
  if_pos (le_alignedSize hfits)

/-- A new node between two parts of the list, with the writes to its neighbours. -/
theorem LinkedList.Represents.link (h : s.Represents (l₁ ++ l₂)) {node : Nat} (x : List UInt8)
    (hfresh : s.nodes node = none) :
    ∃ nodes₁ nodes₂, writeNext (put s.nodes node ⟨x, firstOr none l₂, lastOr none l₁⟩)
        (lastOr none l₁) (some node) = some nodes₁ ∧
      writePrev nodes₁ (firstOr none l₂) (some node) = some nodes₂ ∧
      ({ s with
        nodes := nodes₂
        head := firstOr (some node) l₁
        tail := lastOr (some node) l₂
        size := s.size + 1 } : LinkedList).Represents (l₁ ++ (node, x) :: l₂) := by
  have hnew : node ∉ addrs (l₁ ++ l₂) := fun hmem => h.chain.allocated hmem hfresh
  obtain ⟨nodes₁, nodes₂, hw₁, hw₂, hchain, hkeep⟩ := chain_insert (x := x) h.chain h.nodup hnew
  refine ⟨nodes₁, nodes₂, hw₁, hw₂, hchain, ?_, ?_, ?_, ?_, fun p hp => ?_⟩
  · have hnd := h.nodup
    rw [addrs_append] at hnd hnew
    rw [addrs_append, addrs_cons]
    exact List.nodup_middle.mpr (List.nodup_cons.mpr ⟨hnew, hnd⟩)
  · rw [firstOr_append, firstOr_cons]
  · rw [lastOr_append, lastOr_cons]
  · rw [h.size]
    simp only [List.length_append, List.length_cons]
    omega
  · refine (hkeep p hp).trans (h.only p fun hmem => hp ?_)
    simp only [addrs_append, addrs_cons, List.mem_append, List.mem_cons] at hmem ⊢
    tauto

namespace LinkedList.Represents

variable (elem : Nat → UInt8) {node : Nat}

theorem pushBack (h : s.Represents l) (hfits : s.elemSize ≤ 2 ^ 32 - 8)
    (hfresh : s.nodes node = none) :
    ∃ s', listPushBack s elem (some node) = some s' ∧
      s'.Represents (l ++ [(node, extent elem s.elemSize)]) ∧ s'.elemSize = s.elemSize := by
  have hl : s.Represents (l ++ []) := by rwa [List.append_nil]
  obtain ⟨nodes₁, nodes₂, hw₁, hw₂, hrep⟩ := hl.link (extent elem s.elemSize) hfresh
  rw [firstOr_nil] at hw₁ hw₂
  obtain rfl : nodes₁ = nodes₂ := Option.some.inj hw₂
  unfold listPushBack
  rw [listNodeNew_eq hfits]
  by_cases htail : s.tail = none
  · obtain rfl : l = [] := lastOr_eq_none.mp (h.tail ▸ htail)
    obtain rfl : _ = nodes₁ := Option.some.inj hw₁
    exact ⟨_, by simp [htail], hrep, rfl⟩
  · have hne : l ≠ [] := fun hnil => htail (h.tail.trans (lastOr_eq_none.mpr hnil))
    refine ⟨_, ?_, hrep, rfl⟩
    rw [← h.tail] at hw₁
    have hhead : firstOr (some node) l = s.head := by
      rw [h.head]
      cases l with
      | nil => exact absurd rfl hne
      | cons c l => rfl
    simp [htail, CLib.writePrev, hw₁, hhead]

theorem pushFront (h : s.Represents l) (hfits : s.elemSize ≤ 2 ^ 32 - 8)
    (hfresh : s.nodes node = none) :
    ∃ s', listPushFront s elem (some node) = some s' ∧
      s'.Represents ((node, extent elem s.elemSize) :: l) ∧ s'.elemSize = s.elemSize := by
  have hl : s.Represents ([] ++ l) := h
  obtain ⟨nodes₁, nodes₂, hw₁, hw₂, hrep⟩ := hl.link (extent elem s.elemSize) hfresh
  rw [lastOr_nil] at hw₁
  obtain rfl : _ = nodes₁ := Option.some.inj hw₁
  unfold listPushFront
  rw [listNodeNew_eq hfits]
  by_cases hhead : s.head = none
  · obtain rfl : l = [] := firstOr_eq_none.mp (h.head ▸ hhead)
    obtain rfl : _ = nodes₂ := Option.some.inj hw₂
    exact ⟨_, by simp [hhead], hrep, rfl⟩
  · have hne : l ≠ [] := fun hnil => hhead (h.head.trans (firstOr_eq_none.mpr hnil))
    refine ⟨_, ?_, hrep, rfl⟩
    rw [← h.head] at hw₂
    have htail : lastOr (some node) l = s.tail := by
      rw [h.tail]
      exact lastOr_ne_nil hne _ _
    simp [hhead, CLib.writeNext, hw₂, htail]

theorem insertMiddle (h : s.Represents (l₁ ++ l₂)) (hfits : s.elemSize ≤ 2 ^ 32 - 8)
    (hfresh : s.nodes node = none) (hl₁ : l₁ ≠ []) (hl₂ : l₂ ≠ []) :
    ∃ s', listInsert s l₁.length elem (some node) = some s' ∧
      s'.Represents (l₁ ++ (node, extent elem s.elemSize) :: l₂) ∧ s'.elemSize = s.elemSize := by
  obtain ⟨nodes₁, nodes₂, hw₁, hw₂, hrep⟩ := h.link (extent elem s.elemSize) hfresh
  obtain ⟨c, l₂, rfl⟩ := List.exists_cons_of_ne_nil hl₂
  have hpos : 0 < l₁.length := List.length_pos_iff.mpr hl₁
  have hsize : s.size = l₁.length + (l₂.length + 1) := by
    rw [h.size, List.length_append, List.length_cons]
  have hcell : s.nodes c.1 = some ⟨c.2, firstOr none l₂, lastOr none l₁⟩ :=
    (chain_append.mp h.chain).2.1
  have hcur : c.1 ≠ node := by
    rintro rfl
    rw [hfresh] at hcell
    cases hcell
  have hhead : firstOr (some node) l₁ = s.head ∧ s.head ≠ some c.1 := by
    obtain ⟨b, l₁, rfl⟩ := List.exists_cons_of_ne_nil hl₁
    have hnd := h.nodup
    rw [List.cons_append, addrs_cons, List.nodup_cons] at hnd
    refine ⟨h.head.symm, fun heq => hnd.1 ?_⟩
    obtain heq : b.1 = c.1 := Option.some.inj (h.head.symm.trans heq)
    simp [heq]
  have htail : lastOr (some node) (c :: l₂) = s.tail := by
    rw [h.tail, lastOr_append]
    rfl
  refine ⟨_, ?_, hrep, rfl⟩
  unfold listInsert
  rw [if_neg (by omega), if_neg (by omega), if_neg (by omega), h.head,
    walkNext_chain dcell_nodeLike h.chain,
    listNodeNew_eq hfits]
  -- the node is linked first, then its predecessor, then its successor
  simp only [firstOr_cons] at hw₁ hw₂ ⊢
  simp only [Option.bind_eq_bind, Option.bind_some, CLib.writeNext, put_self, Option.map_some,
    put_put, put_ne hcur, hcell, CLib.writePrev]
  change (CLib.writeNext _ (lastOr none l₁) (some node)).bind _ = _
  rw [hw₁, Option.bind_some]
  change (CLib.writePrev nodes₁ (some c.1) (some node)).bind _ = _
  rw [hw₂, Option.bind_some, ← h.head, if_neg hhead.2.symm, hhead.1, htail]

/-- A node is taken out of the list. -/
theorem unlink {x : List UInt8} (h : s.Represents (l₁ ++ (node, x) :: l₂)) :
    ∃ nodes₁ nodes₂, CLib.writeNext s.nodes (lastOr none l₁) (firstOr none l₂) = some nodes₁ ∧
      CLib.writePrev nodes₁ (firstOr none l₂) (lastOr none l₁) = some nodes₂ ∧
      ({ s with
        nodes := free nodes₂ node
        head := firstOr (firstOr none l₂) l₁
        tail := lastOr (lastOr none l₁) l₂
        size := s.size - 1 } : LinkedList).Represents (l₁ ++ l₂) := by
  obtain ⟨nodes₁, nodes₂, hw₁, hw₂, hchain, hkeep⟩ := chain_unlink h.chain h.nodup
  refine ⟨nodes₁, nodes₂, hw₁, hw₂, hchain, ?_, firstOr_append.symm, lastOr_append.symm, ?_,
    fun p hp => ?_⟩
  · have hnd := h.nodup
    rw [addrs_append, addrs_cons] at hnd
    rw [addrs_append]
    exact (List.nodup_cons.mp (List.nodup_middle.mp hnd)).2
  · rw [h.size]
    simp only [List.length_append, List.length_cons]
    omega
  · by_cases hpn : p = node
    · subst hpn
      exact free_self _ _
    · refine (hkeep p hp hpn).trans (h.only p fun hmem => hp ?_)
      simp only [addrs_append, addrs_cons, List.mem_append, List.mem_cons] at hmem ⊢
      tauto

theorem cell (h : s.Represents (l₁ ++ (node, x) :: l₂)) :
    s.nodes node = some ⟨x, firstOr none l₂, lastOr none l₁⟩ :=
  (chain_append.mp h.chain).2.1

theorem popBack {c : Nat × List UInt8} (h : s.Represents (l ++ [c])) :
    ∃ s', listPopBack s = some s' ∧ s'.Represents l ∧ s'.elemSize = s.elemSize := by
  obtain ⟨nodes₁, nodes₂, hw₁, hw₂, hrep⟩ := h.unlink
  simp only [firstOr_nil, lastOr_nil, List.append_nil] at hw₁ hw₂ hrep
  obtain rfl : nodes₁ = nodes₂ := Option.some.inj hw₂
  have htail : s.tail = some c.1 := h.tail.trans (lastOr_concat c)
  refine ⟨_, ?_, hrep, rfl⟩
  unfold listPopBack
  simp only [htail, h.cell, Option.bind_eq_bind, Option.bind_some]
  by_cases hl : l = []
  · subst hl
    obtain rfl : s.nodes = nodes₁ := Option.some.inj hw₁
    rfl
  · have hprev : lastOr none l ≠ none := fun heq => hl (lastOr_eq_none.mp heq)
    have hhead : firstOr none l = s.head := by
      rw [h.head, firstOr_append]
      cases l with
      | nil => exact absurd rfl hl
      | cons c l => rfl
    rw [if_pos hprev, hw₁, hhead]
    rfl

theorem popFront {c : Nat × List UInt8} (h : s.Represents (c :: l)) :
    ∃ s', listPopFront s = some s' ∧ s'.Represents l ∧ s'.elemSize = s.elemSize := by
  have h : s.Represents ([] ++ c :: l) := h
  obtain ⟨nodes₁, nodes₂, hw₁, hw₂, hrep⟩ := h.unlink
  simp only [firstOr_nil, lastOr_nil, List.nil_append] at hw₁ hw₂ hrep
  obtain rfl : s.nodes = nodes₁ := Option.some.inj hw₁
  have hhead : s.head = some c.1 := h.head
  refine ⟨_, ?_, hrep, rfl⟩
  unfold listPopFront
  simp only [hhead, h.cell, Option.bind_eq_bind, Option.bind_some]
  by_cases hl : l = []
  · subst hl
    obtain rfl : s.nodes = nodes₂ := Option.some.inj hw₂
    rfl
  · have hnext : firstOr none l ≠ none := fun heq => hl (firstOr_eq_none.mp heq)
    have htail : lastOr none l = s.tail := by
      rw [h.tail, List.nil_append]
      exact lastOr_ne_nil hl _ _
    rw [if_pos hnext, hw₂, htail]
    rfl

/-- The end of `list_remove`, at the node that was found. -/
theorem removeAt {x : List UInt8} (h : s.Represents (l₁ ++ (node, x) :: l₂)) :
    ∃ s', (do
        let cur ← ← walkNext DNode.next s.nodes l₁.length s.head
        let node ← s.nodes cur
        let nodes ← CLib.writeNext s.nodes node.prev node.next
        let head := if node.prev = none then node.next else s.head
        let node ← nodes cur
        let nodes ← CLib.writePrev nodes node.next node.prev
        let tail := if node.next = none then node.prev else s.tail
        some { s with nodes := free nodes cur, head := head, tail := tail, size := s.size - 1 }) =
        some s' ∧ s'.Represents (l₁ ++ l₂) ∧ s'.elemSize = s.elemSize := by
  obtain ⟨nodes₁, nodes₂, hw₁, hw₂, hrep⟩ := h.unlink
  -- the write to the predecessor leaves the node itself alone
  have hcell : nodes₁ node = some ⟨x, firstOr none l₂, lastOr none l₁⟩ := by
    have hnd := h.nodup
    rw [addrs_append, addrs_cons, List.nodup_append'] at hnd
    have hc₁ := (chain_append.mp h.chain).1
    obtain ⟨nodes', hw, -, hkeep⟩ := hc₁.writeNext hnd.1 (firstOr none l₂)
    obtain rfl : nodes' = nodes₁ := Option.some.inj (hw.symm.trans hw₁)
    rw [hkeep node fun hmem => hnd.2.2 hmem List.mem_cons_self, h.cell]
  have hhead : (if lastOr none l₁ = none then firstOr none l₂ else s.head) =
      firstOr (firstOr none l₂) l₁ := by
    rw [h.head, firstOr_append]
    cases l₁ with
    | nil => rfl
    | cons c l₁ => exact if_neg fun heq => List.cons_ne_nil _ _ (lastOr_eq_none.mp heq)
  have htail : (if firstOr none l₂ = none then lastOr none l₁ else s.tail) =
      lastOr (lastOr none l₁) l₂ := by
    rw [h.tail, lastOr_append]
    cases l₂ with
    | nil => rfl
    | cons c l₂ => rfl
  refine ⟨_, ?_, hrep, rfl⟩
  rw [h.head, walkNext_chain dcell_nodeLike h.chain, ← h.head]
  simp only [firstOr_cons, Option.bind_eq_bind, Option.bind_some, h.cell, hw₁, hcell, hw₂, hhead,
    htail]

end LinkedList.Represents

/-! ## One call -/

namespace LinkedList.Represents

/-- `list_insert` at any index, whatever `malloc` returns. -/
theorem insert (h : s.Represents l) (index : Nat) (elem : Nat → UInt8) {mem : Option Nat}
    (hfresh : ∀ p ∈ mem, s.nodes p = none) (hfits : ∀ p ∈ mem, s.elemSize ≤ 2 ^ 32 - 8) :
    ∃ s' l', listInsert s index elem mem = some s' ∧ s'.Represents l' ∧
      l'.map Prod.snd = (if mem = none then l.map Prod.snd
        else (l.map Prod.snd).insertIdx index (extent elem s.elemSize)) := by
  by_cases hindex : index > s.size
  · refine ⟨s, l, if_pos hindex, h, ?_⟩
    rw [List.insertIdx_of_length_lt (by rw [List.length_map, ← h.size]; exact hindex), ite_self]
  have hle : index ≤ l.length := h.size ▸ Nat.le_of_not_lt hindex
  obtain ⟨l₁, l₂, rfl, rfl⟩ : ∃ l₁ l₂, l = l₁ ++ l₂ ∧ index = l₁.length :=
    ⟨l.take index, l.drop index, (List.take_append_drop index l).symm, by simp [hle]⟩
  cases mem with
  | none =>
    refine ⟨s, l₁ ++ l₂, ?_, h, by simp⟩
    unfold listInsert listPushFront listPushBack listNodeNew
    rw [if_neg hindex, h.head, walkNext_chain dcell_nodeLike h.chain]
    simp
  | some node =>
    have hfresh := hfresh node rfl
    have hfits := hfits node rfl
    rw [if_neg (Option.some_ne_none node), map_snd_insertIdx]
    by_cases hfirst : l₁ = []
    · subst hfirst
      obtain ⟨s', hs', hrep, -⟩ := h.pushFront elem hfits hfresh
      refine ⟨s', _, ?_, hrep, by simp⟩
      rw [listInsert, if_neg hindex]
      exact hs'
    have hpos : l₁.length ≠ 0 := fun hz => hfirst (List.length_eq_zero_iff.mp hz)
    by_cases hlast : l₂ = []
    · subst hlast
      obtain ⟨s', hs', hrep, -⟩ := h.pushBack elem hfits hfresh
      refine ⟨s', _, ?_, hrep, by simp⟩
      rw [listInsert, if_neg hindex, if_neg hpos, if_pos (by rw [h.size]; simp)]
      exact hs'
    obtain ⟨s', hs', hrep, -⟩ := h.insertMiddle elem hfits hfresh hfirst hlast
    exact ⟨s', _, hs', hrep, by simp⟩

/-- `list_remove` takes out the first equal element. -/
theorem remove (h : s.Represents l) (elem : Nat → UInt8)
    (hfound : ∀ i ∈ s.elems.idxOf? (extent elem s.elemSize), i < 2 ^ 31) :
    ∃ s' l', listRemove s elem = some s' ∧ s'.Represents l' ∧
      l'.map Prod.snd = s.elems.erase (extent elem s.elemSize) := by
  have hx := h.elems_eq
  have hindex := h.indexOf elem
  rcases hi : s.elems.idxOf? (extent elem s.elemSize) with _ | i
  · rw [hi] at hindex
    refine ⟨s, l, by simp [listRemove, hindex], h, ?_⟩
    rw [List.erase_of_not_mem (List.idxOf?_eq_none_iff.mp hi), hx]
  · have hsmall := hfound i hi
    have hne : toInt32 i ≠ -1 := by
      rw [toInt32_eq hsmall]
      omega
    rw [hi] at hindex
    rw [Option.elim_some] at hindex
    rw [hx] at hi
    obtain ⟨l₁, p, l₂, rfl, rfl, hnot⟩ := exists_cell_of_idxOf? hi
    obtain ⟨s', hs', hrep, -⟩ := h.removeAt
    have hsplit : (l₁ ++ (p, extent elem s.elemSize) :: l₂).map Prod.snd =
        l₁.map Prod.snd ++ extent elem s.elemSize :: l₂.map Prod.snd := by simp
    refine ⟨s', _, ?_, hrep, ?_⟩
    · rw [listRemove, hindex, Option.bind_eq_bind, Option.bind_some, if_neg hne,
        toInt32_eq hsmall, Int.toNat_natCast]
      exact hs'
    · rw [hx, hsplit, List.erase_append_right _ hnot, List.erase_cons_head, List.map_append]

/-- The insertion behind the first equal element. -/
theorem insertAfter (h : s.Represents l) (elem after : Nat → UInt8) {mem : Option Nat}
    (hfresh : ∀ p ∈ mem, s.nodes p = none) (hfits : ∀ p ∈ mem, s.elemSize ≤ 2 ^ 32 - 8)
    (hfound : ∀ i ∈ s.elems.idxOf? (extent after s.elemSize), i < 2 ^ 31) :
    ∃ s' l', listInsertAfter s elem after mem = some s' ∧ s'.Represents l' ∧
      l'.map Prod.snd = sequenceEffect s.elemSize s.elems (.insertAfter elem after mem) := by
  have hx := h.elems_eq
  have hindex := h.indexOf after
  rw [sequenceEffect]
  rcases hi : s.elems.idxOf? (extent after s.elemSize) with _ | i
  · rw [hi] at hindex
    exact ⟨s, l, by simp [listInsertAfter, hindex], h, hx.symm⟩
  · have hsmall := hfound i hi
    have hne : toInt32 i ≠ -1 := by
      rw [toInt32_eq hsmall]
      omega
    rw [hi] at hindex
    rw [Option.elim_some] at hindex
    obtain ⟨s', l', hs', hrep, hl'⟩ := h.insert (i + 1) elem hfresh hfits
    refine ⟨s', l', ?_, hrep, by rw [hl', hx]⟩
    rw [listInsertAfter, hindex, Option.bind_eq_bind, Option.bind_some, if_neg hne,
      intToSize_toInt32 hsmall, Nat.mod_eq_of_lt (by omega), hs']

/-- The insertion in front of the first equal element. -/
theorem insertBefore (h : s.Represents l) (elem before : Nat → UInt8) {mem : Option Nat}
    (hfresh : ∀ p ∈ mem, s.nodes p = none) (hfits : ∀ p ∈ mem, s.elemSize ≤ 2 ^ 32 - 8)
    (hfound : ∀ i ∈ s.elems.idxOf? (extent before s.elemSize), i < 2 ^ 31) :
    ∃ s' l', listInsertBefore s elem before mem = some s' ∧ s'.Represents l' ∧
      l'.map Prod.snd = sequenceEffect s.elemSize s.elems (.insertBefore elem before mem) := by
  have hx := h.elems_eq
  have hindex := h.indexOf before
  rw [sequenceEffect]
  rcases hi : s.elems.idxOf? (extent before s.elemSize) with _ | i
  · rw [hi] at hindex
    exact ⟨s, l, by simp [listInsertBefore, hindex], h, hx.symm⟩
  · have hsmall := hfound i hi
    have hne : toInt32 i ≠ -1 := by
      rw [toInt32_eq hsmall]
      omega
    rw [hi] at hindex
    rw [Option.elim_some] at hindex
    obtain ⟨s', l', hs', hrep, hl'⟩ := h.insert i elem hfresh hfits
    refine ⟨s', l', ?_, hrep, by rw [hl', hx]⟩
    rw [listInsertBefore, hindex, Option.bind_eq_bind, Option.bind_some, if_neg hne,
      intToSize_toInt32 hsmall, hs']

/-- Every call does on the sequence what its name says. -/
theorem apply (h : s.Represents l) (op : ListOp) (hfresh : op.Fresh s) (hrange : InRange s op) :
    ∃ s' l', s.apply op = some s' ∧ s'.Represents l' ∧
      l'.map Prod.snd = sequenceEffect s.elemSize s.elems op := by
  have hx := h.elems_eq
  cases op with
  | pushBack elem mem =>
    cases mem with
    | none => exact ⟨s, l, rfl, h, by simp [sequenceEffect, hx]⟩
    | some node =>
      obtain ⟨s', hs', hrep, -⟩ :=
        h.pushBack elem (hrange.fits node rfl) (hfresh node rfl)
      exact ⟨s', _, hs', hrep, by simp [sequenceEffect, hx]⟩
  | pushFront elem mem =>
    cases mem with
    | none => exact ⟨s, l, rfl, h, by simp [sequenceEffect, hx]⟩
    | some node =>
      obtain ⟨s', hs', hrep, -⟩ :=
        h.pushFront elem (hrange.fits node rfl) (hfresh node rfl)
      exact ⟨s', _, hs', hrep, by simp [sequenceEffect, hx]⟩
  | popBack =>
    cases l using List.reverseRecOn with
    | nil =>
      refine ⟨s, [], ?_, h, by simp [hx, sequenceEffect]⟩
      simp [LinkedList.apply, listPopBack, h.tail]
    | append_singleton l c =>
      obtain ⟨s', hs', hrep, -⟩ := h.popBack
      exact ⟨s', l, hs', hrep, by simp [sequenceEffect, hx]⟩
  | popFront =>
    cases l with
    | nil =>
      refine ⟨s, [], ?_, h, by simp [hx, sequenceEffect]⟩
      simp [LinkedList.apply, listPopFront, h.head]
    | cons c l =>
      obtain ⟨s', hs', hrep, -⟩ := h.popFront
      exact ⟨s', l, hs', hrep, by simp [sequenceEffect, hx]⟩
  | insert index elem mem =>
    have hmem : ∀ p ∈ mem, s.nodes p = none := hfresh
    obtain ⟨s', l', hs', hrep, hl'⟩ := h.insert index elem hmem hrange.fits
    exact ⟨s', l', hs', hrep, by rw [hl', sequenceEffect, hx]⟩
  | remove elem => exact h.remove elem (hrange.found _ rfl)
  | insertAfter elem after mem =>
    exact h.insertAfter elem after hfresh hrange.fits (hrange.found _ rfl)
  | insertBefore elem before mem =>
    exact h.insertBefore elem before hfresh hrange.fits (hrange.found _ rfl)
  | clear =>
    have hclear := clearLoop_chain dcell_nodeLike (fun _ _ _ _ _ _ heq hc => heq.trans hc) h.chain
      h.nodup h.only
    rw [← h.size, ← h.head] at hclear
    refine ⟨_, [], by rw [LinkedList.apply, listClear, hclear]; rfl, ?_, rfl⟩
    exact ⟨trivial, List.nodup_nil, rfl, rfl, rfl, fun _ _ => rfl⟩

end LinkedList.Represents

/-! ## Runs -/

theorem reach_represents (h : Reach lists InRange s) : ∃ l, s.Represents l := by
  refine h.invariant (fun s => ∃ l, s.Represents l) ?_ ?_
  · rintro s ⟨elemSize, rfl⟩
    exact ⟨[], listNew_represents elemSize⟩
  · rintro s op s' ⟨l, hrep⟩ hrange ⟨hfresh, hstep⟩
    obtain ⟨s'', l', hs'', hrep', -⟩ := hrep.apply op hfresh hrange
    obtain rfl : s'' = s' := Option.some.inj (hs''.symm.trans hstep)
    exact ⟨l', hrep'⟩

/-- In every run in range the list is well formed, and every call in range is carried out and
gives a well-formed list with the sequence that the operation gives on sequences. -/
theorem list_refines_sequence (h : Reach lists InRange s) :
    s.WellFormed ∧ ∀ op : ListOp, op.Fresh s → InRange s op →
      ∃ s', s.apply op = some s' ∧ s'.WellFormed ∧
        s'.elems = sequenceEffect s.elemSize s.elems op := by
  obtain ⟨l, hrep⟩ := reach_represents h
  refine ⟨hrep.wellFormed, fun op hfresh hrange => ?_⟩
  obtain ⟨s', l', hs', hrep', hl'⟩ := hrep.apply op hfresh hrange
  exact ⟨s', hs', hrep'.wellFormed, by rw [hrep'.elems_eq, hl']⟩

theorem list_refines_sequence_two : ∃ s : LinkedList, Reach lists InRange s ∧ s.WellFormed ∧
    s.elems = [[7], [8]] ∧ ∃ s', s.apply (.remove fun _ => 8) = some s' ∧ s'.elems = [[7]] := by
  have hfits : 1 ≤ 2 ^ 32 - 8 := by decide
  have hreach₁ := (Reach.init ⟨1, rfl⟩ : Reach lists InRange (listNew 1)).step
    (a := .pushBack (fun _ => 8) (some 0)) ⟨fun _ _ => hfits, nofun⟩ ⟨fun _ _ => rfl, rfl⟩
  have hreach₂ := hreach₁.step
    (a := .pushFront (fun _ => 7) (some 1)) ⟨fun _ _ => hfits, nofun⟩
    ⟨by rintro p ⟨⟩; rfl, rfl⟩
  obtain ⟨hwf, hcall⟩ := list_refines_sequence hreach₂
  obtain ⟨s', hs', -, helems⟩ := hcall (.remove fun _ => 8) nofun
    ⟨nofun, by rintro x ⟨⟩ i hi; obtain rfl : 1 = i := Option.some.inj hi; decide⟩
  exact ⟨_, hreach₂, hwf, rfl, s', hs', helems⟩

/-! ## Out of range -/

/-- `list_remove` at an index that an `int` does not hold takes out the head. -/
theorem LinkedList.Represents.remove_wraps {c : Nat × List UInt8} (h : s.Represents (c :: l))
    {elem : Nat → UInt8} {i : Nat} (hi : s.elems.idxOf? (extent elem s.elemSize) = some i)
    (hlow : 2 ^ 31 ≤ i) (hhigh : i < 2 ^ 32 - 1) :
    ∃ s', listRemove s elem = some s' ∧ s'.Represents l := by
  have hindex := h.indexOf elem
  rw [hi] at hindex
  rw [Option.elim_some] at hindex
  have hneg : toInt32 i < -1 := by
    unfold toInt32
    omega
  have h : s.Represents ([] ++ c :: l) := h
  obtain ⟨s', hs', hrep, -⟩ := h.removeAt
  refine ⟨s', ?_, hrep⟩
  rw [listRemove, hindex, Option.bind_eq_bind, Option.bind_some, if_neg (by omega),
    Int.toNat_of_nonpos (by omega)]
  exact hs'

/-- An element that does not fit behind its node is written all the same. -/
theorem pushBack_huge (hbig : 2 ^ 32 - 8 < s.elemSize) (elem : Nat → UInt8) (node : Nat) :
    listPushBack s elem (some node) = none := by
  rw [listPushBack, listNodeNew, if_neg (Nat.not_le_of_lt (alignedSize_lt hbig))]
  rfl

/-- Any number of equal elements can be pushed. -/
theorem exists_replicate (n : Nat) : ∃ s l, Reach lists InRange s ∧ s.Represents l ∧
    l.map Prod.snd = List.replicate n [0] ∧ s.elemSize = 1 := by
  induction n with
  | zero => exact ⟨listNew 1, [], .init ⟨1, rfl⟩, listNew_represents 1, rfl, rfl⟩
  | succ n ih =>
    obtain ⟨s, l, hreach, hrep, helems, hsize⟩ := ih
    obtain ⟨p, hp⟩ := Infinite.exists_notMem_finset (addrs l).toFinset
    have hfresh : s.nodes p = none := hrep.only p (by simpa using hp)
    have hfits : s.elemSize ≤ 2 ^ 32 - 8 := by
      rw [hsize]
      decide
    obtain ⟨s', hs', hrep', hsize'⟩ := hrep.pushFront (fun _ => 0) hfits hfresh
    refine ⟨s', _, hreach.step (a := .pushFront (fun _ => 0) (some p)) ⟨?_, nofun⟩ ⟨?_, hs'⟩,
      hrep', ?_, hsize'.trans hsize⟩
    · exact fun _ _ => hfits
    · rintro q ⟨⟩
      exact hfresh
    · rw [List.map_cons, helems, hsize]
      rfl

/-- Behind so many elements `[0]` the first `[1]` cannot be removed: a `[0]` is. -/
theorem remove_behind_replicate {n : Nat} (hlow : 2 ^ 31 ≤ n) (hhigh : n < 2 ^ 32 - 1) :
    ∃ s s', Reach lists InRange s ∧ s.apply (.remove fun _ => 1) = some s' ∧
      s'.elems ≠ sequenceEffect s.elemSize s.elems (.remove fun _ => 1) := by
  obtain ⟨s, l, hreach, hrep, helems, hsize⟩ := exists_replicate n
  obtain ⟨p, hp⟩ := Infinite.exists_notMem_finset (addrs l).toFinset
  have hfresh : s.nodes p = none := hrep.only p (by simpa using hp)
  have hfits : s.elemSize ≤ 2 ^ 32 - 8 := by
    rw [hsize]
    decide
  obtain ⟨s₁, hs₁, hrep₁, hsize₁⟩ := hrep.pushBack (fun _ => 1) hfits hfresh
  have hreach₁ := hreach.step (a := .pushBack (fun _ => 1) (some p)) ⟨fun _ _ => hfits, nofun⟩
    ⟨by rintro q ⟨⟩; exact hfresh, hs₁⟩
  have hone : extent (fun _ => (1 : UInt8)) s₁.elemSize = [1] := by
    rw [hsize₁, hsize]
    rfl
  have helems₁ : s₁.elems = List.replicate n [0] ++ [[1]] := by
    rw [hrep₁.elems_eq, List.map_append, helems, hsize]
    rfl
  have hnot : [1] ∉ List.replicate n ([0] : List UInt8) := fun hmem =>
    absurd (List.eq_of_mem_replicate hmem) (by decide)
  have hfound : s₁.elems.idxOf? (extent (fun _ => 1) s₁.elemSize) = some n := by
    rw [hone, helems₁, idxOf?_behind hnot, List.length_replicate]
  obtain ⟨c, l', hcons⟩ : ∃ c l', l ++ [(p, extent (fun _ => 1) s.elemSize)] = c :: l' :=
    List.exists_cons_of_ne_nil (by simp)
  rw [hcons] at hrep₁
  obtain ⟨s', hs', hrep'⟩ := hrep₁.remove_wraps hfound hlow hhigh
  refine ⟨s₁, s', hreach₁, hs', fun heq => hnot ?_⟩
  -- `[1]` is still there, behind one `[0]` less
  have hkept : [1] ∈ s'.elems := by
    obtain ⟨m, rfl⟩ : ∃ m, n = m + 1 := ⟨n - 1, by omega⟩
    have htail : c.2 :: l'.map Prod.snd = [0] :: (List.replicate m [0] ++ [[1]]) := by
      rw [← List.map_cons, ← hrep₁.elems_eq, helems₁, List.replicate_succ, List.cons_append]
    rw [hrep'.elems_eq, (List.cons.inj htail).2]
    simp
  rw [heq, sequenceEffect, hone, helems₁, List.erase_append_right _ hnot,
    List.erase_cons_head, List.append_nil] at hkept
  exact hkept

/-- After `2 ^ 31` elements `[0]` and one `[1]` the call `list_remove` of `[1]` takes out a `[0]`;
and an element of 4 GiB is written over the end of its node. -/
theorem list_out_of_range :
    (∃ s s', Reach lists AnyStep s ∧ s.apply (.remove fun _ => 1) = some s' ∧
      s'.elems ≠ sequenceEffect s.elemSize s.elems (.remove fun _ => 1)) ∧
    (listNew (2 ^ 32)).apply (.pushBack (fun _ => 0) (some 0)) = none := by
  refine ⟨?_, ?_⟩
  · obtain ⟨s, s', hreach, hs', hne⟩ := remove_behind_replicate (n := 2 ^ 31) le_rfl (by decide)
    exact ⟨s, s', hreach.mono fun _ _ _ => trivial, hs', hne⟩
  · exact pushBack_huge (s := listNew (2 ^ 32)) (by decide) _ _

end Solidc.Containers
