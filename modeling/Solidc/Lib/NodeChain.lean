import Solidc.Lib.Linked
import Mathlib.Data.List.Induction
import Mathlib.Logic.Function.Basic
import Mathlib.Tactic.Common

/-! # Linked lists on a heap

A list of cells, each an address with its data, lies on a heap when every cell is linked to the
one before and the one after it. `Chain P prv l nxt` says so for the part `l` of a list that
stands between `prv` and `nxt`, with `P` for what a node holds.

* `chain_append` — a list is a chain exactly when its two parts are;
* `Chain.congr` — a chain depends on its own nodes only;
* `DNode` — nodes of a doubly linked list, with `Chain.writeNext`, `Chain.writePrev` for the two
  writes that relink a part, `chain_insert` and `chain_unlink`;
* `SNode` — nodes of a singly linked list.
-/

namespace CLib

variable {ι δ : Type*} {P Q : Option ι → ι → δ → Option ι → Prop} {prv nxt : Option ι}
  {l l₁ l₂ : List (ι × δ)} {p : ι} {d : δ}

/-- The address of the first cell, or what follows an empty part. -/
def firstOr (nxt : Option ι) : List (ι × δ) → Option ι
  | [] => nxt
  | c :: _ => some c.1

/-- The address of the last cell, or what comes before an empty part. -/
def lastOr (prv : Option ι) : List (ι × δ) → Option ι
  | [] => prv
  | c :: l => lastOr (some c.1) l

/-- The addresses of the cells. -/
def addrs (l : List (ι × δ)) : List ι := l.map Prod.fst

/-- Each cell is linked to its neighbours; the first one follows `prv` and the last one is
followed by `nxt`. -/
def Chain (P : Option ι → ι → δ → Option ι → Prop) (prv : Option ι) :
    List (ι × δ) → Option ι → Prop
  | [], _ => True
  | c :: l, nxt => P prv c.1 c.2 (firstOr nxt l) ∧ Chain P (some c.1) l nxt

@[simp] theorem addrs_nil : addrs ([] : List (ι × δ)) = [] := rfl

@[simp] theorem addrs_cons (c : ι × δ) : addrs (c :: l) = c.1 :: addrs l := rfl

@[simp] theorem addrs_append : addrs (l₁ ++ l₂) = addrs l₁ ++ addrs l₂ := List.map_append

@[simp] theorem firstOr_nil : firstOr nxt ([] : List (ι × δ)) = nxt := rfl

@[simp] theorem firstOr_cons (c : ι × δ) : firstOr nxt (c :: l) = some c.1 := rfl

@[simp] theorem lastOr_nil : lastOr prv ([] : List (ι × δ)) = prv := rfl

theorem lastOr_cons (c : ι × δ) : lastOr prv (c :: l) = lastOr (some c.1) l := rfl

theorem firstOr_append : firstOr nxt (l₁ ++ l₂) = firstOr (firstOr nxt l₂) l₁ := by
  cases l₁ <;> rfl

theorem lastOr_append : lastOr prv (l₁ ++ l₂) = lastOr (lastOr prv l₁) l₂ := by
  induction l₁ generalizing prv with
  | nil => rfl
  | cons c l₁ ih => exact ih

theorem lastOr_concat (c : ι × δ) : lastOr prv (l ++ [c]) = some c.1 := lastOr_append

theorem lastOr_ne_nil (h : l ≠ []) (o o' : Option ι) : lastOr o l = lastOr o' l := by
  cases l with
  | nil => exact absurd rfl h
  | cons c l => rfl

theorem chain_append : Chain P prv (l₁ ++ l₂) nxt ↔
    Chain P prv l₁ (firstOr nxt l₂) ∧ Chain P (lastOr prv l₁) l₂ nxt := by
  induction l₁ generalizing prv with
  | nil => simp [Chain, lastOr]
  | cons c l₁ ih => rw [List.cons_append, Chain, Chain, ih, firstOr_append, lastOr, and_assoc]

theorem Chain.congr (h : Chain P prv l nxt)
    (heq : ∀ o p d o', p ∈ addrs l → P o p d o' → Q o p d o') : Chain Q prv l nxt := by
  induction l generalizing prv with
  | nil => trivial
  | cons c l ih =>
    refine ⟨heq _ _ _ _ (by simp) h.1, ih h.2 fun o p d o' hp => heq o p d o' ?_⟩
    exact List.mem_cons_of_mem _ hp

/-- Following the links from the first cell goes through all of them. -/
theorem Chain.linked {next : ι → Option ι} (hnext : ∀ o p d o', P o p d o' → next p = o')
    (h : Chain P prv l none) : Linked next (firstOr none l) (addrs l) := by
  induction l generalizing prv with
  | nil => exact .nil
  | cons c l ih =>
    refine .cons ?_
    rw [hnext _ _ _ _ h.1]
    exact ih h.2

/-- Following the links back from the last cell goes through all of them the other way. -/
theorem Chain.linked_prev {prev : ι → Option ι} (hprev : ∀ o p d o', P o p d o' → prev p = o)
    (h : Chain P none l nxt) : Linked prev (lastOr none l) (addrs l).reverse := by
  induction l using List.reverseRecOn generalizing nxt with
  | nil => exact .nil
  | append_singleton l c ih =>
    obtain ⟨hl, hc⟩ := chain_append.mp h
    rw [lastOr_concat, addrs_append, List.reverse_append]
    refine .cons ?_
    rw [hprev _ _ _ _ hc.1]
    exact ih hl

/-! ## Heaps -/

variable [DecidableEq ι]

/-- A heap with another node at `p`. -/
def put {ν : Type*} (h : ι → Option ν) (p : ι) (n : ν) : ι → Option ν :=
  Function.update h p (some n)

/-- A heap without a node at `p`. -/
def free {ν : Type*} (h : ι → Option ν) (p : ι) : ι → Option ν := Function.update h p none

@[simp] theorem put_self {ν : Type*} (h : ι → Option ν) (p : ι) (n : ν) : put h p n p = some n :=
  Function.update_self p _ h

theorem put_ne {ν : Type*} {h : ι → Option ν} {p q : ι} {n : ν} (hq : q ≠ p) :
    put h p n q = h q := Function.update_of_ne hq _ h

@[simp] theorem put_put {ν : Type*} (h : ι → Option ν) (p : ι) (n n' : ν) :
    put (put h p n) p n' = put h p n' := Function.update_idem _ _ h

@[simp] theorem free_self {ν : Type*} (h : ι → Option ν) (p : ι) : free h p p = none :=
  Function.update_self p _ h

theorem free_ne {ν : Type*} {h : ι → Option ν} {p q : ι} (hq : q ≠ p) : free h p q = h q :=
  Function.update_of_ne hq _ h

/-! ## Doubly linked nodes -/

structure DNode (ι δ : Type*) where
  data : δ
  next : Option ι
  prev : Option ι

/-- The node of a cell between its neighbours. -/
def DCell (h : ι → Option (DNode ι δ)) (prv : Option ι) (p : ι) (d : δ) (nxt : Option ι) : Prop :=
  h p = some ⟨d, nxt, prv⟩

variable {h h' : ι → Option (DNode ι δ)} {v : Option ι}

/-- A write to `next` of a node that need not be there. -/
def writeNext (h : ι → Option (DNode ι δ)) (o v : Option ι) : Option (ι → Option (DNode ι δ)) :=
  match o with
  | none => some h
  | some p => (h p).map fun n => put h p { n with next := v }

/-- A write to `prev`. -/
def writePrev (h : ι → Option (DNode ι δ)) (o v : Option ι) : Option (ι → Option (DNode ι δ)) :=
  match o with
  | none => some h
  | some p => (h p).map fun n => put h p { n with prev := v }

omit [DecidableEq ι] in
theorem Chain.frame (hc : Chain (DCell h) prv l nxt) (heq : ∀ p ∈ addrs l, h' p = h p) :
    Chain (DCell h') prv l nxt :=
  hc.congr fun _ p _ _ hp hcell => (heq p hp).trans hcell

omit [DecidableEq ι] in
theorem Chain.allocated (hc : Chain (DCell h) prv l nxt) (hp : p ∈ addrs l) : h p ≠ none := by
  induction l generalizing prv with
  | nil => cases hp
  | cons c l ih =>
    rcases List.mem_cons.mp hp with rfl | hp
    · rw [show h c.1 = _ from hc.1]
      exact nofun
    · exact ih hc.2 hp

/-- A part is linked to another successor by a write to its last node. -/
theorem Chain.writeNext (hc : Chain (DCell h) none l nxt) (hnd : (addrs l).Nodup)
    (v : Option ι) : ∃ h', CLib.writeNext h (lastOr none l) v = some h' ∧
      Chain (DCell h') none l v ∧ ∀ q ∉ addrs l, h' q = h q := by
  cases l using List.reverseRecOn with
  | nil => exact ⟨h, rfl, trivial, fun _ _ => rfl⟩
  | append_singleton l c =>
    obtain ⟨hl, hlast, -⟩ := chain_append.mp hc
    have hlast' : h c.1 = some ⟨c.2, nxt, lastOr none l⟩ := hlast
    rw [addrs_append, List.nodup_append'] at hnd
    refine ⟨put h c.1 ⟨c.2, v, lastOr none l⟩, ?_, ?_, ?_⟩
    · rw [lastOr_concat, CLib.writeNext, hlast']
      rfl
    · refine chain_append.mpr ⟨hl.frame fun p hp => put_ne ?_, put_self _ _ _, trivial⟩
      rintro rfl
      exact hnd.2.2 hp (by simp)
    · intro q hq
      refine put_ne ?_
      rintro rfl
      simp at hq

/-- A part is linked to another predecessor by a write to its first node. -/
theorem Chain.writePrev (hc : Chain (DCell h) prv l nxt) (hnd : (addrs l).Nodup)
    (v : Option ι) : ∃ h', CLib.writePrev h (firstOr none l) v = some h' ∧
      Chain (DCell h') v l nxt ∧ ∀ q ∉ addrs l, h' q = h q := by
  cases l with
  | nil => exact ⟨h, rfl, trivial, fun _ _ => rfl⟩
  | cons c l =>
    obtain ⟨hfirst, hl⟩ := hc
    have hfirst' : h c.1 = some ⟨c.2, firstOr nxt l, prv⟩ := hfirst
    rw [addrs_cons, List.nodup_cons] at hnd
    refine ⟨put h c.1 ⟨c.2, firstOr nxt l, v⟩, ?_, ⟨put_self _ _ _, ?_⟩, ?_⟩
    · rw [firstOr, CLib.writePrev, hfirst']
      rfl
    · refine hl.frame fun p hp => put_ne ?_
      rintro rfl
      exact hnd.1 hp
    · intro q hq
      refine put_ne ?_
      rintro rfl
      simp at hq

/-- The writes that put a new node between two parts of a list. -/
theorem chain_insert {n : ι} {x : δ} (hc : Chain (DCell h) none (l₁ ++ l₂) none)
    (hnd : (addrs (l₁ ++ l₂)).Nodup) (hn : n ∉ addrs (l₁ ++ l₂)) :
    ∃ h₁ h₂, writeNext (put h n ⟨x, firstOr none l₂, lastOr none l₁⟩) (lastOr none l₁) (some n) =
        some h₁ ∧ writePrev h₁ (firstOr none l₂) (some n) = some h₂ ∧
      Chain (DCell h₂) none (l₁ ++ (n, x) :: l₂) none ∧
      ∀ q ∉ addrs (l₁ ++ (n, x) :: l₂), h₂ q = h q := by
  obtain ⟨hc₁, hc₂⟩ := chain_append.mp hc
  rw [addrs_append, List.nodup_append'] at hnd
  obtain ⟨hnd₁, hnd₂, hdisj⟩ := hnd
  rw [addrs_append, List.mem_append, not_or] at hn
  have hput : ∀ l' : List (ι × δ), n ∉ addrs l' → ∀ p ∈ addrs l',
      put h n ⟨x, firstOr none l₂, lastOr none l₁⟩ p = h p := by
    rintro l' hl' p hp
    refine put_ne ?_
    rintro rfl
    exact hl' hp
  -- the last node of the first part, then the first node of the second one
  obtain ⟨h₁, hw₁, hc₁, hkeep₁⟩ := (hc₁.frame (hput l₁ hn.1)).writeNext hnd₁ (some n)
  have hc₂ : Chain (DCell h₁) (lastOr none l₁) l₂ none := by
    refine (hc₂.frame (hput l₂ hn.2)).frame fun p hp => hkeep₁ p fun hp' => hdisj hp' hp
  obtain ⟨h₂, hw₂, hc₂, hkeep₂⟩ := hc₂.writePrev hnd₂ (some n)
  refine ⟨h₁, h₂, hw₁, hw₂, chain_append.mpr ⟨?_, ?_, hc₂⟩, fun q hq => ?_⟩
  · exact hc₁.frame fun p hp => hkeep₂ p (hdisj hp)
  · rw [DCell, hkeep₂ n hn.2, hkeep₁ n hn.1, put_self]
  · simp only [addrs_append, addrs_cons, List.mem_append, List.mem_cons, not_or] at hq
    rw [hkeep₂ q hq.2.2, hkeep₁ q hq.1, put_ne hq.2.1]

/-- The writes that take a node out of a list. -/
theorem chain_unlink {n : ι} {x : δ} (hc : Chain (DCell h) none (l₁ ++ (n, x) :: l₂) none)
    (hnd : (addrs (l₁ ++ (n, x) :: l₂)).Nodup) :
    ∃ h₁ h₂, writeNext h (lastOr none l₁) (firstOr none l₂) = some h₁ ∧
      writePrev h₁ (firstOr none l₂) (lastOr none l₁) = some h₂ ∧
      Chain (DCell (free h₂ n)) none (l₁ ++ l₂) none ∧
      ∀ q ∉ addrs (l₁ ++ l₂), q ≠ n → free h₂ n q = h q := by
  obtain ⟨hc₁, -, hc₂⟩ := chain_append.mp hc
  rw [addrs_append, addrs_cons, List.nodup_append', List.nodup_cons] at hnd
  obtain ⟨hnd₁, ⟨hn₂, hnd₂⟩, hdisj⟩ := hnd
  have hn₁ : n ∉ addrs l₁ := fun hmem => hdisj hmem List.mem_cons_self
  have hdisj₂ : ∀ p ∈ addrs l₁, p ∉ addrs l₂ := fun p hp hp' =>
    hdisj hp (List.mem_cons_of_mem _ hp')
  obtain ⟨h₁, hw₁, hc₁, hkeep₁⟩ := hc₁.writeNext hnd₁ (firstOr none l₂)
  have hc₂ : Chain (DCell h₁) (some n) l₂ none :=
    hc₂.frame fun p hp => hkeep₁ p fun hp' => hdisj₂ p hp' hp
  obtain ⟨h₂, hw₂, hc₂, hkeep₂⟩ := hc₂.writePrev hnd₂ (lastOr none l₁)
  refine ⟨h₁, h₂, hw₁, hw₂, chain_append.mpr ⟨hc₁.frame fun p hp => ?_, hc₂.frame fun p hp => ?_⟩,
    fun q hq hqn => ?_⟩
  · rw [free_ne (by rintro rfl; exact hn₁ hp), hkeep₂ p (hdisj₂ p hp)]
  · exact free_ne (by rintro rfl; exact hn₂ hp)
  · rw [addrs_append, List.mem_append, not_or] at hq
    rw [free_ne hqn, hkeep₂ q hq.2, hkeep₁ q hq.1]

/-! ## Singly linked nodes -/

structure SNode (ι δ : Type*) where
  data : δ
  next : Option ι

/-- The node of a cell; it does not know what comes before it. -/
def SCell (h : ι → Option (SNode ι δ)) (_ : Option ι) (p : ι) (d : δ) (nxt : Option ι) : Prop :=
  h p = some ⟨d, nxt⟩

variable {g g' : ι → Option (SNode ι δ)} {c : ι × δ}

/-- A write to `next` of a node. -/
def writeLink (h : ι → Option (SNode ι δ)) (p : ι) (v : Option ι) :
    Option (ι → Option (SNode ι δ)) :=
  (h p).map fun n => put h p { n with next := v }

omit [DecidableEq ι] in
theorem Chain.sframe (hc : Chain (SCell g) prv l nxt) (heq : ∀ p ∈ addrs l, g' p = g p) :
    Chain (SCell g') prv l nxt :=
  hc.congr fun _ p _ _ hp hcell => (heq p hp).trans hcell

omit [DecidableEq ι] in
theorem Chain.of_prev (hc : Chain (SCell g) prv l nxt) (prv' : Option ι) :
    Chain (SCell g) prv' l nxt := by
  cases l with
  | nil => trivial
  | cons c l => exact hc

omit [DecidableEq ι] in
theorem Chain.sallocated (hc : Chain (SCell g) prv l nxt) (hp : p ∈ addrs l) : g p ≠ none := by
  induction l generalizing prv with
  | nil => cases hp
  | cons c l ih =>
    rcases List.mem_cons.mp hp with rfl | hp
    · rw [show g c.1 = _ from hc.1]
      exact nofun
    · exact ih hc.2 hp

/-- A part is linked to another successor by a write to its last node. -/
theorem Chain.writeLink (hc : Chain (SCell g) prv (l ++ [c]) nxt)
    (hnd : (addrs (l ++ [c])).Nodup) (v : Option ι) :
    CLib.writeLink g c.1 v = some (put g c.1 ⟨c.2, v⟩) ∧
      Chain (SCell (put g c.1 ⟨c.2, v⟩)) prv (l ++ [c]) v := by
  obtain ⟨hl, hlast, -⟩ := chain_append.mp hc
  have hlast' : g c.1 = some ⟨c.2, nxt⟩ := hlast
  rw [addrs_append, List.nodup_append'] at hnd
  refine ⟨by rw [CLib.writeLink, hlast']; rfl, ?_⟩
  refine chain_append.mpr ⟨hl.sframe fun p hp => put_ne ?_, put_self _ _ _, trivial⟩
  rintro rfl
  exact hnd.2.2 hp (by simp)

end CLib
