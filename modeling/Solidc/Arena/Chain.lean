import Solidc.Arena.Blocks
import Solidc.Lib.Linked
import Solidc.Lib.Transition
import Mathlib.Data.List.Perm.Basic
import Mathlib.Algebra.BigOperators.Group.List.Basic

/-! # The chain of blocks

A new slab is linked behind the current block. If cached blocks follow it, they are cut off.

* `ChainInv` — every slab is on the chain, which ends;
* `Kept` — what this is for: nothing is lost, and `arena_destroy` frees each slab once;
* `kept_of_noSkip` — this holds in every run in which a new slab is only linked behind the
  last block.
-/

namespace Solidc.Alloc

open CLib

/-! ## Calls -/

/-- The calls on an arena, with what `aligned_alloc_xp` returns if they reach it. A checkpoint
is named by its place among those taken so far. -/
inductive Call where
  | allocAlign (size alignment : Nat) (slab : Option Nat)
  | allocUnaligned (size : Nat) (slab : Option Nat)
  | realloc (oldPtr : Option Nat) (oldSize newSize alignment : Nat) (slab : Option Nat)
  | reset
  | save
  | restore (i : Nat)

/-- An arena and the checkpoints taken on it, the latest first. -/
structure Session where
  arena : Arena
  saved : List ArenaCheckpoint

def Session.perform (s : Session) : Call → Option Session
  | .allocAlign size alignment slab =>
    (arenaAllocAlign s.arena slab size alignment).map fun r => { s with arena := r.1 }
  | .allocUnaligned size slab =>
    (arenaAllocUnaligned s.arena slab size).map fun r => { s with arena := r.1 }
  | .realloc oldPtr oldSize newSize alignment slab =>
    (arenaRealloc s.arena slab oldPtr oldSize newSize alignment).map fun r =>
      { s with arena := r.1 }
  | .reset => (arenaReset s.arena).map fun a => { s with arena := a }
  | .save => some { s with saved := arenaSave s.arena :: s.saved }
  | .restore i => (s.saved[i]?).map fun cp => { s with arena := arenaRestore s.arena cp }

/-- What `aligned_alloc_xp` returns to a call. -/
def Call.slab : Call → Option Nat
  | .allocAlign _ _ slab => slab
  | .allocUnaligned _ slab => slab
  | .realloc _ _ _ _ slab => slab
  | _ => none

/-- The checkpoint that a call restores. -/
def Call.restored : Call → Option Nat
  | .restore i => some i
  | _ => none

/-- A slab is not given out twice, and only a checkpoint that was taken is restored. -/
def Proper (s : Session) (c : Call) : Prop :=
  (∀ p ∈ c.slab, ∀ e ∈ s.arena.slabs, e.1 ≠ p) ∧ ∀ i ∈ c.restored, i < s.saved.length

instance (s : Session) (c : Call) : Decidable (Proper s c) := inferInstanceAs (Decidable (_ ∧ _))

/-- An arena as `arena_init` or `arena_create` leaves it, within the address space. -/
inductive Created : Arena → Prop
  | init {pageSize buf size : Nat} : buf + size < wordSize → Created (arenaInit pageSize buf size)
  | create {pageSize staticBuffer reserveSize : Nat} {inUse : Bool} {buf : Option Nat} {a : Arena} :
    staticBuffer + staticBufferSize < wordSize →
    (∀ p ∈ buf, p + alignUp (if reserveSize > 0 then reserveSize else arenaMinBlockSize) pageSize
      < wordSize) →
    arenaCreate pageSize staticBuffer inUse reserveSize buf = some a → Created a

/-- Arenas and the calls on them. -/
def arenaSystem : System Session Call where
  init s := Created s.arena ∧ s.saved = []
  step s c s' := Proper s c ∧ s.perform c = some s'

/-! ## The property -/

/-- Every slab is on the chain from the head, `arena_destroy` frees each of them once and no
other block, and `total_committed` is the size of the first block and of the slabs on the
chain. -/
def Kept (a : Arena) : Prop :=
  ∃ chain first, Linked a.next (some a.head) chain ∧ a.blocks a.head = some first ∧
    (∀ e ∈ a.slabs, .slab e.1 ∈ chain) ∧
    (∃ freed, arenaDestroy a = some freed ∧ freed.Nodup ∧
      ∀ r, .block r ∈ freed ↔ ∃ e ∈ a.slabs, r = .slab e.1) ∧
    a.totalCommitted = (first.end_ - first.base) +
      ((a.slabs.filter fun e => .slab e.1 ∈ chain).map (·.2)).sum

/-- The size and alignment with which a call reaches `_arena_alloc_slow`. -/
def slowAlign (a : Arena) (size alignment : Nat) : Option (Nat × Nat) :=
  if size = 0 ∨ (alignUp a.curr alignment + size) % wordSize ≤ a.end_ then none
  else some (size, alignment)

def slowRequest (a : Arena) : Call → Option (Nat × Nat)
  | .allocAlign size alignment _ => slowAlign a size alignment
  | .allocUnaligned size _ =>
    if size = 0 ∨ (a.curr + size) % wordSize ≤ a.end_ then none else some (size, 1)
  | .realloc oldPtr oldSize newSize alignment _ =>
    match oldPtr with
    | none => slowAlign a newSize alignment
    | some old =>
      if oldSize = 0 then slowAlign a newSize alignment
      else if newSize = 0 ∨ (old + oldSize) % wordSize = a.curr ∧
          (newSize ≤ oldSize ∨ (old + newSize) % wordSize ≤ a.end_) then none
      else slowAlign a newSize alignment
  | _ => none

/-- A request that reaches `_arena_alloc_slow` finds the current block to be the last one, or a
later block with room. -/
def NoSkip (s : Session) (c : Call) : Prop :=
  ∀ size alignment, slowRequest s.arena c = some (size, alignment) →
    s.arena.next s.arena.currentBlock = none ∨
      ∃ hit, findCached s.arena size alignment (s.arena.slabs.length + 1)
        (s.arena.next s.arena.currentBlock) = some (some hit)

/-! ## The invariant -/

/-- The chain from the first block on goes through all slabs, and the current block is on it. -/
structure ChainInv (a : Arena) (chain : List BlockRef) : Prop where
  head : a.head = .first
  linked : Linked a.next (some .first) (.first :: chain)
  present : ∀ r ∈ .first :: chain, (a.blocks r).isSome
  slabs : chain.Perm (a.slabs.map fun e => .slab e.1)
  current : a.currentBlock ∈ .first :: chain
  committed : ∃ first, a.blocks .first = some first ∧
    a.totalCommitted = (first.end_ - first.base) + (a.slabs.map (·.2)).sum

variable {a a' : Arena} {chain l : List BlockRef} {o : Option BlockRef} {size alignment fuel : Nat}
  {slab r : Option Nat} {s s' : Session} {c : Call}

/-- A move of the cursor leaves the chain as it is. -/
theorem ChainInv.move (h : ChainInv a chain) {curr end_ : Nat} {cb : BlockRef}
    (hcb : cb ∈ .first :: chain) :
    ChainInv { a with curr := curr, end_ := end_, currentBlock := cb } chain :=
  ⟨h.head, h.linked, h.present, h.slabs, hcb, h.committed⟩

/-- The blocks after the current one. -/
theorem ChainInv.after (h : ChainInv a chain) :
    ∃ l₁ l₂, .first :: chain = l₁ ++ a.currentBlock :: l₂ ∧
    Linked a.next (a.next a.currentBlock) l₂ ∧ l₂.length ≤ a.slabs.length ∧
    ∀ r ∈ l₂, r ∈ .first :: chain := by
  obtain ⟨l₁, l₂, heq⟩ := List.append_of_mem h.current
  have hlen := h.slabs.length_eq
  rw [List.length_map] at hlen
  have hsum := congrArg List.length heq
  simp only [List.length_cons, List.length_append] at hsum
  refine ⟨l₁, l₂, heq, (heq ▸ h.linked).tail, by omega, fun r hr => ?_⟩
  rw [heq]
  exact List.mem_append_right _ (List.mem_cons_of_mem _ hr)

theorem next_eq {b : ArenaBlock} {r : BlockRef} (h : a.blocks r = some b) : a.next r = b.next := by
  rw [Arena.next, h, Option.bind_some]

/-! ## Walks -/

/-- The search visits blocks of the chain only. -/
theorem findCached_some {hit : BlockRef × ArenaBlock × Nat} (hl : Linked a.next o l)
    (h : findCached a size alignment fuel o = some (some hit)) :
    hit.1 ∈ l ∧ a.blocks hit.1 = some hit.2.1 ∧ hit.2.2 = alignUp hit.2.1.base alignment ∧
      (hit.2.2 + size) % wordSize ≤ hit.2.1.end_ := by
  induction fuel generalizing o l with
  | zero =>
    cases o with
    | none => cases h
    | some r => cases h
  | succ fuel ih =>
    cases o with
    | none => cases h
    | some r =>
      cases hl with
      | cons hl =>
        unfold findCached at h
        split at h
        · cases h
        · next b hb =>
          split at h
          · next hfit =>
            cases h
            exact ⟨List.mem_cons_self, hb, rfl, hfit⟩
          · rw [next_eq hb] at hl
            obtain ⟨hmem, hrest⟩ := ih hl h
            exact ⟨List.mem_cons_of_mem r hmem, hrest⟩

/-- The search ends. -/
theorem findCached_ne_none (hl : Linked a.next o l) (hp : ∀ r ∈ l, (a.blocks r).isSome)
    (hfuel : l.length ≤ fuel) : findCached a size alignment fuel o ≠ none := by
  induction fuel generalizing o l with
  | zero =>
    cases hl with
    | nil => exact nofun
    | cons _ => simp at hfuel
  | succ fuel ih =>
    cases hl with
    | nil => exact nofun
    | @cons r l hl =>
      obtain ⟨b, hb⟩ := Option.isSome_iff_exists.mp (hp r List.mem_cons_self)
      rw [next_eq hb] at hl
      rw [findCached, hb]
      simp only
      split
      · exact nofun
      · exact ih hl (fun r hr => hp r (List.mem_cons_of_mem _ hr)) (by simpa using hfuel)

/-- `arena_destroy` walks the same chain. -/
theorem freeChain_eq (hl : Linked a.next o l) (hp : ∀ r ∈ l, (a.blocks r).isSome)
    (hfuel : l.length ≤ fuel) : freeChain a fuel o = some l := by
  induction fuel generalizing o l with
  | zero =>
    cases hl with
    | nil => rfl
    | cons _ => simp at hfuel
  | succ fuel ih =>
    cases hl with
    | nil => rfl
    | @cons r l hl =>
      obtain ⟨b, hb⟩ := Option.isSome_iff_exists.mp (hp r List.mem_cons_self)
      rw [next_eq hb] at hl
      rw [freeChain, hb]
      simp only
      rw [ih hl (fun r hr => hp r (List.mem_cons_of_mem _ hr)) (by simpa using hfuel)]
      rfl

/-- The invariant gives the property. -/
theorem ChainInv.kept (h : ChainInv a chain) : Kept a := by
  obtain ⟨first, hfirst, hcommitted⟩ := h.committed
  have hmem : ∀ e ∈ a.slabs, (.slab e.1 : BlockRef) ∈ BlockRef.first :: chain := fun e he =>
    List.mem_cons_of_mem _ (h.slabs.mem_iff.mpr (List.mem_map_of_mem he))
  have hnodup : chain.Nodup := (List.nodup_cons.mp h.linked.nodup).2
  have hlen := h.slabs.length_eq
  rw [List.length_map] at hlen
  have hwalk : freeChain a (a.slabs.length + 1) first.next = some chain := by
    refine freeChain_eq ?_ (fun r hr => h.present r (List.mem_cons_of_mem _ hr)) (by omega)
    rw [← next_eq hfirst]
    have hlinked : Linked a.next _ ([] ++ BlockRef.first :: chain) := h.linked
    exact hlinked.tail
  refine ⟨.first :: chain, first, h.head ▸ h.linked, h.head ▸ hfirst, hmem,
    ⟨_, by rw [arenaDestroy, h.head, hfirst]; simp only; rw [hwalk], ?_, fun r => ?_⟩, ?_⟩
  · have hblocks : (chain.map Freed.block).Nodup := hnodup.map fun _ _ heq => by cases heq; rfl
    split <;> split <;> simp [List.nodup_append, hblocks]
  · have hiff : Freed.block r ∈ chain.map Freed.block ↔ r ∈ chain := by simp
    have hslab : r ∈ chain ↔ ∃ e ∈ a.slabs, r = .slab e.1 := by
      rw [h.slabs.mem_iff, List.mem_map]
      exact exists_congr fun e => and_congr_right fun _ => eq_comm
    rw [← hslab, ← hiff]
    split <;> split <;> simp
  · rw [hcommitted]
    congr 2
    exact congrArg _ (List.filter_eq_self.mpr fun e he => decide_eq_true (hmem e he)).symm

/-! ## Steps -/

/-- What `_arena_alloc_slow` can do. -/
theorem arenaAllocSlow_cases (h : arenaAllocSlow a slab size alignment = some (a', r)) :
    ∃ current, a.blocks a.currentBlock = some current ∧
      ((∃ hit, findCached a size alignment (a.slabs.length + 1) current.next = some (some hit) ∧
          a' = { a with
            currentBlock := hit.1, curr := (hit.2.2 + size) % wordSize, end_ := hit.2.1.end_ } ∧
          r = some hit.2.2) ∨
        (findCached a size alignment (a.slabs.length + 1) current.next = some none ∧
          ((slab = none ∧ a' = a ∧ r = none) ∨
          ∃ ptr slabSize aligned, slab = some ptr ∧
            slabSize = nextSize a (current.end_ - current.base) size alignment ∧
            aligned = alignUp ((ptr + sizeofArenaBlock) % wordSize) alignment ∧
            a' = { a with
              blocks := linkSlab a current ptr slabSize
              slabs := (ptr, slabSize) :: a.slabs
              currentBlock := .slab ptr
              totalCommitted := a.totalCommitted + slabSize
              curr := (aligned + size) % wordSize
              end_ := (ptr + slabSize) % wordSize } ∧
            r = some aligned))) := by
  unfold arenaAllocSlow at h
  split at h
  · cases h
  · next current hcurrent =>
    refine ⟨current, hcurrent, ?_⟩
    split at h
    · cases h
    · next r' b aligned hfound =>
      cases h
      exact .inl ⟨_, hfound, rfl, rfl⟩
    · next hfound =>
      refine .inr ⟨hfound, ?_⟩
      cases slab with
      | none =>
        cases h
        exact .inl ⟨rfl, rfl, rfl⟩
      | some ptr =>
        cases h
        exact .inr ⟨ptr, _, _, rfl, rfl, rfl, rfl, rfl⟩

/-- The chain after a new slab has been linked behind the current block. -/
theorem linked_linkSlab {current : ArenaBlock} {ptr slabSize : Nat} {l₁ l₂ : List BlockRef}
    (hlinked : Linked a.next (some .first) (l₁ ++ a.currentBlock :: l₂))
    (hpresent : ∀ r ∈ l₁, (a.blocks r).isSome) (hnew : .slab ptr ∉ l₁)
    (hne : a.currentBlock ≠ .slab ptr)
    (ha' : a'.blocks = linkSlab a current ptr slabSize) :
    Linked a'.next (some .first) (l₁ ++ [a.currentBlock, .slab ptr]) ∧
      ∀ r ∈ l₁ ++ [a.currentBlock, .slab ptr], (a'.blocks r).isSome := by
  have hcur : a'.blocks a.currentBlock = some { current with next := some (.slab ptr) } := by
    simp [ha', linkSlab, hne]
  have hslab : ∃ b, a'.blocks (.slab ptr) = some b ∧ b.next = none := by
    simp [ha', linkSlab]
  obtain ⟨b, hb, hbnext⟩ := hslab
  have hold : ∀ r ∈ l₁, a'.blocks r = a.blocks r := by
    intro r hr
    have hcb : r ≠ a.currentBlock := by
      rintro rfl
      exact (List.nodup_append.mp hlinked.nodup).2.2 _ hr _ List.mem_cons_self rfl
    have hptr : r ≠ .slab ptr := fun h => hnew (h ▸ hr)
    simp [ha', linkSlab, hcb, hptr]
  refine ⟨hlinked.relink (next_eq hcur) ((next_eq hb).trans hbnext) fun r hr => ?_, ?_⟩
  · rw [Arena.next, Arena.next, hold r hr]
  · intro r hr
    rcases List.mem_append.mp hr with hr | hr
    · rw [hold r hr]
      exact hpresent r hr
    · rcases List.mem_cons.mp hr with rfl | hr
      · rw [hcur]
        rfl
      · rw [List.mem_singleton.mp hr, hb]
        rfl

/-- A slab linked behind the last block. -/
theorem ChainInv.link (h : ChainInv a chain) {current : ArenaBlock} {ptr slabSize curr end_ : Nat}
    (hcurrent : a.blocks a.currentBlock = some current) (hlast : current.next = none)
    (hfresh : ∀ e ∈ a.slabs, e.1 ≠ ptr) :
    ChainInv { a with
      blocks := linkSlab a current ptr slabSize
      slabs := (ptr, slabSize) :: a.slabs
      currentBlock := .slab ptr
      totalCommitted := a.totalCommitted + slabSize
      curr := curr
      end_ := end_ } (chain ++ [.slab ptr]) := by
  obtain ⟨l₁, l₂, heq, hafter, -, -⟩ := h.after
  -- nothing comes after the current block
  rw [next_eq hcurrent, hlast] at hafter
  cases hafter
  have hnew : BlockRef.slab ptr ∉ BlockRef.first :: chain := by
    intro hmem
    rcases List.mem_cons.mp hmem with hmem | hmem
    · cases hmem
    · obtain ⟨e, he, hptr⟩ := List.mem_map.mp (h.slabs.mem_iff.mp hmem)
      cases hptr
      exact hfresh e he rfl
  have hne : a.currentBlock ≠ .slab ptr := fun hcb => hnew (hcb ▸ h.current)
  have hl₁ : ∀ r ∈ l₁, r ∈ BlockRef.first :: chain := fun r hr => heq ▸ List.mem_append_left _ hr
  have hchain : BlockRef.first :: (chain ++ [.slab ptr]) = l₁ ++ [a.currentBlock, .slab ptr] := by
    rw [← List.cons_append, heq, List.append_assoc]
    rfl
  have hblocks : Arena.blocks { a with
      blocks := linkSlab a current ptr slabSize
      slabs := (ptr, slabSize) :: a.slabs
      currentBlock := .slab ptr
      totalCommitted := a.totalCommitted + slabSize
      curr := curr
      end_ := end_ } = linkSlab a current ptr slabSize := rfl
  obtain ⟨hlinked, hpresent⟩ := linked_linkSlab (heq ▸ h.linked)
    (fun r hr => h.present r (hl₁ r hr)) (fun hr => hnew (hl₁ _ hr)) hne hblocks
  refine ⟨h.head, hchain ▸ hlinked, hchain ▸ hpresent, ?_, ?_, ?_⟩
  · rw [List.map_cons]
    exact (List.perm_append_singleton _ _).trans (h.slabs.cons _)
  · simp
  · obtain ⟨first, hfirst, hcommitted⟩ := h.committed
    simp only [List.map_cons, List.sum_cons, hcommitted]
    by_cases hcb : BlockRef.first = a.currentBlock
    · -- the header of the first block gets its link
      rw [← hcb, hfirst] at hcurrent
      cases hcurrent
      refine ⟨{ current with next := some (.slab ptr) }, by simp [linkSlab, hcb, hne], ?_⟩
      simp only
      omega
    · refine ⟨first, by simp [linkSlab, hcb, hfirst], ?_⟩
      omega

/-- `_arena_alloc_slow` keeps the invariant if it skips no block for a new slab. -/
theorem ChainInv.slow (h : ChainInv a chain) (hfresh : ∀ p ∈ slab, ∀ e ∈ a.slabs, e.1 ≠ p)
    (hskip : a.next a.currentBlock = none ∨ ∃ hit, findCached a size alignment
      (a.slabs.length + 1) (a.next a.currentBlock) = some (some hit))
    (hstep : arenaAllocSlow a slab size alignment = some (a', r)) :
    ∃ chain', ChainInv a' chain' ∧ chain ⊆ chain' := by
  obtain ⟨current, hcurrent, ⟨hit, hfound, rfl, -⟩ | ⟨hfound, ⟨-, rfl, -⟩ |
    ⟨ptr, slabSize, aligned, rfl, -, -, rfl, -⟩⟩⟩ := arenaAllocSlow_cases hstep
  · -- a cached block
    obtain ⟨l₁, l₂, -, hafter, -, hsub⟩ := h.after
    rw [next_eq hcurrent] at hafter
    exact ⟨chain, h.move (hsub _ (findCached_some hafter hfound).1), List.Subset.refl _⟩
  · exact ⟨chain, h, List.Subset.refl _⟩
  · rw [next_eq hcurrent] at hskip
    have hlast : current.next = none := by
      refine hskip.resolve_right ?_
      rintro ⟨hit, hhit⟩
      rw [hfound] at hhit
      cases hhit
    exact ⟨_, h.link hcurrent hlast (hfresh ptr rfl), List.subset_append_left _ _⟩

theorem ChainInv.slow_ne_none (h : ChainInv a chain) :
    arenaAllocSlow a slab size alignment ≠ none := by
  obtain ⟨current, hcurrent⟩ := Option.isSome_iff_exists.mp (h.present _ h.current)
  obtain ⟨l₁, l₂, -, hafter, hlen, hsub⟩ := h.after
  rw [next_eq hcurrent] at hafter
  have hfound : findCached a size alignment (a.slabs.length + 1) current.next ≠ none :=
    findCached_ne_none hafter (fun r hr => h.present r (hsub r hr)) (by omega)
  unfold arenaAllocSlow
  rw [hcurrent]
  simp only
  split
  · next hnone => exact absurd hnone hfound
  · exact nofun
  · cases slab with
    | none => exact nofun
    | some p => exact nofun

/-- A call moves the cursor within the current block, or it is a request to
`_arena_alloc_slow`. -/
theorem arenaAllocAlign_cases (h : arenaAllocAlign a slab size alignment = some (a', r)) :
    (∃ curr, a' = { a with curr := curr }) ∨
      slowAlign a size alignment = some (size, alignment) ∧
        arenaAllocSlow a slab size alignment = some (a', r) := by
  unfold arenaAllocAlign at h
  unfold slowAlign
  split at h
  · cases h
    exact .inl ⟨a.curr, rfl⟩
  · next hsize =>
    split at h
    · cases h
      exact .inl ⟨_, rfl⟩
    · next hfit =>
      rw [if_neg (not_or.mpr ⟨hsize, hfit⟩)]
      exact .inr ⟨rfl, h⟩

theorem ChainInv.allocAlign (h : ChainInv a chain) (hfresh : ∀ p ∈ slab, ∀ e ∈ a.slabs, e.1 ≠ p)
    (hskip : slowAlign a size alignment = some (size, alignment) →
      a.next a.currentBlock = none ∨ ∃ hit, findCached a size alignment
        (a.slabs.length + 1) (a.next a.currentBlock) = some (some hit))
    (hstep : arenaAllocAlign a slab size alignment = some (a', r)) :
    ∃ chain', ChainInv a' chain' ∧ chain ⊆ chain' := by
  rcases arenaAllocAlign_cases hstep with ⟨curr, rfl⟩ | ⟨hslow, hstep⟩
  · exact ⟨chain, h.move h.current, List.Subset.refl _⟩
  · exact h.slow hfresh (hskip hslow) hstep

theorem ChainInv.allocAlign_ne_none (h : ChainInv a chain) :
    arenaAllocAlign a slab size alignment ≠ none := by
  unfold arenaAllocAlign
  split
  · exact nofun
  · split
    · exact nofun
    · exact h.slow_ne_none

/-! ## Runs -/

/-- The invariant of a session: the checkpoints are on the chain, too. -/
def SessionInv (s : Session) : Prop :=
  ∃ chain, ChainInv s.arena chain ∧ ∀ cp ∈ s.saved, cp.savedBlock ∈ .first :: chain

theorem SessionInv.of_alloc (h : ∃ chain', ChainInv a' chain' ∧ chain ⊆ chain')
    {saved : List ArenaCheckpoint} (hsaved : ∀ cp ∈ saved, cp.savedBlock ∈ .first :: chain) :
    SessionInv ⟨a', saved⟩ := by
  obtain ⟨chain', hinv, hsub⟩ := h
  exact ⟨chain', hinv, fun cp hcp => List.cons_subset_cons _ hsub (hsaved cp hcp)⟩

theorem chainInv_created (h : Created a) : ChainInv a [] := by
  cases h with
  | @init pageSize buf size hfit =>
    refine ⟨rfl, .cons .nil, ?_, .refl [], List.mem_cons_self, _, rfl, ?_⟩
    · intro r hr
      obtain rfl := List.mem_singleton.mp hr
      rfl
    · simp only [arenaInit, Nat.mod_eq_of_lt hfit]
      simp
  | @create pageSize staticBuffer reserveSize inUse buf a hstatic hbuf hcreate =>
    unfold arenaCreate at hcreate
    split at hcreate
    · cases hcreate
      refine ⟨rfl, .cons .nil, ?_, .refl [], List.mem_cons_self, _, rfl, ?_⟩
      · intro r hr
        obtain rfl := List.mem_singleton.mp hr
        rfl
      · simp only [arenaInit, Nat.mod_eq_of_lt hstatic]
        simp
    · cases buf with
      | none => cases hcreate
      | some p =>
        cases hcreate
        refine ⟨rfl, .cons .nil, ?_, .refl [], List.mem_cons_self, _, rfl, ?_⟩
        · intro r hr
          obtain rfl := List.mem_singleton.mp hr
          rfl
        · simp only [arenaInit, Nat.mod_eq_of_lt (hbuf p rfl)]
          simp

/-- One call keeps the invariant. -/
theorem SessionInv.perform (h : SessionInv s) (hproper : Proper s c) (hskip : NoSkip s c)
    (hstep : s.perform c = some s') : SessionInv s' := by
  obtain ⟨chain, hinv, hsaved⟩ := h
  cases c with
  | allocAlign size alignment slab =>
    obtain ⟨⟨a', r⟩, halloc, rfl⟩ := Option.map_eq_some_iff.mp hstep
    exact .of_alloc (hinv.allocAlign hproper.1 (hskip size alignment) halloc) hsaved
  | allocUnaligned size slab =>
    obtain ⟨⟨a', r⟩, halloc, rfl⟩ := Option.map_eq_some_iff.mp hstep
    unfold arenaAllocUnaligned at halloc
    split at halloc
    · cases halloc
      exact ⟨chain, hinv, hsaved⟩
    · next hsize =>
      split at halloc
      · cases halloc
        exact ⟨chain, hinv.move hinv.current, hsaved⟩
      · next hfit =>
        have hslow := hskip size 1 (if_neg (not_or.mpr ⟨hsize, hfit⟩))
        exact .of_alloc (hinv.slow hproper.1 hslow halloc) hsaved
  | realloc oldPtr oldSize newSize alignment slab =>
    obtain ⟨⟨a', r⟩, halloc, rfl⟩ := Option.map_eq_some_iff.mp hstep
    -- only a block that cannot grow where it stands is allocated anew
    have hskip' := hskip newSize alignment
    unfold arenaRealloc at halloc
    unfold slowRequest at hskip'
    cases oldPtr with
    | none => exact .of_alloc (hinv.allocAlign hproper.1 hskip' halloc) hsaved
    | some old =>
      simp only at halloc hskip'
      split at halloc
      · next hold =>
        rw [if_pos hold] at hskip'
        exact .of_alloc (hinv.allocAlign hproper.1 hskip' halloc) hsaved
      · next hold =>
        rw [if_neg hold] at hskip'
        split at halloc
        · split at halloc
          · cases halloc
            exact ⟨chain, hinv.move hinv.current, hsaved⟩
          · cases halloc
            exact ⟨chain, hinv, hsaved⟩
        · next hnew =>
          split at halloc
          · cases halloc
            exact ⟨chain, hinv.move hinv.current, hsaved⟩
          · next hplace =>
            rw [if_neg (not_or.mpr ⟨hnew, hplace⟩)] at hskip'
            exact .of_alloc (hinv.allocAlign hproper.1 hskip' halloc) hsaved
  | reset =>
    obtain ⟨a', hreset, rfl⟩ := Option.map_eq_some_iff.mp hstep
    unfold arenaReset at hreset
    split at hreset
    · cases hreset
    · cases hreset
      exact ⟨chain, hinv.move (hinv.head ▸ List.mem_cons_self), hsaved⟩
  | save =>
    cases hstep
    exact ⟨chain, hinv, List.forall_mem_cons.mpr ⟨hinv.current, hsaved⟩⟩
  | restore i =>
    obtain ⟨cp, hcp, rfl⟩ := Option.map_eq_some_iff.mp hstep
    exact ⟨chain, hinv.move (hsaved cp (List.mem_of_getElem? hcp)), hsaved⟩

/-- Every call returns. -/
theorem SessionInv.perform_ne_none (h : SessionInv s) (hproper : Proper s c) :
    s.perform c ≠ none := by
  obtain ⟨chain, hinv, hsaved⟩ := h
  cases c with
  | allocAlign size alignment slab =>
    simpa [Session.perform] using hinv.allocAlign_ne_none
  | allocUnaligned size slab =>
    have hslow : arenaAllocSlow s.arena slab size 1 ≠ none := hinv.slow_ne_none
    simp only [Session.perform, arenaAllocUnaligned]
    split_ifs <;> simp [hslow]
  | realloc oldPtr oldSize newSize alignment slab =>
    have halloc : arenaAllocAlign s.arena slab newSize alignment ≠ none :=
      hinv.allocAlign_ne_none
    cases oldPtr with
    | none => simpa [Session.perform, arenaRealloc] using halloc
    | some old =>
      simp only [Session.perform, arenaRealloc]
      split_ifs <;> simp [halloc]
  | reset =>
    obtain ⟨first, hfirst⟩ := Option.isSome_iff_exists.mp (hinv.present .first List.mem_cons_self)
    simp [Session.perform, arenaReset, hinv.head, hfirst]
  | save => exact nofun
  | restore i =>
    have hi := hproper.2 i rfl
    simp [Session.perform, hi]

/-- In every run that links new slabs behind the last block only, no block is ever lost: all
slabs are on the chain, `arena_destroy` frees each once, `total_committed` is exact, and every
further call returns. -/
theorem kept_of_noSkip (h : Reach arenaSystem NoSkip s) :
    Kept s.arena ∧ ∀ c, Proper s c → s.perform c ≠ none := by
  have hinv : SessionInv s := by
    refine Reach.invariant SessionInv ?_ ?_ h
    · rintro s ⟨hcreated, hsaved⟩
      exact ⟨[], chainInv_created hcreated, by simp [hsaved]⟩
    · rintro s c s' hinv hskip ⟨hproper, hstep⟩
      exact hinv.perform hproper hskip hstep
  refine ⟨?_, fun c hproper => hinv.perform_ne_none hproper⟩
  obtain ⟨chain, hchain, -⟩ := hinv
  exact hchain.kept

/-- A proper call. -/
def Session.call (s : Session) (c : Call) : Option Session :=
  if Proper s c then s.perform c else none

theorem Session.call_step (h : s.call c = some s') : arenaSystem.step s c s' := by
  unfold Session.call at h
  split at h
  · next hproper => exact ⟨hproper, h⟩
  · cases h

/-- A buffer of 64 bytes. -/
def smallBuffer : Session := ⟨arenaInit 4096 0x10000 64, []⟩

theorem reach_smallBuffer (cond : Session → Call → Prop) : Reach arenaSystem cond smallBuffer :=
  .init ⟨.init (by decide), rfl⟩

theorem kept_oneSlab : ∃ s, smallBuffer.call (.allocAlign 100 16 (some 0x100000)) = some s ∧
    s.arena.slabs = [(0x100000, 65536)] ∧ Kept s.arena := by
  have hrun : (smallBuffer.call (.allocAlign 100 16 (some 0x100000))).map (·.arena.slabs) =
      some [(0x100000, 65536)] := by decide +kernel
  obtain ⟨s, hs, hslabs⟩ := Option.map_eq_some_iff.mp hrun
  have hlast : NoSkip smallBuffer (.allocAlign 100 16 (some 0x100000)) := fun _ _ _ => .inl rfl
  exact ⟨s, hs, hslabs,
    (kept_of_noSkip ((reach_smallBuffer NoSkip).step hlast (Session.call_step hs))).1⟩

/-- A slab, a reset, and a request for which the slab is too small. -/
def cutOff : List Call :=
  [.allocAlign 100 16 (some 0x100000), .reset, .allocAlign 1000000 16 (some 0x200000)]

/-- The new slab cuts the cached one off. -/
theorem cutOff_not_kept : ∃ s, Reach arenaSystem AnyStep s ∧ ¬ Kept s.arena := by
  have hrun : (cutOff.foldlM Session.call smallBuffer).map (fun s =>
      (s.arena.slabs.map (·.1), s.arena.head, s.arena.next .first,
        s.arena.next (.slab 0x200000))) =
      some ([0x200000, 0x100000], .first, some (.slab 0x200000), none) := by decide +kernel
  obtain ⟨s, hs, hfacts⟩ := Option.map_eq_some_iff.mp hrun
  simp only [Prod.mk.injEq] at hfacts
  obtain ⟨hslabs, hhead, hfirst, hlast⟩ := hfacts
  refine ⟨s, Reach.run (fun _ _ _ h => ⟨trivial, Session.call_step h⟩)
    (reach_smallBuffer AnyStep) hs, ?_⟩
  rintro ⟨chain, first, hlinked, -, hmem, -⟩
  rw [hhead] at hlinked
  have hchain : chain = [.first, .slab 0x200000] := by
    refine hlinked.unique (.cons ?_)
    rw [hfirst]
    refine .cons ?_
    rw [hlast]
    exact .nil
  obtain ⟨e, he, hptr⟩ := List.mem_map.mp (hslabs ▸ List.mem_cons_of_mem _ List.mem_cons_self :
    0x100000 ∈ s.arena.slabs.map (·.1))
  have hlost := hmem e he
  rw [hptr, hchain] at hlost
  revert hlost
  decide

end Solidc.Alloc
