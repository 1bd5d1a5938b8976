import Solidc.Arena.Chain

/-! # Live allocations are disjoint

The arena is run together with a record of the allocations that are live.

* `Ledger` — an arena, its live allocations and the checkpoints that may still be restored;
* `Before` — an allocation lies before a position of the cursor, in an earlier block or lower
  in the same one;
* `Sound` — every live allocation is before the cursor, and before each checkpoint that it is
  older than;
* `live_disjoint` — live allocations are aligned, within one block each, and disjoint.
-/

namespace Solidc.Alloc

open CLib

/-- An allocation, with the time at which it was made. -/
structure Chunk where
  ptr : Nat
  size : Nat
  alignment : Nat
  born : Nat

/-- An arena with its live allocations, and the checkpoints that may be restored with the time
at which they were taken, the latest first. -/
structure Ledger where
  arena : Arena
  live : List Chunk
  stack : List (ArenaCheckpoint × Nat)
  clock : Nat

/-- The calls. A live allocation is named by its place among the live ones. -/
inductive Op where
  | allocAlign (size alignment : Nat) (slab : Option Nat)
  | alloc (size : Nat) (slab : Option Nat)
  | allocUnaligned (size : Nat) (slab : Option Nat)
  | reallocNull (newSize alignment : Nat) (slab : Option Nat)
  | realloc (i newSize : Nat) (slab : Option Nat)
  | reset
  | save
  | restore (i : Nat)

/-- An allocation that returned. -/
def Ledger.add (s : Ledger) (size alignment : Nat) : Arena × Option Nat → Ledger
  | (a, none) => { s with arena := a }
  | (a, some p) =>
    { s with arena := a, live := ⟨p, size, alignment, s.clock⟩ :: s.live, clock := s.clock + 1 }

/-- A call of `arena_realloc` on the live allocation `old`, which is discarded unless the call
fails. -/
def Ledger.replace (s : Ledger) (i newSize : Nat) (old : Chunk) : Arena × Option Nat → Ledger
  | (a, none) => { s with arena := a, live := if newSize = 0 then s.live.eraseIdx i else s.live }
  | (a, some p) =>
    { s with
      arena := a
      live := ⟨p, newSize, old.alignment, s.clock⟩ :: s.live.eraseIdx i
      clock := s.clock + 1 }

/-- `arena_restore` discards what was allocated after the checkpoint, and the later
checkpoints. -/
def Ledger.perform (s : Ledger) : Op → Option Ledger
  | .allocAlign size alignment slab =>
    (arenaAllocAlign s.arena slab size alignment).map (s.add size alignment)
  | .alloc size slab => (arenaAlloc s.arena slab size).map (s.add size arenaDefaultAlign)
  | .allocUnaligned size slab => (arenaAllocUnaligned s.arena slab size).map (s.add size 1)
  | .reallocNull newSize alignment slab =>
    (arenaRealloc s.arena slab none 0 newSize alignment).map (s.add newSize alignment)
  | .realloc i newSize slab =>
    match s.live[i]? with
    | none => none
    | some old =>
      (arenaRealloc s.arena slab (some old.ptr) old.size newSize old.alignment).map
        (s.replace i newSize old)
  | .reset => (arenaReset s.arena).map fun a => { s with arena := a, live := [], stack := [] }
  | .save => some { s with stack := (arenaSave s.arena, s.clock) :: s.stack }
  | .restore i =>
    match s.stack[i]? with
    | none => none
    | some (cp, time) => some { s with
        arena := arenaRestore s.arena cp
        live := s.live.filter (·.born < time)
        stack := s.stack.drop i }

/-! ## Assumptions on a call -/

/-- The usable region of a block. -/
def Arena.region (a : Arena) (r : BlockRef) : Option (Nat × Nat) :=
  (a.blocks r).map fun b => (b.base, b.end_)

/-- Where the memory of a block starts: in front of the header, for a slab. -/
def BlockRef.start (r : BlockRef) (base : Nat) : Nat :=
  match r with
  | .first => base
  | .slab addr => addr

/-- A slab of `n` bytes that overlaps no block. -/
def FreshSlab (a : Arena) (p n : Nat) : Prop :=
  64 ∣ p ∧ p + n < wordSize ∧
    ∀ r base end_, a.region r = some (base, end_) → end_ ≤ p ∨ p + n ≤ r.start base

/-- The slab that a request would be given. -/
def slabFor (a : Arena) (p size alignment : Nat) : Prop :=
  ∀ current, a.blocks a.currentBlock = some current →
    FreshSlab a p (nextSize a (current.end_ - current.base) size alignment)

/-- A power of two. -/
def PowerOfTwo (alignment : Nat) : Prop := ∃ k < 64, alignment = 2 ^ k

/-- The address computations of a request do not wrap: those at the cursor, and if the current
block is full those at the later blocks and for the size of a new one. -/
def NoWrap (a : Arena) (size alignment : Nat) : Prop :=
  (a.curr + alignment ≤ wordSize ∧ alignUp a.curr alignment + size < wordSize) ∧
  (a.end_ < alignUp a.curr alignment + size →
    (∀ l r base end_, Linked a.next (a.next a.currentBlock) l → r ∈ l →
      a.region r = some (base, end_) →
      base + alignment ≤ wordSize ∧ alignUp base alignment + size < wordSize) ∧
    sizeofArenaBlock + alignment + size + a.pageSize ≤ wordSize + 1)

/-- A request as the documentation allows it. -/
def Request (a : Arena) (size alignment : Nat) (slab : Option Nat) : Prop :=
  size ≠ 0 → PowerOfTwo alignment ∧ NoWrap a size alignment ∧ ∀ p ∈ slab, slabFor a p size alignment

def Ledger.Proper (s : Ledger) : Op → Prop
  | .allocAlign size alignment slab => Request s.arena size alignment slab
  | .alloc size slab => Request s.arena size arenaDefaultAlign slab
  | .allocUnaligned size slab => Request s.arena size 1 slab
  | .reallocNull newSize alignment slab => Request s.arena newSize alignment slab
  | .realloc i newSize slab => ∃ old, s.live[i]? = some old ∧ old.ptr + newSize < wordSize ∧
      (old.ptr + old.size = s.arena.curr →
        s.arena.end_ < old.ptr + newSize → Request s.arena newSize old.alignment slab) ∧
      (old.ptr + old.size ≠ s.arena.curr → Request s.arena newSize old.alignment slab)
  | .restore i => i < s.stack.length
  | _ => True

/-- Arenas with their live allocations; the page size is a power of two. -/
def ledgerSystem : System Ledger Op where
  init s := Created s.arena ∧ PowerOfTwo s.arena.pageSize ∧ s.live = [] ∧ s.stack = []
  step s op s' := s.Proper op ∧ s.perform op = some s'

/-- Live allocations are pairwise disjoint, aligned, and within the usable region of a block. -/
def Disjointed (s : Ledger) : Prop :=
  s.live.Pairwise (fun x y => x.ptr + x.size ≤ y.ptr ∨ y.ptr + y.size ≤ x.ptr) ∧
    ∀ x ∈ s.live, x.alignment ∣ x.ptr ∧
      ∃ r base end_, s.arena.region r = some (base, end_) ∧ base ≤ x.ptr ∧ x.ptr + x.size ≤ end_

/-! ## The invariant -/

/-- The blocks lie apart, and within the address space. -/
structure Layout (a : Arena) : Prop where
  ordered : ∀ r base end_, a.region r = some (base, end_) → base ≤ end_ ∧ end_ < wordSize
  slab : ∀ p base end_, a.region (.slab p) = some (base, end_) → base = p + sizeofArenaBlock
  apart : ∀ r base end_ r' base' end_', a.region r = some (base, end_) →
    a.region r' = some (base', end_') → r ≠ r' → end_ ≤ r'.start base' ∨ end_' ≤ r.start base

/-- The chunk is in a block before the `k`-th one, or in this one and below `lim`. -/
def Before (a : Arena) (chain : List BlockRef) (k lim : Nat) (x : Chunk) : Prop :=
  ∃ i r base end_, chain[i]? = some r ∧ a.region r = some (base, end_) ∧ base ≤ x.ptr ∧
    x.ptr + x.size ≤ end_ ∧ (i < k ∨ i = k ∧ x.ptr + x.size ≤ lim)

/-- A position of the cursor: in the `k`-th block of the chain, within its usable region. -/
def At (a : Arena) (chain : List BlockRef) (k curr end_ : Nat) (r : BlockRef) : Prop :=
  chain[k]? = some r ∧ ∃ base, a.region r = some (base, end_) ∧ base ≤ curr ∧ curr ≤ end_

/-- What holds of an arena; `n` is the index of the current block. -/
structure ArenaOk (a : Arena) (chain : List BlockRef) (n : Nat) : Prop where
  head : a.head = .first
  page : PowerOfTwo a.pageSize
  linked : Linked a.next (some .first) chain
  present : ∀ r ∈ chain, (a.blocks r).isSome
  slabs : ∀ r ∈ chain, r = .first ∨ ∃ e ∈ a.slabs, r = .slab e.1
  layout : Layout a
  cursor : At a chain n a.curr a.end_ a.currentBlock

/-- What holds of the live allocations and the checkpoints. -/
structure Sound (s : Ledger) (chain : List BlockRef) (n : Nat) : Prop where
  arena : ArenaOk s.arena chain n
  before : ∀ x ∈ s.live, Before s.arena chain n s.arena.curr x
  aligned : ∀ x ∈ s.live, x.alignment ∣ x.ptr ∧ 0 < x.size
  disjoint : s.live.Pairwise fun x y => x.ptr + x.size ≤ y.ptr ∨ y.ptr + y.size ≤ x.ptr
  checkpoints : ∀ e ∈ s.stack, e.2 ≤ s.clock ∧ ∃ k ≤ n,
    At s.arena chain k e.1.savedCurr e.1.savedEnd e.1.savedBlock ∧
    ∀ x ∈ s.live, x.born < e.2 → Before s.arena chain k e.1.savedCurr x
  lifo : s.stack.Pairwise fun e e' => ∀ k k' : Nat, chain[k]? = some e.1.savedBlock →
    chain[k']? = some e'.1.savedBlock → k' ≤ k

/-- The first `n + 1` blocks of the chain and all regions are kept. -/
def Keeps (a : Arena) (chain : List BlockRef) (n : Nat) (a' : Arena) (chain' : List BlockRef) :
    Prop :=
  (∀ k ≤ n, chain'[k]? = chain[k]?) ∧
    ∀ r base end_, a.region r = some (base, end_) → a'.region r = some (base, end_)

variable {a a' : Arena} {chain chain' : List BlockRef} {n m k lim lim' : Nat} {x y : Chunk}
  {s s' : Ledger} {r r' : BlockRef} {base end_ size alignment : Nat} {slab : Option Nat}

/-! ## Positions -/

theorem Layout.start_le (h : Layout a) (hr : a.region r = some (base, end_)) :
    r.start base ≤ base := by
  cases r with
  | first => exact Nat.le_refl _
  | slab p =>
    have := h.slab p base end_ hr
    simp only [BlockRef.start]
    omega

theorem getElem?_inj (hnodup : chain.Nodup) {i j : Nat} (hi : chain[i]? = some r)
    (hj : chain[j]? = some r) : i = j := by
  obtain ⟨hil, hi⟩ := List.getElem?_eq_some_iff.mp hi
  obtain ⟨hjl, hj⟩ := List.getElem?_eq_some_iff.mp hj
  exact (List.Nodup.getElem_inj_iff hnodup).mp (hi.trans hj.symm)

theorem Before.mono (h : Before a chain k lim x) (hk : k < m ∨ k = m ∧ lim ≤ lim') :
    Before a chain m lim' x := by
  obtain ⟨i, r, base, end_, hi, hr, hlow, hhigh, hpos⟩ := h
  exact ⟨i, r, base, end_, hi, hr, hlow, hhigh, by omega⟩

/-- A chunk before a position does not overlap one that starts there. -/
theorem Before.disjoint (h : Before a chain k lim x) (hlayout : Layout a) (hnodup : chain.Nodup)
    (hk : chain[k]? = some r) (hr : a.region r = some (base, end_)) (hbase : base ≤ y.ptr)
    (hend : y.ptr + y.size ≤ end_) (hlim : lim ≤ y.ptr) :
    x.ptr + x.size ≤ y.ptr ∨ y.ptr + y.size ≤ x.ptr := by
  obtain ⟨i, r', base', end_', hi, hr', hlow, hhigh, hlt | ⟨-, hle⟩⟩ := h
  · -- another block
    have hne : r ≠ r' := by
      rintro rfl
      have := getElem?_inj hnodup hi hk
      omega
    have hstart := hlayout.start_le hr
    have hstart' := hlayout.start_le hr'
    rcases hlayout.apart r base end_ r' base' end_' hr hr' hne with h | h
    · right
      omega
    · left
      omega
  · left
    omega

theorem Before.keeps (h : Before a chain k lim x) (hkeeps : Keeps a chain n a' chain')
    (hk : k ≤ n) : Before a' chain' k lim x := by
  obtain ⟨i, r, base, end_, hi, hr, hlow, hhigh, hpos⟩ := h
  refine ⟨i, r, base, end_, ?_, hkeeps.2 _ _ _ hr, hlow, hhigh, hpos⟩
  rw [hkeeps.1 i (by omega)]
  exact hi

theorem At.keeps {curr : Nat} (h : At a chain k curr end_ r) (hkeeps : Keeps a chain n a' chain')
    (hk : k ≤ n) : At a' chain' k curr end_ r := by
  obtain ⟨hi, base, hr, hlow, hhigh⟩ := h
  refine ⟨?_, base, hkeeps.2 _ _ _ hr, hlow, hhigh⟩
  rw [hkeeps.1 k hk]
  exact hi

theorem Keeps.refl (a : Arena) (chain : List BlockRef) (n : Nat) : Keeps a chain n a chain :=
  ⟨fun _ _ => rfl, fun _ _ _ h => h⟩

/-! ## What an allocation does to the arena -/

/-- The cursor at another place on the chain. -/
theorem ArenaOk.move (h : ArenaOk a chain n) {curr : Nat} (hat : At a chain m curr end_ r) :
    ArenaOk { a with curr := curr, end_ := end_, currentBlock := r } chain m :=
  ⟨h.head, h.page, h.linked, h.present, h.slabs,
    ⟨h.layout.ordered, h.layout.slab, h.layout.apart⟩, hat⟩

theorem ArenaOk.length_le (h : ArenaOk a chain n) : chain.length ≤ a.slabs.length + 1 := by
  have hsub : chain ⊆ .first :: a.slabs.map fun e => .slab e.1 := by
    intro r hr
    rcases h.slabs r hr with rfl | ⟨e, he, rfl⟩
    · exact List.mem_cons_self
    · exact List.mem_cons_of_mem _ (List.mem_map_of_mem he)
  have := (List.subperm_of_subset h.linked.nodup hsub).length_le
  simpa using this

/-- The blocks after the current one. -/
theorem ArenaOk.after (h : ArenaOk a chain n) :
    chain = chain.take n ++ a.currentBlock :: chain.drop (n + 1) ∧
      Linked a.next (a.next a.currentBlock) (chain.drop (n + 1)) := by
  obtain ⟨hlt, hget⟩ := List.getElem?_eq_some_iff.mp h.cursor.1
  have heq : chain = chain.take n ++ a.currentBlock :: chain.drop (n + 1) := by
    rw [← hget, ← List.drop_eq_getElem_cons hlt, List.take_append_drop]
  refine ⟨heq, ?_⟩
  have hlinked := h.linked
  rw [heq] at hlinked
  exact hlinked.tail

theorem region_eq {b : ArenaBlock} (h : a.blocks r = some b) :
    a.region r = some (b.base, b.end_) := by
  rw [Arena.region, h, Option.map_some]

/-- Twice the capacity of the current block, up to the greatest size. -/
theorem doubled_le (capacity : Nat) :
    (if capacity ≤ arenaMaxBlockSize / 2 then capacity * 2 else arenaMaxBlockSize) ≤ 2 ^ 23 := by
  split_ifs with hsmall
  · simp only [arenaMaxBlockSize] at hsmall
    omega
  · decide

/-- The size of a new slab: it holds the header and the aligned request. -/
theorem ArenaOk.nextSize_ge (h : ArenaOk a chain n) (capacity : Nat) (halign : PowerOfTwo alignment)
    (hfit : sizeofArenaBlock + alignment + size + a.pageSize ≤ wordSize + 1) :
    sizeofArenaBlock + alignment - 1 + size ≤ nextSize a capacity size alignment := by
  obtain ⟨k, hk, rfl⟩ := halign
  obtain ⟨j, hj, hpage⟩ := h.page
  have hpow : 0 < 2 ^ k := Nat.two_pow_pos k
  have hpage' : 0 < a.pageSize := hpage ▸ Nat.two_pow_pos j
  have hneeded : (sizeofArenaBlock + (2 ^ k + (wordSize - 1)) + size) % wordSize =
      sizeofArenaBlock + 2 ^ k - 1 + size := by
    have heq : sizeofArenaBlock + (2 ^ k + (wordSize - 1)) + size =
        (sizeofArenaBlock + 2 ^ k - 1 + size) + wordSize := by
      simp only [sizeofArenaBlock]
      omega
    rw [heq, Nat.add_mod_right, Nat.mod_eq_of_lt (by omega)]
  have hhalf : a.pageSize ≤ 2 ^ 63 := hpage ▸ Nat.pow_le_pow_right (by decide) (by omega)
  unfold nextSize
  simp only [hneeded]
  generalize hmax : max (max (if capacity ≤ arenaMaxBlockSize / 2 then capacity * 2
    else arenaMaxBlockSize) (sizeofArenaBlock + 2 ^ k - 1 + size)) arenaMinBlockSize = total
  have hle : sizeofArenaBlock + 2 ^ k - 1 + size ≤ total := by omega
  have htotal : total + a.pageSize ≤ wordSize := by
    have hdouble := doubled_le capacity
    simp only [arenaMinBlockSize, wordSize] at *
    omega
  exact hle.trans (alignUp_spec ⟨j, hj, hpage⟩ htotal).1

/-- What an allocation at `p` does: the cursor stands behind it, everything that was before the
cursor is before `p`, and the chain up to the old current block is as it was. -/
structure Placed (a : Arena) (chain : List BlockRef) (n : Nat) (a' : Arena) (size alignment p : Nat)
    (chain' : List BlockRef) (m : Nat) : Prop where
  ok : ArenaOk a' chain' m
  keeps : Keeps a chain n a' chain'
  le : n ≤ m
  before : ∀ x, Before a chain n a.curr x → Before a' chain' m p x
  within : ∃ base, a'.region a'.currentBlock = some (base, a'.end_) ∧ base ≤ p
  curr : a'.curr = p + size
  aligned : alignment ∣ p

/-- Room in the current block. -/
theorem ArenaOk.place_here (h : ArenaOk a chain n) (halign : PowerOfTwo alignment)
    (hwrap : a.curr + alignment ≤ wordSize)
    (hfit : alignUp a.curr alignment + size ≤ a.end_) :
    Placed a chain n { a with curr := alignUp a.curr alignment + size } size alignment
      (alignUp a.curr alignment) chain n := by
  obtain ⟨hle, -, hdvd⟩ := alignUp_spec halign hwrap
  obtain ⟨hi, base, hr, hlow, hhigh⟩ := h.cursor
  refine ⟨h.move ⟨hi, base, hr, by omega, hfit⟩, Keeps.refl _ _ _, Nat.le_refl n, fun x hx => ?_,
    ⟨base, hr, by omega⟩, rfl, hdvd⟩
  exact hx.mono (.inr ⟨rfl, hle⟩)

/-- Room in a later block of the chain. -/
theorem ArenaOk.place_cached (h : ArenaOk a chain n) (halign : PowerOfTwo alignment)
    {b : ArenaBlock}
    (hr : r ∈ chain.drop (n + 1)) (hb : a.blocks r = some b)
    (hwrap : b.base + alignment ≤ wordSize) (hfit : alignUp b.base alignment + size ≤ b.end_) :
    ∃ m, Placed a chain n { a with
        currentBlock := r, curr := alignUp b.base alignment + size, end_ := b.end_ }
      size alignment (alignUp b.base alignment) chain m := by
  obtain ⟨hle, -, hdvd⟩ := alignUp_spec halign hwrap
  obtain ⟨i, hi⟩ := List.mem_iff_getElem?.mp hr
  rw [List.getElem?_drop] at hi
  refine ⟨n + 1 + i, h.move ⟨hi, b.base, region_eq hb, by omega, hfit⟩, Keeps.refl _ _ _, by omega,
    fun x hx => ?_, ⟨b.base, region_eq hb, hle⟩, rfl, hdvd⟩
  exact hx.mono (.inl (by omega))

/-- A fresh slab is not a block yet. -/
theorem FreshSlab.region_eq_none {p slabSize : Nat} (hfresh : FreshSlab a p slabSize)
    (hlayout : Layout a) (hpos : 0 < slabSize) : a.region (.slab p) = none := by
  cases hr : a.region (.slab p) with
  | none => rfl
  | some be =>
    obtain ⟨base, end_⟩ := be
    have hbase := hlayout.slab p base end_ hr
    have hord := hlayout.ordered _ _ _ hr
    have := hfresh.2.2 _ _ _ hr
    simp only [BlockRef.start, sizeofArenaBlock] at *
    omega

/-- The regions after a slab has been linked. -/
theorem region_linkSlab {current : ArenaBlock} {p slabSize : Nat}
    (hcurrent : a.blocks a.currentBlock = some current) (hp : p + slabSize < wordSize)
    (hsize : sizeofArenaBlock ≤ slabSize)
    (ha' : a'.blocks = linkSlab a current p slabSize) (r : BlockRef) :
    a'.region r =
      if r = .slab p then some (p + sizeofArenaBlock, p + slabSize) else a.region r := by
  simp only [Arena.region, ha', linkSlab]
  split_ifs with hslab hcb
  · rw [Option.map_some, Nat.mod_eq_of_lt (by omega), Nat.mod_eq_of_lt hp]
  · rw [hcb, hcurrent]
    rfl
  · rfl

theorem Layout.link {p slabSize : Nat} (h : Layout a) (hfresh : FreshSlab a p slabSize)
    (hsize : sizeofArenaBlock ≤ slabSize)
    (hregion : ∀ r, a'.region r =
      if r = .slab p then some (p + sizeofArenaBlock, p + slabSize) else a.region r) :
    Layout a' := by
  have hnew : ∀ base end_, a'.region (.slab p) = some (base, end_) →
      base = p + sizeofArenaBlock ∧ end_ = p + slabSize := by
    intro base end_ hr
    rw [hregion, if_pos rfl] at hr
    cases hr
    exact ⟨rfl, rfl⟩
  have hold : ∀ r base end_, r ≠ .slab p → a'.region r = some (base, end_) →
      a.region r = some (base, end_) := by
    intro r base end_ hne hr
    rwa [hregion, if_neg hne] at hr
  refine ⟨fun r base end_ hr => ?_, fun q base end_ hr => ?_, ?_⟩
  · by_cases hne : r = .slab p
    · subst hne
      obtain ⟨rfl, rfl⟩ := hnew _ _ hr
      exact ⟨by omega, hfresh.2.1⟩
    · exact h.ordered r base end_ (hold _ _ _ hne hr)
  · by_cases hne : BlockRef.slab q = .slab p
    · cases hne
      exact (hnew _ _ hr).1
    · exact h.slab q base end_ (hold _ _ _ hne hr)
  · intro r base end_ r' base' end_' hr hr' hne
    -- the new slab against an old block, or two old blocks
    by_cases hrp : r = .slab p
    · subst hrp
      obtain ⟨rfl, rfl⟩ := hnew _ _ hr
      have := hfresh.2.2 _ _ _ (hold _ _ _ (Ne.symm hne) hr')
      simp only [BlockRef.start] at *
      omega
    · by_cases hrp' : r' = .slab p
      · subst hrp'
        obtain ⟨rfl, rfl⟩ := hnew _ _ hr'
        have := hfresh.2.2 _ _ _ (hold _ _ _ hne hr)
        simp only [BlockRef.start] at *
        omega
      · exact h.apart _ _ _ _ _ _ (hold _ _ _ hrp hr) (hold _ _ _ hrp' hr') hne

/-- A new slab behind the current block; the blocks that followed it are cut off. -/
theorem ArenaOk.place_slab (h : ArenaOk a chain n) (halign : PowerOfTwo alignment)
    {current : ArenaBlock} {p slabSize : Nat} (hcurrent : a.blocks a.currentBlock = some current)
    (hfresh : FreshSlab a p slabSize)
    (hsize : sizeofArenaBlock + alignment - 1 + size ≤ slabSize) :
    ∃ chain' m, Placed a chain n { a with
        blocks := linkSlab a current p slabSize
        slabs := (p, slabSize) :: a.slabs
        currentBlock := .slab p
        totalCommitted := a.totalCommitted + slabSize
        curr := alignUp (p + sizeofArenaBlock) alignment + size
        end_ := p + slabSize }
      size alignment (alignUp (p + sizeofArenaBlock) alignment) chain' m := by
  have hpow : 0 < alignment := by
    obtain ⟨k, -, rfl⟩ := halign
    exact Nat.two_pow_pos k
  have hheader : sizeofArenaBlock ≤ slabSize := by omega
  have hpos : 0 < slabSize := by
    simp only [sizeofArenaBlock] at hheader
    omega
  have hspace := hfresh.2.1
  obtain ⟨hle, hlt, hdvd⟩ := alignUp_spec (x := p + sizeofArenaBlock) halign (by omega)
  obtain ⟨heq, -⟩ := h.after
  have hnone := hfresh.region_eq_none h.layout hpos
  -- a slab of the old chain lies in a region, and the fresh one lies in none
  have hnew : BlockRef.slab p ∉ chain := by
    intro hmem
    obtain ⟨b, hb⟩ := Option.isSome_iff_exists.mp (h.present _ hmem)
    rw [region_eq hb] at hnone
    cases hnone
  have hcb : a.currentBlock ∈ chain := List.mem_of_getElem? h.cursor.1
  have hne : a.currentBlock ≠ .slab p := fun hcb' => hnew (hcb' ▸ hcb)
  have htake : ∀ r ∈ chain.take n, r ∈ chain := fun r hr => List.take_subset _ _ hr
  generalize ha' : ({ a with
        blocks := linkSlab a current p slabSize
        slabs := (p, slabSize) :: a.slabs
        currentBlock := .slab p
        totalCommitted := a.totalCommitted + slabSize
        curr := alignUp (p + sizeofArenaBlock) alignment + size
        end_ := p + slabSize } : Arena) = a'
  have hregion : ∀ r, a'.region r =
      if r = .slab p then some (p + sizeofArenaBlock, p + slabSize) else a.region r :=
    region_linkSlab hcurrent hspace hheader (by rw [← ha'])
  -- what is kept: the places up to the cursor, and every region the arena had
  have hkeeps : Keeps a chain n a' (chain.take n ++ [a.currentBlock, .slab p]) := by
    refine ⟨fun k hk => ?_, fun r base end_ hr => ?_⟩
    · have hlen := (List.getElem?_eq_some_iff.mp h.cursor.1).1
      nth_rewrite 2 [heq]
      by_cases hkn : k < n
      · rw [List.getElem?_append_left (by simp; omega), List.getElem?_append_left (by simp; omega)]
      · obtain rfl : k = n := by omega
        rw [List.getElem?_append_right (by simp), List.getElem?_append_right (by simp)]
        simp [Nat.min_eq_left (Nat.le_of_lt hlen)]
    · rw [hregion, if_neg, hr]
      rintro rfl
      rw [hnone] at hr
      cases hr
  have hblocks : a'.blocks = linkSlab a current p slabSize := by rw [← ha']
  obtain ⟨hlinked, hpresent⟩ := linked_linkSlab (heq ▸ h.linked)
    (fun r hr => h.present r (htake r hr)) (fun hr => hnew (htake _ hr)) hne hblocks
  have hlen : (chain.take n).length = n := by
    have := (List.getElem?_eq_some_iff.mp h.cursor.1).1
    rw [List.length_take]
    omega
  have hat : (chain.take n ++ [a.currentBlock, .slab p])[n + 1]? = some (.slab p) := by
    rw [List.getElem?_append_right (by omega), hlen]
    simp
  have hcurr : a'.curr = alignUp (p + sizeofArenaBlock) alignment + size := by rw [← ha']
  have hend : a'.end_ = p + slabSize := by rw [← ha']
  have hcur : a'.currentBlock = .slab p := by rw [← ha']
  have hslabs : a'.slabs = (p, slabSize) :: a.slabs := by rw [← ha']
  have hslabRegion : a'.region (.slab p) = some (p + sizeofArenaBlock, p + slabSize) := by
    rw [hregion, if_pos rfl]
  refine ⟨_, n + 1, ⟨?_, ?_, hlinked, hpresent, fun r hr => ?_,
    h.layout.link hfresh hheader hregion, ?_⟩, hkeeps, by omega, fun x hx => ?_, ?_, hcurr, hdvd⟩
  · rw [← ha']
    exact h.head
  · rw [← ha']
    exact h.page
  · rw [hslabs]
    rcases List.mem_append.mp hr with hr | hr
    · rcases h.slabs r (htake r hr) with rfl | ⟨e, he, rfl⟩
      · exact .inl rfl
      · exact .inr ⟨e, List.mem_cons_of_mem _ he, rfl⟩
    · rcases List.mem_cons.mp hr with rfl | hr
      · rcases h.slabs _ hcb with hcb | ⟨e, he, hcb⟩
        · exact .inl hcb
        · exact .inr ⟨e, List.mem_cons_of_mem _ he, hcb⟩
      · exact .inr ⟨(p, slabSize), List.mem_cons_self, List.mem_singleton.mp hr⟩
  · rw [hcur, hcurr, hend]
    exact ⟨hat, _, hslabRegion, by omega, by omega⟩
  · exact (hx.keeps hkeeps (Nat.le_refl n)).mono (.inl (by omega))
  · rw [hcur, hend]
    exact ⟨_, hslabRegion, hle⟩

/-- `NULL` and no change, or a chunk placed in the arena. -/
def Served (a : Arena) (chain : List BlockRef) (n size alignment : Nat) (res : Arena × Option Nat) :
    Prop :=
  (res.1 = a ∧ res.2 = none) ∨
    ∃ p chain' m, res.2 = some p ∧ Placed a chain n res.1 size alignment p chain' m

theorem ArenaOk.slow (h : ArenaOk a chain n) {res : Arena × Option Nat}
    (halign : PowerOfTwo alignment) (hwrap : NoWrap a size alignment)
    (hfull : a.end_ < alignUp a.curr alignment + size)
    (hslab : ∀ p ∈ slab, slabFor a p size alignment)
    (hstep : arenaAllocSlow a slab size alignment = some res) :
    Served a chain n size alignment res := by
  obtain ⟨hbases, hsizes⟩ := hwrap.2 hfull
  obtain ⟨-, hafter⟩ := h.after
  have hsplit : arenaAllocSlow a slab size alignment = some (res.1, res.2) := hstep
  obtain ⟨current, hcurrent, ⟨hit, hfound, ha', hr⟩ | ⟨-, ⟨-, ha', hr⟩ |
    ⟨ptr, slabSize, aligned, rfl, hsize, haligned, ha', hr⟩⟩⟩ := arenaAllocSlow_cases hsplit
  · rw [← next_eq hcurrent] at hfound
    obtain ⟨hmem, hb, hal, hfit⟩ := findCached_some hafter hfound
    obtain ⟨hbase, hlt⟩ := hbases _ _ _ _ hafter hmem (region_eq hb)
    rw [hal, Nat.mod_eq_of_lt hlt] at hfit ha'
    obtain ⟨m, hplaced⟩ := h.place_cached halign hmem hb hbase hfit
    exact .inr ⟨_, chain, m, hr, by rw [ha', hal]; exact hplaced⟩
  · exact .inl ⟨ha', hr⟩
  · have hfresh := hslab ptr rfl current hcurrent
    rw [← hsize] at hfresh
    have hge := h.nextSize_ge (current.end_ - current.base) halign hsizes
    rw [← hsize] at hge
    have hpow : 0 < alignment := by
      obtain ⟨k, -, rfl⟩ := halign
      exact Nat.two_pow_pos k
    have hspace := hfresh.2.1
    have hbase : (ptr + sizeofArenaBlock) % wordSize = ptr + sizeofArenaBlock :=
      Nat.mod_eq_of_lt (by omega)
    have hup := alignUp_spec (x := ptr + sizeofArenaBlock) halign (by omega)
    obtain ⟨chain', m, hplaced⟩ := h.place_slab halign hcurrent hfresh hge
    refine .inr ⟨_, chain', m, hr, ?_⟩
    rw [hbase] at haligned
    rw [haligned, ha', haligned, Nat.mod_eq_of_lt hspace, Nat.mod_eq_of_lt (by omega)]
    exact hplaced

theorem ArenaOk.slow_ne_none (h : ArenaOk a chain n) :
    arenaAllocSlow a slab size alignment ≠ none := by
  obtain ⟨current, hcurrent⟩ := Option.isSome_iff_exists.mp
    (h.present _ (List.mem_of_getElem? h.cursor.1))
  obtain ⟨-, hafter⟩ := h.after
  rw [next_eq hcurrent] at hafter
  have hlen := h.length_le
  have hfound : findCached a size alignment (a.slabs.length + 1) current.next ≠ none :=
    findCached_ne_none hafter (fun r hr => h.present r (List.drop_subset _ _ hr))
      (by rw [List.length_drop]; omega)
  unfold arenaAllocSlow
  rw [hcurrent]
  simp only
  split
  · next hnone => exact absurd hnone hfound
  · exact nofun
  · cases slab with
    | none => exact nofun
    | some p => exact nofun

theorem ArenaOk.allocAlign (h : ArenaOk a chain n) (hreq : Request a size alignment slab) :
    ∃ res, arenaAllocAlign a slab size alignment = some res ∧
      Served a chain n size alignment res ∧ (size = 0 → res.2 = none) := by
  unfold arenaAllocAlign
  split
  · exact ⟨_, rfl, .inl ⟨rfl, rfl⟩, fun _ => rfl⟩
  · next hsize =>
    obtain ⟨halign, hwrap, hslab⟩ := hreq hsize
    rw [Nat.mod_eq_of_lt hwrap.1.2]
    split
    · next hfit =>
      exact ⟨_, rfl, .inr ⟨_, chain, n, rfl, h.place_here halign hwrap.1.1 hfit⟩,
        fun h0 => absurd h0 hsize⟩
    · next hfull =>
      have hslow : arenaAllocSlow a slab size alignment ≠ none := h.slow_ne_none
      obtain ⟨res, hres⟩ := Option.ne_none_iff_exists'.mp hslow
      exact ⟨res, hres, h.slow halign hwrap (by omega) hslab hres, fun h0 => absurd h0 hsize⟩

theorem ArenaOk.curr_lt (h : ArenaOk a chain n) : a.curr < wordSize := by
  obtain ⟨-, base, hr, -, hle⟩ := h.cursor
  have := h.layout.ordered _ _ _ hr
  omega

/-- The unaligned allocation is the one with alignment 1. -/
theorem arenaAllocUnaligned_eq (h : a.curr < wordSize) (slab : Option Nat) (size : Nat) :
    arenaAllocUnaligned a slab size = arenaAllocAlign a slab size 1 := by
  obtain ⟨h₁, h₂, -⟩ := alignUp_spec (x := a.curr) (a := 1) ⟨0, by decide, rfl⟩ (by omega)
  have hone : alignUp a.curr 1 = a.curr := by omega
  rw [arenaAllocUnaligned, arenaAllocAlign, hone]

/-! ## What a call does to the live allocations -/

/-- Fewer live allocations. -/
theorem Sound.sublist (h : Sound s chain n) {live : List Chunk} (hsub : List.Sublist live s.live) :
    Sound { s with live := live } chain n where
  arena := h.arena
  before x hx := h.before x (hsub.subset hx)
  aligned x hx := h.aligned x (hsub.subset hx)
  disjoint := h.disjoint.sublist hsub
  checkpoints e he := by
    obtain ⟨htime, k, hk, hat, hbefore⟩ := h.checkpoints e he
    exact ⟨htime, k, hk, hat, fun x hx => hbefore x (hsub.subset hx)⟩
  lifo := h.lifo

/-- The order of the checkpoints on the chain does not change. -/
theorem Sound.lifo_keeps (h : Sound s chain n) (hkeeps : Keeps s.arena chain n a' chain')
    (hnodup : chain'.Nodup) :
    s.stack.Pairwise fun e e' => ∀ k k' : Nat, chain'[k]? = some e.1.savedBlock →
      chain'[k']? = some e'.1.savedBlock → k' ≤ k := by
  refine h.lifo.imp_of_mem fun {e e'} he he' hle k k' hk hk' => ?_
  obtain ⟨-, i, hi, hat, -⟩ := h.checkpoints e he
  obtain ⟨-, i', hi', hat', -⟩ := h.checkpoints e' he'
  have hki := getElem?_inj hnodup hk ((hkeeps.1 i hi).trans hat.1)
  have hki' := getElem?_inj hnodup hk' ((hkeeps.1 i' hi').trans hat'.1)
  rw [hki, hki']
  exact hle i i' hat.1 hat'.1

/-- A new live allocation. -/
theorem Sound.add (h : Sound s chain n) {res : Arena × Option Nat}
    (hserved : Served s.arena chain n size alignment res) (hsize : size = 0 → res.2 = none) :
    ∃ chain' m, Sound (s.add size alignment res) chain' m := by
  obtain ⟨a', o⟩ := res
  rcases hserved with ⟨ha', ho⟩ | ⟨p, chain', m, ho, hplaced⟩
  · cases ha'
    cases ho
    exact ⟨chain, n, h⟩
  · cases ho
    replace hplaced : Placed s.arena chain n a' size alignment p chain' m := hplaced
    have hpos : 0 < size := Nat.pos_of_ne_zero fun h0 => by cases hsize h0
    obtain ⟨base, hregion, hbase⟩ := hplaced.within
    obtain ⟨hm, base', hregion', -, hend⟩ := hplaced.ok.cursor
    have hnodup := hplaced.ok.linked.nodup
    have hcurr := hplaced.curr
    have hold : ∀ x ∈ s.live, Before a' chain' m p x := fun x hx =>
      hplaced.before x (h.before x hx)
    refine ⟨chain', m, hplaced.ok, ?_, ?_, ?_, fun e he => ?_, h.lifo_keeps hplaced.keeps hnodup⟩
    · refine List.forall_mem_cons.mpr ⟨?_, fun x hx => ?_⟩
      · refine ⟨m, _, base, _, hm, hregion, hbase, ?_, .inr ⟨rfl, ?_⟩⟩
        · simp only
          omega
        · simp only [Ledger.add]
          omega
      · refine (hold x hx).mono (.inr ⟨rfl, ?_⟩)
        simp only [Ledger.add]
        omega
    · exact List.forall_mem_cons.mpr ⟨⟨hplaced.aligned, hpos⟩, h.aligned⟩
    · refine List.pairwise_cons.mpr ⟨fun x hx => ?_, h.disjoint⟩
      refine Or.symm ((hold x hx).disjoint hplaced.ok.layout hnodup hm hregion hbase ?_
        (Nat.le_refl p))
      simp only
      omega
    · obtain ⟨htime, k, hk, hat, hbefore⟩ := h.checkpoints e he
      refine ⟨Nat.le_succ_of_le htime, k, hk.trans hplaced.le, hat.keeps hplaced.keeps hk, ?_⟩
      refine List.forall_mem_cons.mpr ⟨fun hborn => ?_, fun x hx hborn => ?_⟩
      · simp only at hborn
        omega
      · exact (hbefore x hx hborn).keeps hplaced.keeps hk

/-- A chunk that ends at the cursor is in the current block. -/
theorem Sound.last (h : Sound s chain n) (hx : x ∈ s.live) (hend : x.ptr + x.size = s.arena.curr) :
    ∃ base, s.arena.region s.arena.currentBlock = some (base, s.arena.end_) ∧ base ≤ x.ptr ∧
      x.ptr + x.size ≤ s.arena.end_ := by
  obtain ⟨hn, base, hregion, hlow, hhigh⟩ := h.arena.cursor
  obtain ⟨i, r, base', end_', hi, hr, hlow', hhigh', hpos⟩ := h.before x hx
  have hsize := (h.aligned x hx).2
  by_cases hrn : r = s.arena.currentBlock
  · subst hrn
    rw [hregion] at hr
    cases hr
    exact ⟨base, hregion, hlow', by omega⟩
  · -- another block cannot end where the current one begins: a header is between them
    exfalso
    have hlt : i < n := by
      rcases hpos with hlt | ⟨rfl, -⟩
      · exact hlt
      · rw [hn] at hi
        exact absurd (Option.some.inj hi).symm hrn
    have hlayout := h.arena.layout
    have hstart' := hlayout.start_le hr
    have hheader : s.arena.currentBlock.start base < base := by
      cases hcb : s.arena.currentBlock with
      | first =>
        have hhead := h.arena.linked
        cases chain with
        | nil => cases hi
        | cons c chain =>
          cases hhead
          rw [hcb] at hn
          have := getElem?_inj h.arena.linked.nodup (i := 0) rfl hn
          omega
      | slab p =>
        have := hlayout.slab p base _ (hcb ▸ hregion)
        simp only [BlockRef.start, sizeofArenaBlock] at *
        omega
    rcases hlayout.apart _ _ _ _ _ _ hr hregion hrn with hlt' | hlt'
    · omega
    · omega

/-- The last allocation is given back. -/
theorem Sound.retract (h : Sound s chain n) {i : Nat} {old : Chunk} (hi : s.live[i]? = some old)
    (hend : old.ptr + old.size = s.arena.curr) :
    Sound { s with
      arena := { s.arena with curr := old.ptr }
      live := s.live.eraseIdx i } chain n := by
  have hold := List.mem_of_getElem? hi
  have hsub := List.eraseIdx_sublist s.live i
  obtain ⟨base, hregion, hlow, hhigh⟩ := h.last hold hend
  have hdisjoint : ∀ x ∈ s.live.eraseIdx i,
      x.ptr + x.size ≤ old.ptr ∨ old.ptr + old.size ≤ x.ptr := by
    intro x hx
    obtain ⟨j, hji, hj⟩ := List.mem_eraseIdx_iff_getElem?.mp hx
    obtain ⟨hjl, rfl⟩ := List.getElem?_eq_some_iff.mp hj
    obtain ⟨hil, rfl⟩ := List.getElem?_eq_some_iff.mp hi
    rcases Nat.lt_or_gt_of_ne hji with hlt | hlt
    · exact List.pairwise_iff_getElem.mp h.disjoint j i hjl hil hlt
    · exact (List.pairwise_iff_getElem.mp h.disjoint i j hil hjl hlt).symm
  have hs := h.sublist hsub
  refine ⟨h.arena.move ⟨h.arena.cursor.1, base, hregion, hlow, by omega⟩,
    fun x hx => ?_, hs.aligned,
    hs.disjoint, hs.checkpoints, hs.lifo⟩
  obtain ⟨j, r, base', end_', hj, hr, hlow', hhigh', hpos⟩ := hs.before x hx
  have hsize := (hs.aligned x hx).2
  have := hdisjoint x hx
  refine ⟨j, r, base', end_', hj, hr, hlow', hhigh', ?_⟩
  -- what is in the current block ends at the cursor or before, so not behind `old`
  simp only at hpos ⊢
  omega

/-- `arena_realloc` of a live allocation. -/
theorem Sound.realloc (h : Sound s chain n) {i newSize : Nat} {old : Chunk}
    (hi : s.live[i]? = some old) (hwrap : old.ptr + newSize < wordSize)
    (hlast : old.ptr + old.size = s.arena.curr → s.arena.end_ < old.ptr + newSize →
      Request s.arena newSize old.alignment slab)
    (hother : old.ptr + old.size ≠ s.arena.curr → Request s.arena newSize old.alignment slab) :
    ∃ res, arenaRealloc s.arena slab (some old.ptr) old.size newSize old.alignment = some res ∧
      ∃ chain' m, Sound (s.replace i newSize old res) chain' m := by
  have hmem := List.mem_of_getElem? hi
  have hsize := (h.aligned old hmem).2
  have hsub := List.eraseIdx_sublist s.live i
  obtain ⟨_, r, base, end_, -, hr, -, hhigh, -⟩ := h.before old hmem
  have hord := h.arena.layout.ordered _ _ _ hr
  have hmod : (old.ptr + old.size) % wordSize = old.ptr + old.size := Nat.mod_eq_of_lt (by omega)
  simp only [arenaRealloc, Nat.ne_of_gt hsize, if_false, hmod, Nat.mod_eq_of_lt hwrap]
  split
  · next hzero =>
    -- shrunk to nothing
    subst hzero
    split
    · next hend => exact ⟨_, rfl, chain, n, by simpa [Ledger.replace] using h.retract hi hend⟩
    · exact ⟨_, rfl, chain, n, by simpa [Ledger.replace] using h.sublist hsub⟩
  · next hne =>
    split
    · next hplace =>
      -- the cursor moves in place: the chunk is given back and placed again
      obtain ⟨hend, hfit⟩ := hplace
      obtain ⟨base, hregion, hlow, hhigh⟩ := h.last hmem hend
      have hfit' : old.ptr + newSize ≤ s.arena.end_ := by omega
      have hplaced : Placed { s.arena with curr := old.ptr } chain n
          { s.arena with curr := old.ptr + newSize } newSize old.alignment old.ptr chain n :=
        ⟨h.arena.move ⟨h.arena.cursor.1, base, hregion, by omega, hfit'⟩, Keeps.refl _ _ _,
          Nat.le_refl n, fun x hx => hx, ⟨base, hregion, hlow⟩, rfl, (h.aligned old hmem).1⟩
      have hserved : Served _ chain n newSize old.alignment
          ({ s.arena with curr := old.ptr + newSize }, some old.ptr) :=
        .inr ⟨old.ptr, chain, n, rfl, hplaced⟩
      obtain ⟨chain', m, hsound⟩ := (h.retract hi hend).add hserved (fun h0 => absurd h0 hne)
      exact ⟨_, rfl, chain', m, hsound⟩
    · next hplace =>
      have hreq : Request s.arena newSize old.alignment slab := by
        by_cases hend : old.ptr + old.size = s.arena.curr
        · refine hlast hend ?_
          by_contra hfit
          exact hplace ⟨hend, .inr (by omega)⟩
        · exact hother hend
      obtain ⟨⟨a', o⟩, hres, hserved, hnull⟩ := h.arena.allocAlign hreq
      obtain ⟨chain', m, hsound⟩ := h.add hserved hnull
      refine ⟨_, hres, chain', m, ?_⟩
      cases o with
      | none => simpa [Ledger.replace, Ledger.add, hne] using hsound
      | some p => exact hsound.sublist (hsub.cons_cons _)

theorem Sound.reset (h : Sound s chain n) :
    ∃ a, arenaReset s.arena = some a ∧
      Sound { s with arena := a, live := [], stack := [] } chain 0 := by
  have hfirst : chain[0]? = some BlockRef.first := by
    obtain ⟨hlt, -⟩ := List.getElem?_eq_some_iff.mp h.arena.cursor.1
    have hlinked := h.arena.linked
    cases chain with
    | nil => cases hlt
    | cons r chain =>
      cases hlinked
      rfl
  obtain ⟨b, hb⟩ := Option.isSome_iff_exists.mp
    (h.arena.present _ (List.mem_of_getElem? hfirst))
  have hord := h.arena.layout.ordered _ _ _ (region_eq hb)
  have hreset : arenaReset s.arena =
      some { s.arena with currentBlock := .first, curr := b.base, end_ := b.end_ } := by
    unfold arenaReset
    rw [h.arena.head, hb]
    simp [← h.arena.head]
  exact ⟨_, hreset, h.arena.move ⟨hfirst, b.base, region_eq hb, Nat.le_refl _, hord.1⟩, nofun,
    nofun, .nil, nofun, .nil⟩

theorem Sound.save (h : Sound s chain n) :
    Sound { s with stack := (arenaSave s.arena, s.clock) :: s.stack } chain n := by
  refine ⟨h.arena, h.before, h.aligned, h.disjoint, ?_, ?_⟩
  · refine List.forall_mem_cons.mpr ⟨?_, h.checkpoints⟩
    exact ⟨Nat.le_refl _, n, Nat.le_refl n, h.arena.cursor, fun x hx _ => h.before x hx⟩
  · refine List.pairwise_cons.mpr ⟨fun e he k k' hk hk' => ?_, h.lifo⟩
    -- the checkpoints so far are not behind the current block
    obtain ⟨-, i, hi, hat, -⟩ := h.checkpoints e he
    have hnodup := h.arena.linked.nodup
    rw [getElem?_inj hnodup hk h.arena.cursor.1, getElem?_inj hnodup hk' hat.1]
    exact hi

theorem Sound.restore (h : Sound s chain n) {i : Nat} {e : ArenaCheckpoint × Nat}
    (hi : s.stack[i]? = some e) :
    ∃ k, Sound { s with
      arena := arenaRestore s.arena e.1
      live := s.live.filter (·.born < e.2)
      stack := s.stack.drop i } chain k := by
  obtain ⟨htime, k, hk, hat, hbefore⟩ := h.checkpoints e (List.mem_of_getElem? hi)
  have hs := h.sublist (List.filter_sublist (p := fun x => decide (x.born < e.2)))
  have hdrop : s.stack.drop i = e :: s.stack.drop (i + 1) := by
    obtain ⟨hlt, rfl⟩ := List.getElem?_eq_some_iff.mp hi
    exact List.drop_eq_getElem_cons hlt
  have hlifo : (s.stack.drop i).Pairwise _ := h.lifo.sublist (List.drop_sublist i s.stack)
  refine ⟨k, h.arena.move hat, fun x hx => ?_, hs.aligned, hs.disjoint, fun e' he' => ?_, hlifo⟩
  · obtain ⟨hx, hborn⟩ := List.mem_filter.mp hx
    exact hbefore x hx (of_decide_eq_true hborn)
  · obtain ⟨htime', k', -, hat', hbefore'⟩ := hs.checkpoints e' (List.drop_subset i _ he')
    refine ⟨htime', k', ?_, hat', hbefore'⟩
    -- the checkpoints that remain are not behind the restored one
    rw [hdrop] at he' hlifo
    rcases List.mem_cons.mp he' with rfl | he'
    · exact Nat.le_of_eq (getElem?_inj h.arena.linked.nodup hat'.1 hat.1)
    · exact (List.pairwise_cons.mp hlifo).1 e' he' k k' hat.1 hat'.1

/-! ## Runs -/

/-- An arena that has its first block only. -/
theorem arenaOk_single (buf size : Nat) (isStatic heap : Bool) (hfit : buf + size < wordSize)
    (hpage : PowerOfTwo a.pageSize)
    (ha : a = { arenaInit a.pageSize buf size with
      heapAllocated := heap
      blocks := fun r => if r = .first then
        some ⟨none, buf, (buf + size) % wordSize, isStatic⟩ else none }) :
    ArenaOk a [.first] 0 := by
  have hblocks : ∀ r, a.blocks r = if r = .first then some ⟨none, buf, buf + size, isStatic⟩
      else none := by
    intro r
    rw [ha, Nat.mod_eq_of_lt hfit]
  have hregion : ∀ r base end_, a.region r = some (base, end_) →
      r = .first ∧ base = buf ∧ end_ = buf + size := by
    intro r base end_ hr
    rw [Arena.region, hblocks] at hr
    split at hr
    · next hfirst =>
      cases hr
      exact ⟨hfirst, rfl, rfl⟩
    · cases hr
  have hfirst : a.region .first = some (buf, buf + size) := by
    rw [Arena.region, hblocks, if_pos rfl]
    rfl
  have hnext : a.next .first = none := by
    rw [Arena.next, hblocks, if_pos rfl]
    rfl
  refine ⟨by rw [ha]; rfl, hpage, .cons (hnext ▸ .nil), ?_, ?_, ⟨?_, ?_, ?_⟩, ?_⟩
  · intro r hr
    rw [List.mem_singleton.mp hr, hblocks, if_pos rfl]
    rfl
  · exact fun r hr => .inl (List.mem_singleton.mp hr)
  · intro r base end_ hr
    obtain ⟨-, rfl, rfl⟩ := hregion r base end_ hr
    exact ⟨by omega, hfit⟩
  · intro p base end_ hr
    cases (hregion _ _ _ hr).1
  · intro r base end_ r' base' end_' hr hr' hne
    exact absurd ((hregion _ _ _ hr).1.trans (hregion _ _ _ hr').1.symm) hne
  · have hcb : a.currentBlock = .first := by rw [ha]; rfl
    have hcurr : a.curr = buf := by rw [ha]; rfl
    have hend : a.end_ = buf + size := by rw [ha]; exact Nat.mod_eq_of_lt hfit
    rw [hcb, hcurr, hend]
    exact ⟨rfl, buf, hfirst, Nat.le_refl _, by omega⟩

theorem arenaOk_created (h : Created a) (hpage : PowerOfTwo a.pageSize) : ArenaOk a [.first] 0 := by
  cases h with
  | init hfit => exact arenaOk_single _ _ true false hfit hpage rfl
  | @create pageSize staticBuffer reserveSize inUse buf a hstatic hbuf hcreate =>
    unfold arenaCreate at hcreate
    split at hcreate
    · cases hcreate
      exact arenaOk_single staticBuffer staticBufferSize true true hstatic hpage rfl
    · cases buf with
      | none => cases hcreate
      | some p =>
        cases hcreate
        refine arenaOk_single p _ false true (hbuf p rfl) hpage ?_
        simp only [arenaInit, Arena.mk.injEq, true_and, and_true]
        funext r
        split <;> rfl

/-- A proper call returns and keeps the invariant. -/
theorem Sound.perform (h : Sound s chain n) {op : Op} (hproper : s.Proper op) :
    ∃ s', s.perform op = some s' ∧ ∃ chain' m, Sound s' chain' m := by
  cases op with
  | allocAlign size alignment slab =>
    obtain ⟨res, hres, hserved, hnull⟩ := h.arena.allocAlign hproper
    exact ⟨_, by rw [Ledger.perform, hres]; rfl, h.add hserved hnull⟩
  | alloc size slab =>
    obtain ⟨res, hres, hserved, hnull⟩ := h.arena.allocAlign hproper
    exact ⟨_, by rw [Ledger.perform, arenaAlloc, hres]; rfl, h.add hserved hnull⟩
  | allocUnaligned size slab =>
    obtain ⟨res, hres, hserved, hnull⟩ := h.arena.allocAlign hproper
    refine ⟨_, ?_, h.add hserved hnull⟩
    rw [Ledger.perform, arenaAllocUnaligned_eq h.arena.curr_lt, hres]
    rfl
  | reallocNull newSize alignment slab =>
    obtain ⟨res, hres, hserved, hnull⟩ := h.arena.allocAlign hproper
    exact ⟨_, by rw [Ledger.perform, arenaRealloc, hres]; rfl, h.add hserved hnull⟩
  | realloc i newSize slab =>
    obtain ⟨old, hi, hwrap, hlast, hother⟩ := hproper
    obtain ⟨res, hres, hsound⟩ := h.realloc hi hwrap hlast hother
    refine ⟨_, ?_, hsound⟩
    simp only [Ledger.perform, hi, hres, Option.map_some]
  | reset =>
    obtain ⟨a, ha, hsound⟩ := h.reset
    exact ⟨_, by rw [Ledger.perform, ha]; rfl, chain, 0, hsound⟩
  | save => exact ⟨_, rfl, chain, n, h.save⟩
  | restore i =>
    obtain ⟨e, hi⟩ : ∃ e, s.stack[i]? = some e := ⟨_, List.getElem?_eq_getElem hproper⟩
    obtain ⟨k, hsound⟩ := h.restore hi
    refine ⟨_, ?_, chain, k, hsound⟩
    simp only [Ledger.perform, hi]

theorem Sound.disjointed (h : Sound s chain n) : Disjointed s := by
  refine ⟨h.disjoint, fun x hx => ⟨(h.aligned x hx).1, ?_⟩⟩
  obtain ⟨-, r, base, end_, -, hr, hlow, hhigh, -⟩ := h.before x hx
  exact ⟨r, base, end_, hr, hlow, hhigh⟩

/-- In every run, live allocations are pairwise disjoint, aligned as requested and within the
usable region of one block each, and every further call returns. -/
theorem live_disjoint (h : Reach ledgerSystem AnyStep s) :
    Disjointed s ∧ ∀ op, s.Proper op → s.perform op ≠ none := by
  have hinv : ∃ chain n, Sound s chain n := by
    refine Reach.invariant (fun s => ∃ chain n, Sound s chain n) ?_ ?_ h
    · rintro s ⟨hcreated, hpage, hlive, hstack⟩
      refine ⟨[.first], 0, arenaOk_created hcreated hpage, ?_, ?_, ?_, ?_, ?_⟩
      all_goals simp [hlive, hstack]
    · rintro s op s' ⟨chain, n, hsound⟩ - ⟨hproper, hstep⟩
      obtain ⟨s'', hstep', hinv⟩ := hsound.perform hproper
      rw [hstep] at hstep'
      cases hstep'
      exact hinv
  obtain ⟨chain, n, hsound⟩ := hinv
  refine ⟨hsound.disjointed, fun op hproper hnone => ?_⟩
  obtain ⟨s', hstep, -⟩ := hsound.perform hproper
  rw [hnone] at hstep
  cases hstep

/-- A request that fits the current block. -/
theorem request_here (halign : PowerOfTwo alignment) (hcurr : a.curr + alignment ≤ wordSize)
    (hwrap : alignUp a.curr alignment + size < wordSize)
    (hfit : alignUp a.curr alignment + size ≤ a.end_) : Request a size alignment none :=
  fun _ => ⟨halign, ⟨⟨hcurr, hwrap⟩, fun hfull => absurd hfull (Nat.not_lt.mpr hfit)⟩, nofun⟩

/-- Two allocations in a buffer of 64 bytes. -/
theorem live_disjoint_two : ∃ s, Reach ledgerSystem AnyStep s ∧
    s.live.map (fun x => (x.ptr, x.size)) = [(0x10014, 5), (0x10000, 20)] ∧ Disjointed s := by
  have hinit : Reach ledgerSystem AnyStep ⟨arenaInit 4096 0x10000 64, [], [], 0⟩ :=
    .init ⟨.init (by decide), ⟨12, by decide, rfl⟩, rfl, rfl⟩
  have hfirst : (Ledger.perform ⟨arenaInit 4096 0x10000 64, [], [], 0⟩
      (.allocAlign 20 16 none)).map (fun s => (s.arena.curr, s.arena.end_)) =
      some (0x10014, 0x10040) := by decide +kernel
  obtain ⟨s₁, hs₁, hfacts⟩ := Option.map_eq_some_iff.mp hfirst
  simp only [Prod.mk.injEq] at hfacts
  have hsecond : (Ledger.perform ⟨arenaInit 4096 0x10000 64, [], [], 0⟩
      (.allocAlign 20 16 none) >>= fun s => s.perform (.allocUnaligned 5 none)).map
        (fun s => s.live.map fun x => (x.ptr, x.size)) =
      some [(0x10014, 5), (0x10000, 20)] := by decide +kernel
  rw [hs₁] at hsecond
  obtain ⟨s₂, hs₂, hlive⟩ := Option.map_eq_some_iff.mp hsecond
  have hreach₁ : Reach ledgerSystem AnyStep s₁ := by
    refine hinit.step trivial ⟨?_, hs₁⟩
    exact request_here ⟨4, by decide, rfl⟩ (by decide +kernel) (by decide +kernel)
      (by decide +kernel)
  have hreach₂ : Reach ledgerSystem AnyStep s₂ := by
    refine hreach₁.step (a := .allocUnaligned 5 none) trivial ⟨?_, hs₂⟩
    refine request_here ⟨0, by decide, rfl⟩ ?_ ?_ ?_
    all_goals rw [hfacts.1]
    · decide +kernel
    · decide +kernel
    · rw [hfacts.2]
      decide +kernel
  exact ⟨s₂, hreach₂, hlive, (live_disjoint hreach₂).1⟩

end Solidc.Alloc
