import Solidc.Lib.Align

/-! # The arena allocator

Addresses are numbers below 2^64, with wrapping arithmetic. The headers of the blocks are in
`blocks`; reading a header that is not there has no value, and `none` also stands for a walk
along the chain that does not end. A call that may reach `aligned_alloc_xp` gets the address
that this returns, or `none` for `NULL`.

* `arenaInit`, `arenaCreate`, `arenaDestroy` — the life of an arena;
* `arenaAllocSlow`, `arenaAllocAlign`, `arenaAllocUnaligned`, `arenaRealloc` — allocation;
* `arenaReset`, `arenaSave`, `arenaRestore` — moving the cursor back.
-/

namespace Solidc.Alloc

open CLib

/-- `ARENA_DEFAULT_ALIGN`. -/
def arenaDefaultAlign : Nat := 16

/-- `ARENA_MIN_BLOCK_SIZE`. -/
def arenaMinBlockSize : Nat := 64 * 1024

/-- `ARENA_MAX_BLOCK_SIZE`. -/
def arenaMaxBlockSize : Nat := 8 * 1024 * 1024

/-- `STATIC_BUFFER_SIZE`. -/
def staticBufferSize : Nat := 1024 * 1024

/-- `sizeof(ArenaBlock)`. -/
def sizeofArenaBlock : Nat := 32

/-- A pointer to a block header: the one embedded in the arena, or the start of a slab. -/
inductive BlockRef where
  | first
  | slab (addr : Nat)
  deriving DecidableEq

structure ArenaBlock where
  next : Option BlockRef
  base : Nat
  end_ : Nat
  isStatic : Bool

/-- `Arena`, with the headers of its blocks and the slabs that it has obtained. -/
structure Arena where
  curr : Nat
  end_ : Nat
  currentBlock : BlockRef
  head : BlockRef
  pageSize : Nat
  totalCommitted : Nat
  heapAllocated : Bool
  blocks : BlockRef → Option ArenaBlock
  /-- Address and size of each slab, the latest first. -/
  slabs : List (Nat × Nat)

structure ArenaCheckpoint where
  savedCurr : Nat
  savedEnd : Nat
  savedBlock : BlockRef

/-- The link of a block. -/
def Arena.next (a : Arena) (r : BlockRef) : Option BlockRef := (a.blocks r).bind (·.next)

/-! ## Life cycle -/

def arenaInit (pageSize buf size : Nat) : Arena where
  curr := buf
  end_ := (buf + size) % wordSize
  currentBlock := .first
  head := .first
  pageSize := pageSize
  totalCommitted := size
  heapAllocated := false
  blocks := fun r => if r = .first then some ⟨none, buf, (buf + size) % wordSize, true⟩ else none
  slabs := []

/-- `arena_create`: the static buffer if it is free and large enough, else a buffer of its own
at the address that `aligned_alloc_xp` returns. -/
def arenaCreate (pageSize staticBuffer : Nat) (staticBufferInUse : Bool) (reserveSize : Nat)
    (buf : Option Nat) : Option Arena :=
  if !staticBufferInUse && decide (reserveSize ≤ staticBufferSize) then
    some { arenaInit pageSize staticBuffer staticBufferSize with heapAllocated := true }
  else
    match buf with
    | none => none
    | some p =>
      let a := arenaInit pageSize p
        (alignUp (if reserveSize > 0 then reserveSize else arenaMinBlockSize) pageSize)
      some { a with
        heapAllocated := true
        blocks := fun r => (a.blocks r).map fun b => { b with isStatic := false } }

/-- What `arena_destroy` passes to `aligned_free_xp`. -/
inductive Freed where
  | buffer (base : Nat)
  | block (r : BlockRef)
  | arena
  deriving DecidableEq

/-- The loop of `arena_destroy`. A chain has at most one block more than there are slabs. -/
def freeChain (a : Arena) : Nat → Option BlockRef → Option (List BlockRef)
  | _, none => some []
  | 0, some _ => none
  | fuel + 1, some r =>
    match a.blocks r with
    | none => none
    | some b => (freeChain a fuel b.next).map (r :: ·)

def arenaDestroy (a : Arena) : Option (List Freed) :=
  match a.blocks a.head with
  | none => none
  | some b =>
    match freeChain a (a.slabs.length + 1) b.next with
    | none => none
    | some rs => some ((if b.isStatic then [] else [.buffer b.base]) ++ rs.map .block ++
        if a.heapAllocated then [.arena] else [])

/-! ## Allocation -/

/-- The loop of `_arena_alloc_slow` over cached blocks: the first one with room, and the aligned
address in it. -/
def findCached (a : Arena) (size alignment : Nat) :
    Nat → Option BlockRef → Option (Option (BlockRef × ArenaBlock × Nat))
  | _, none => some none
  | 0, some _ => none
  | fuel + 1, some r =>
    match a.blocks r with
    | none => none
    | some b =>
      if (alignUp b.base alignment + size) % wordSize ≤ b.end_ then
        some (some (r, b, alignUp b.base alignment))
      else findCached a size alignment fuel b.next

/-- The size of a new slab after a block of `capacity` bytes. -/
def nextSize (a : Arena) (capacity size alignment : Nat) : Nat :=
  let needed := (sizeofArenaBlock + (alignment + (wordSize - 1)) + size) % wordSize
  let doubled := if capacity ≤ arenaMaxBlockSize / 2 then capacity * 2 else arenaMaxBlockSize
  alignUp (max (max doubled needed) arenaMinBlockSize) a.pageSize

/-- The headers after a new slab has been linked behind the current block. -/
def linkSlab (a : Arena) (current : ArenaBlock) (ptr slabSize : Nat) : BlockRef → Option ArenaBlock :=
  fun r =>
    if r = .slab ptr then
      some ⟨none, (ptr + sizeofArenaBlock) % wordSize, (ptr + slabSize) % wordSize, false⟩
    else if r = a.currentBlock then some { current with next := some (.slab ptr) }
    else a.blocks r

/-- `_arena_alloc_slow`. -/
def arenaAllocSlow (a : Arena) (slab : Option Nat) (size alignment : Nat) :
    Option (Arena × Option Nat) :=
  match a.blocks a.currentBlock with
  | none => none
  | some current =>
    match findCached a size alignment (a.slabs.length + 1) current.next with
    | none => none
    | some (some (r, b, aligned)) =>
      some ({ a with
        currentBlock := r
        curr := (aligned + size) % wordSize
        end_ := b.end_ }, some aligned)
    | some none =>
      match slab with
      | none => some (a, none)
      | some ptr =>
        let slabSize := nextSize a (current.end_ - current.base) size alignment
        let aligned := alignUp ((ptr + sizeofArenaBlock) % wordSize) alignment
        some ({ a with
          blocks := linkSlab a current ptr slabSize
          slabs := (ptr, slabSize) :: a.slabs
          currentBlock := .slab ptr
          totalCommitted := a.totalCommitted + slabSize
          curr := (aligned + size) % wordSize
          end_ := (ptr + slabSize) % wordSize }, some aligned)

def arenaAllocAlign (a : Arena) (slab : Option Nat) (size alignment : Nat) :
    Option (Arena × Option Nat) :=
  if size = 0 then some (a, none)
  else if (alignUp a.curr alignment + size) % wordSize ≤ a.end_ then
    some ({ a with curr := (alignUp a.curr alignment + size) % wordSize },
      some (alignUp a.curr alignment))
  else arenaAllocSlow a slab size alignment

def arenaAlloc (a : Arena) (slab : Option Nat) (size : Nat) : Option (Arena × Option Nat) :=
  arenaAllocAlign a slab size arenaDefaultAlign

def arenaAllocUnaligned (a : Arena) (slab : Option Nat) (size : Nat) :
    Option (Arena × Option Nat) :=
  if size = 0 then some (a, none)
  else if (a.curr + size) % wordSize ≤ a.end_ then
    some ({ a with curr := (a.curr + size) % wordSize }, some a.curr)
  else arenaAllocSlow a slab size 1

/-- `arena_realloc`. The bytes that it copies are not modelled. -/
def arenaRealloc (a : Arena) (slab oldPtr : Option Nat) (oldSize newSize alignment : Nat) :
    Option (Arena × Option Nat) :=
  match oldPtr with
  | none => arenaAllocAlign a slab newSize alignment
  | some old =>
    if oldSize = 0 then arenaAllocAlign a slab newSize alignment
    else if newSize = 0 then
      if (old + oldSize) % wordSize = a.curr then some ({ a with curr := old }, none)
      else some (a, none)
    else if (old + oldSize) % wordSize = a.curr ∧
        (newSize ≤ oldSize ∨ (old + newSize) % wordSize ≤ a.end_) then
      some ({ a with curr := (old + newSize) % wordSize }, some old)
    else arenaAllocAlign a slab newSize alignment

/-! ## Moving back -/

def arenaReset (a : Arena) : Option Arena :=
  match a.blocks a.head with
  | none => none
  | some b => some { a with currentBlock := a.head, curr := b.base, end_ := b.end_ }

def arenaSave (a : Arena) : ArenaCheckpoint := ⟨a.curr, a.end_, a.currentBlock⟩

def arenaRestore (a : Arena) (cp : ArenaCheckpoint) : Arena :=
  { a with curr := cp.savedCurr, end_ := cp.savedEnd, currentBlock := cp.savedBlock }

end Solidc.Alloc
