import Solidc.Arena.Disjoint

/-! # Requests that wrap around

The bounds of the allocator are tested on sums of machine words. A request near the end of the
address space makes such a sum small, so that the test passes.

* `nextSize_lt` — a size that wraps gives a slab that is too small for the request;
* `findCached_eq` — the cached block that is taken is the first one that passes the test;
* `within_iff` — for each entry point, whether what is handed out lies in its block.
-/

namespace Solidc.Alloc

open CLib

/-! ## The property -/

/-- The entry points. -/
inductive Entry where
  | align (alignment : Nat)
  | unaligned
  | slow (alignment : Nat)

def Entry.alignment : Entry → Nat
  | .align alignment => alignment
  | .unaligned => 1
  | .slow alignment => alignment

def Entry.call (a : Arena) (slab : Option Nat) (size : Nat) : Entry → Option (Arena × Option Nat)
  | .align alignment => arenaAllocAlign a slab size alignment
  | .unaligned => arenaAllocUnaligned a slab size
  | .slow alignment => arenaAllocSlow a slab size alignment

/-- The `size` bytes that are handed out lie in the usable region of the block at which the
cursor stands then. `NULL`, which is also the address 0, leaves the arena unchanged. -/
def Within (a : Arena) (size : Nat) (res : Arena × Option Nat) : Prop :=
  match res.2 with
  | none => res.1 = a
  | some p =>
    if p = 0 then res.1 = a
    else ∃ base end_, res.1.region res.1.currentBlock = some (base, end_) ∧
      base ≤ p ∧ p + size ≤ end_

/-! ## The condition -/

/-- The test for room in a block, with the sums of the machine. -/
def passes (base end_ size alignment : Nat) : Bool :=
  decide ((alignUp base alignment + size) % wordSize ≤ end_)

/-- The sums of the test do not wrap, and do not start at `NULL`. -/
def Exact (base size alignment : Nat) : Prop :=
  0 < base ∧ base + alignment ≤ wordSize ∧ alignUp base alignment + size < wordSize

/-- The first of the cached blocks that passes the test does so without wrapping; if none passes
and there is memory for a slab, header, padding and request rounded up to pages do not wrap. -/
def SlowExact (a : Arena) (later : List BlockRef) (slab : Option Nat) (size alignment : Nat) :
    Prop :=
  match later.find? fun r => (a.blocks r).any fun b => passes b.base b.end_ size alignment with
  | some r => ∀ b ∈ a.blocks r, Exact b.base size alignment
  | none => slab = none ∨ sizeofArenaBlock + alignment + size + a.pageSize ≤ wordSize + 1

/-- If the test at the cursor passes, it does so without wrapping, or `NULL` is returned and the
cursor happens to stay where it is. -/
def AllocExact (a : Arena) (later : List BlockRef) (slab : Option Nat) (size alignment : Nat) :
    Prop :=
  if passes a.curr a.end_ size alignment then
    Exact a.curr size alignment ∨ wordSize < a.curr + alignment ∧ a.curr = size
  else SlowExact a later slab size alignment

/-- The condition for an entry point; `later` are the blocks behind the current one. -/
def Entry.Exact (a : Arena) (later : List BlockRef) (slab : Option Nat) (size : Nat) :
    Entry → Prop
  | .align alignment => AllocExact a later slab size alignment
  | .unaligned => AllocExact a later slab size 1
  | .slow alignment => SlowExact a later slab size alignment

/-! ## Sizes -/

variable {a : Arena} {chain : List BlockRef} {n size alignment : Nat} {slab : Option Nat}

theorem PowerOfTwo.le (h : PowerOfTwo alignment) : 0 < alignment ∧ alignment ≤ 2 ^ 63 := by
  obtain ⟨k, hk, rfl⟩ := h
  exact ⟨Nat.two_pow_pos k, Nat.pow_le_pow_right (by decide) (by omega)⟩

/-- A multiple of a power of two below twice its half. -/
theorem le_half_of_dvd {x page total : Nat} (hpage : PowerOfTwo page) (hdvd : page ∣ x)
    (hlt : x < total + page) (htotal : total ≤ 2 ^ 23) : x ≤ 2 ^ 63 := by
  obtain ⟨k, hk, rfl⟩ := hpage
  obtain ⟨c, rfl⟩ := hdvd
  by_cases htop : k = 63
  · subst htop
    have hc : c < 2 := by
      by_contra hc
      have := Nat.mul_le_mul_left (2 ^ 63) (not_lt.mp hc)
      omega
    have := Nat.mul_le_mul_left (2 ^ 63) (Nat.le_of_lt_succ hc)
    omega
  · have hpow : 2 ^ k ≤ 2 ^ 62 := Nat.pow_le_pow_right (by decide) (by omega)
    omega

/-- A size that wraps, before or in the rounding, is too small for header and request. -/
theorem nextSize_lt (hpage : PowerOfTwo a.pageSize) (halign : PowerOfTwo alignment)
    (hword : size < wordSize) (capacity : Nat)
    (hwrap : wordSize + 1 < sizeofArenaBlock + alignment + size + a.pageSize) :
    nextSize a capacity size alignment < size + sizeofArenaBlock := by
  obtain ⟨hpos, hhalf⟩ := halign.le
  obtain ⟨hpagePos, hpageHalf⟩ := hpage.le
  have hdouble := doubled_le capacity
  unfold nextSize
  dsimp only
  generalize (if capacity ≤ arenaMaxBlockSize / 2 then capacity * 2 else arenaMaxBlockSize) =
    doubled at hdouble ⊢
  have hneeded : sizeofArenaBlock + (alignment + (wordSize - 1)) + size =
      (sizeofArenaBlock + alignment - 1 + size) + wordSize := by
    simp only [sizeofArenaBlock]
    omega
  rw [hneeded, Nat.add_mod_right]
  have hmin : arenaMinBlockSize ≤ 2 ^ 23 := by decide
  have hheader : sizeofArenaBlock = 32 := rfl
  have hspace : wordSize = 2 ^ 64 := rfl
  by_cases hfits : sizeofArenaBlock + alignment - 1 + size < wordSize
  · -- the rounding wraps
    rw [Nat.mod_eq_of_lt hfits]
    have hmax : max (max doubled (sizeofArenaBlock + alignment - 1 + size)) arenaMinBlockSize =
        sizeofArenaBlock + alignment - 1 + size := by omega
    rw [hmax, alignUp_wraps hpage (by omega) (by omega)]
    omega
  · -- the sum of header, padding and request wraps
    have hmod : (sizeofArenaBlock + alignment - 1 + size) % wordSize =
        sizeofArenaBlock + alignment - 1 + size - wordSize := by
      rw [Nat.mod_eq_sub_mod (by omega), Nat.mod_eq_of_lt (by omega)]
    rw [hmod]
    generalize htotal : max (max doubled (sizeofArenaBlock + alignment - 1 + size - wordSize))
      arenaMinBlockSize = total
    by_cases hup : total + a.pageSize ≤ wordSize
    · obtain ⟨-, hlt, hdvd⟩ := alignUp_spec hpage hup
      by_cases hsmall : total ≤ 2 ^ 23
      · have := le_half_of_dvd hpage hdvd hlt hsmall
        omega
      · omega
    · rw [alignUp_wraps hpage (by omega) (by omega)]
      omega

/-! ## The test for room -/

variable {base end_ : Nat}

/-- An address that is rounded up to something other than 0 does not wrap. -/
theorem alignUp_ne_zero_iff (halign : PowerOfTwo alignment) (hbase : base < wordSize) :
    alignUp base alignment ≠ 0 ↔ 0 < base ∧ base + alignment ≤ wordSize := by
  obtain ⟨hpos, hhalf⟩ := halign.le
  have hspace : wordSize = 2 ^ 64 := rfl
  constructor
  · intro hne
    constructor
    · by_contra hzero
      obtain rfl : base = 0 := by omega
      obtain ⟨-, hlt, hdvd⟩ := alignUp_spec (x := 0) halign (by omega)
      exact hne (Nat.eq_zero_of_dvd_of_lt hdvd (by omega))
    · by_contra hwrap
      exact hne (alignUp_wraps halign hbase (by omega))
  · rintro ⟨hbase', hwrap⟩
    have := (alignUp_spec halign hwrap).1
    omega

theorem passes_iff :
    passes base end_ size alignment = true ↔ (alignUp base alignment + size) % wordSize ≤ end_ :=
  decide_eq_true_iff

/-- In a block that passes the test, a request fits exactly if the sums do not wrap. -/
theorem fits_iff (halign : PowerOfTwo alignment) (hbase : base < wordSize) (hend : end_ < wordSize)
    (hpass : passes base end_ size alignment = true) :
    (alignUp base alignment ≠ 0 ∧ base ≤ alignUp base alignment ∧
      alignUp base alignment + size ≤ end_) ↔ Exact base size alignment := by
  rw [passes_iff] at hpass
  rw [alignUp_ne_zero_iff halign hbase, Exact]
  constructor
  · rintro ⟨⟨hpos, hwrap⟩, -, hfit⟩
    exact ⟨hpos, hwrap, by omega⟩
  · rintro ⟨hpos, hwrap, hlt⟩
    rw [Nat.mod_eq_of_lt hlt] at hpass
    exact ⟨⟨hpos, hwrap⟩, (alignUp_spec halign hwrap).1, hpass⟩

theorem within_iff_of_ne {a' : Arena} {p : Nat}
    (hregion : a'.region a'.currentBlock = some (base, end_)) (hne : a' ≠ a) :
    Within a size (a', some p) ↔ p ≠ 0 ∧ base ≤ p ∧ p + size ≤ end_ := by
  simp only [Within, hregion, Option.some.injEq, Prod.mk.injEq]
  by_cases hp : p = 0
  · simp [hp, hne]
  · simp only [ne_eq, hp, not_false_eq_true, true_and]
    constructor
    · rintro ⟨base', end', ⟨rfl, rfl⟩, hin⟩
      exact hin
    · exact fun hin => ⟨base, end_, ⟨rfl, rfl⟩, hin⟩

/-! ## The slow path -/

/-- The search takes the first block that passes the test. -/
theorem findCached_eq {o : Option BlockRef} {l : List BlockRef} {fuel : Nat}
    (hl : Linked a.next o l) (hp : ∀ r ∈ l, (a.blocks r).isSome) (hfuel : l.length ≤ fuel) :
    findCached a size alignment fuel o =
      some ((l.find? fun r => (a.blocks r).any fun b => passes b.base b.end_ size alignment).bind
        fun r => (a.blocks r).map fun b => (r, b, alignUp b.base alignment)) := by
  induction fuel generalizing o l with
  | zero =>
    cases hl with
    | nil => rfl
    | cons _ => simp at hfuel
  | succ fuel ih =>
    cases hl with
    | nil => rfl
    | @cons r l hl =>
      obtain ⟨b, hb⟩ := Option.isSome_iff_exists.mp (hp r List.mem_cons_self)
      rw [next_eq hb] at hl
      rw [findCached, hb, List.find?_cons, hb, Option.any_some]
      dsimp only
      by_cases hfit : passes b.base b.end_ size alignment = true
      · rw [if_pos (passes_iff.mp hfit), hfit]
        simp [hb]
      · rw [if_neg (mt passes_iff.mpr hfit), Bool.eq_false_iff.mpr hfit]
        exact ih hl (fun r hr => hp r (List.mem_cons_of_mem _ hr)) (by simpa using hfuel)

/-- A cached block that passes the test. -/
theorem cached_within (h : ArenaOk a chain n) (halign : PowerOfTwo alignment) {r : BlockRef}
    {b : ArenaBlock} {curr : Nat} (hr : r ∈ chain.drop (n + 1)) (hb : a.blocks r = some b)
    (hpass : passes b.base b.end_ size alignment = true) :
    Within a size ({ a with currentBlock := r, curr := curr, end_ := b.end_ },
      some (alignUp b.base alignment)) ↔ Exact b.base size alignment := by
  have hord := h.layout.ordered _ _ _ (region_eq hb)
  have hmoved : ({ a with currentBlock := r, curr := curr, end_ := b.end_ } : Arena) ≠ a := by
    intro heq
    have hcur : r = a.currentBlock := congrArg Arena.currentBlock heq
    have hnodup := h.linked.nodup
    rw [h.after.1, List.nodup_append, List.nodup_cons] at hnodup
    exact hnodup.2.1.1 (hcur ▸ hr)
  rw [within_iff_of_ne (region_eq hb) hmoved, fits_iff halign (by omega) hord.2 hpass]

/-- A new slab, which is as large as the wrapped size says. -/
theorem slab_within (h : ArenaOk a chain n) (halign : PowerOfTwo alignment) (hpos : 0 < size)
    (hword : size < wordSize) {current : ArenaBlock} {ptr slabSize curr : Nat}
    (hsize : slabSize = nextSize a (current.end_ - current.base) size alignment)
    (hfresh : FreshSlab a ptr slabSize) :
    Within a size ({ a with
        blocks := linkSlab a current ptr slabSize
        slabs := (ptr, slabSize) :: a.slabs
        currentBlock := .slab ptr
        totalCommitted := a.totalCommitted + slabSize
        curr := curr
        end_ := (ptr + slabSize) % wordSize },
      some (alignUp ((ptr + sizeofArenaBlock) % wordSize) alignment)) ↔
    sizeofArenaBlock + alignment + size + a.pageSize ≤ wordSize + 1 := by
  obtain ⟨hdvd, hspace, -⟩ := hfresh
  obtain ⟨halignPos, -⟩ := halign.le
  have hheader : sizeofArenaBlock = 32 := rfl
  have hword' : wordSize = 2 ^ 64 := rfl
  have hbase : (ptr + sizeofArenaBlock) % wordSize = ptr + sizeofArenaBlock :=
    Nat.mod_eq_of_lt (by omega)
  rw [hbase, Nat.mod_eq_of_lt hspace]
  have hregion : Arena.region { a with
      blocks := linkSlab a current ptr slabSize
      slabs := (ptr, slabSize) :: a.slabs
      currentBlock := .slab ptr
      totalCommitted := a.totalCommitted + slabSize
      curr := curr
      end_ := ptr + slabSize } (.slab ptr) = some (ptr + sizeofArenaBlock, ptr + slabSize) := by
    simp [Arena.region, linkSlab, hbase, Nat.mod_eq_of_lt hspace]
  rw [within_iff_of_ne hregion]
  · constructor
    · rintro ⟨-, hlow, hhigh⟩
      by_contra hwrap
      have := nextSize_lt h.page halign hword (current.end_ - current.base) (by omega)
      omega
    · intro hfits
      have hge := h.nextSize_ge (current.end_ - current.base) halign hfits
      have hup : ptr + sizeofArenaBlock + alignment ≤ wordSize := by omega
      obtain ⟨hle, hlt, -⟩ := alignUp_spec halign hup
      exact ⟨by omega, hle, by omega⟩
  · intro heq
    have hslabs := congrArg (fun a : Arena => a.slabs.length) heq
    simp at hslabs

theorem slow_within_iff (h : ArenaOk a chain n) (halign : PowerOfTwo alignment) (hpos : 0 < size)
    (hword : size < wordSize) (hslab : ∀ p ∈ slab, slabFor a p size alignment) :
    ∃ res, arenaAllocSlow a slab size alignment = some res ∧
      (Within a size res ↔ SlowExact a (chain.drop (n + 1)) slab size alignment) := by
  have hslow : arenaAllocSlow a slab size alignment ≠ none := h.slow_ne_none
  obtain ⟨⟨a', r⟩, hres⟩ := Option.ne_none_iff_exists'.mp hslow
  refine ⟨_, hres, ?_⟩
  obtain ⟨current, hcurrent, hcases⟩ := arenaAllocSlow_cases hres
  obtain ⟨-, hafter⟩ := h.after
  rw [next_eq hcurrent] at hafter
  have hpresent : ∀ r ∈ chain.drop (n + 1), (a.blocks r).isSome :=
    fun r hr => h.present r (List.drop_subset _ _ hr)
  have hlen := h.length_le
  have hfuel : (chain.drop (n + 1)).length ≤ a.slabs.length + 1 := by
    rw [List.length_drop]
    omega
  rw [findCached_eq hafter hpresent hfuel] at hcases
  rw [SlowExact]
  generalize hfind : List.find? _ (chain.drop (n + 1)) = found at hcases
  cases found with
  | none =>
    -- no cached block
    rcases hcases with ⟨hit, hhit, -⟩ | ⟨-, ⟨rfl, rfl, rfl⟩ | ⟨ptr, slabSize, aligned, rfl, hsize,
      rfl, rfl, rfl⟩⟩
    · cases hhit
    · exact ⟨fun _ => Or.inl rfl, fun _ => rfl⟩
    · have hfresh := hslab ptr rfl current hcurrent
      rw [← hsize] at hfresh
      rw [slab_within h halign hpos hword hsize hfresh]
      exact ⟨Or.inr, fun hor => hor.resolve_left (Option.some_ne_none ptr)⟩
  | some r =>
    have hmem := List.mem_of_find?_eq_some hfind
    obtain ⟨b, hb⟩ := Option.isSome_iff_exists.mp (hpresent r hmem)
    have hpass := List.find?_some hfind
    rw [hb, Option.any_some] at hpass
    rw [Option.bind_some, hb, Option.map_some] at hcases
    rcases hcases with ⟨hit, hhit, rfl, rfl⟩ | ⟨hnone, -⟩
    · obtain rfl := Option.some.inj (Option.some.inj hhit)
      dsimp only
      rw [cached_within h halign hmem hb hpass]
      simp [hb]
    · cases hnone

/-! ## The entry points -/

/-- What is handed out from the current block. -/
theorem within_here {p curr : Nat} (hregion : a.region a.currentBlock = some (base, a.end_))
    (hp : p ≠ 0) :
    Within a size ({ a with curr := curr }, some p) ↔ base ≤ p ∧ p + size ≤ a.end_ := by
  have hregion' : Arena.region { a with curr := curr } a.currentBlock = some (base, a.end_) :=
    hregion
  simp only [Within, if_neg hp, hregion', Option.some.injEq, Prod.mk.injEq]
  constructor
  · rintro ⟨base', end', ⟨rfl, rfl⟩, hin⟩
    exact hin
  · exact fun hin => ⟨base, a.end_, ⟨rfl, rfl⟩, hin⟩

/-- At the cursor the test is made on the current block. -/
theorem here_within (h : ArenaOk a chain n) (halign : PowerOfTwo alignment) (hpos : 0 < size)
    (hword : size < wordSize) (hpass : passes a.curr a.end_ size alignment = true) :
    Within a size ({ a with curr := (alignUp a.curr alignment + size) % wordSize },
      some (alignUp a.curr alignment)) ↔
    Exact a.curr size alignment ∨ wordSize < a.curr + alignment ∧ a.curr = size := by
  obtain ⟨-, base, hregion, hlow, -⟩ := h.cursor
  have hcurr := h.curr_lt
  have hend := (h.layout.ordered _ _ _ hregion).2
  by_cases hzero : alignUp a.curr alignment = 0
  · -- `NULL` is returned, and the cursor is at `size` afterwards
    have hnot : ¬ (0 < a.curr ∧ a.curr + alignment ≤ wordSize) :=
      fun hor => (alignUp_ne_zero_iff halign hcurr).mpr hor hzero
    have hmove : ({ a with curr := (0 + size) % wordSize } : Arena) = a ↔ a.curr = size := by
      rw [Nat.zero_add, Nat.mod_eq_of_lt hword]
      constructor
      · intro heq
        exact (congrArg Arena.curr heq).symm
      · rintro rfl
        rfl
    rw [hzero]
    simp only [Within, if_true, hmove]
    constructor
    · intro heq
      exact Or.inr ⟨by omega, heq⟩
    · rintro (⟨hbase, hwrap, -⟩ | ⟨-, heq⟩)
      · exact absurd ⟨hbase, hwrap⟩ hnot
      · exact heq
  · obtain ⟨hbase, hwrap⟩ := (alignUp_ne_zero_iff halign hcurr).mp hzero
    have hup := (alignUp_spec halign hwrap).1
    have hright : (Exact a.curr size alignment ∨ wordSize < a.curr + alignment ∧ a.curr = size) ↔
        Exact a.curr size alignment := by
      constructor
      · rintro (hexact | ⟨hlt, -⟩)
        · exact hexact
        · omega
      · exact Or.inl
    rw [hright, ← fits_iff halign hcurr hend hpass, within_here hregion hzero]
    constructor
    · rintro ⟨-, hfit⟩
      exact ⟨hzero, hup, hfit⟩
    · rintro ⟨-, -, hfit⟩
      exact ⟨by omega, hfit⟩

theorem alloc_within_iff (h : ArenaOk a chain n) (halign : PowerOfTwo alignment) (hpos : 0 < size)
    (hword : size < wordSize) (hslab : ∀ p ∈ slab, slabFor a p size alignment) :
    ∃ res, arenaAllocAlign a slab size alignment = some res ∧
      (Within a size res ↔ AllocExact a (chain.drop (n + 1)) slab size alignment) := by
  rw [arenaAllocAlign, if_neg (by omega), AllocExact]
  by_cases hpass : passes a.curr a.end_ size alignment = true
  · rw [if_pos (passes_iff.mp hpass), if_pos hpass]
    exact ⟨_, rfl, here_within h halign hpos hword hpass⟩
  · rw [if_neg (mt passes_iff.mpr hpass), if_neg hpass]
    exact slow_within_iff h halign hpos hword hslab

/-- Each entry point hands out bytes within a block, or `NULL` without a change, exactly when no
sum on its way wraps. -/
theorem within_iff (h : ArenaOk a chain n) (e : Entry) (halign : PowerOfTwo e.alignment)
    (hpos : 0 < size) (hword : size < wordSize)
    (hslab : ∀ p ∈ slab, slabFor a p size e.alignment) :
    ∃ res, e.call a slab size = some res ∧
      (Within a size res ↔ e.Exact a (chain.drop (n + 1)) slab size) := by
  cases e with
  | align alignment => exact alloc_within_iff h halign hpos hword hslab
  | unaligned =>
    rw [Entry.call, arenaAllocUnaligned_eq h.curr_lt]
    exact alloc_within_iff h halign hpos hword hslab
  | slow alignment => exact slow_within_iff h halign hpos hword hslab

/-- Twenty bytes in a buffer of 64 bytes. -/
theorem within_twenty : ∃ res, arenaAllocAlign (arenaInit 4096 0x10000 64) none 20 16 = some res ∧
    Within (arenaInit 4096 0x10000 64) 20 res := by
  have hok : ArenaOk (arenaInit 4096 0x10000 64) [.first] 0 :=
    arenaOk_created (.init (by decide)) ⟨12, by decide, rfl⟩
  have hslab : ∀ p ∈ (none : Option Nat), slabFor (arenaInit 4096 0x10000 64) p 20 16 := nofun
  obtain ⟨res, hres, hwithin⟩ := within_iff hok (.align 16) ⟨4, by decide, rfl⟩
    (by decide : 0 < 20) (by decide) hslab
  refine ⟨res, hres, hwithin.mpr ?_⟩
  have hpass : passes (arenaInit 4096 0x10000 64).curr (arenaInit 4096 0x10000 64).end_ 20 16 =
      true := by decide +kernel
  have hexact : Exact (arenaInit 4096 0x10000 64).curr 20 16 :=
    ⟨by decide, by decide, by decide +kernel⟩
  rw [Entry.Exact, AllocExact, if_pos hpass]
  exact Or.inl hexact

/-- A request of `2 ^ 64 - 0x10000` bytes at the cursor `0x10000`: the sum is 0, which is within
the 64 bytes of the buffer, and the pointer to the buffer is returned. -/
theorem wrapped_request :
    ∃ res, arenaAllocAlign (arenaInit 4096 0x10000 64) none (wordSize - 0x10000) 16 = some res ∧
      res.2 = some 0x10000 ∧ (∀ r base end_, res.1.region r = some (base, end_) →
        ¬ (base ≤ 0x10000 ∧ 0x10000 + (wordSize - 0x10000) ≤ end_)) ∧
      ¬ Within (arenaInit 4096 0x10000 64) (wordSize - 0x10000) res := by
  have haligned : alignUp (arenaInit 4096 0x10000 64).curr 16 = 0x10000 := by decide +kernel
  have hpass : (alignUp (arenaInit 4096 0x10000 64).curr 16 + (wordSize - 0x10000)) % wordSize ≤
      (arenaInit 4096 0x10000 64).end_ := by decide +kernel
  have hok : ArenaOk (arenaInit 4096 0x10000 64) [.first] 0 :=
    arenaOk_created (.init (by decide)) ⟨12, by decide, rfl⟩
  -- no block reaches to the end of the address space
  have hout : ∀ r base end_, (arenaInit 4096 0x10000 64).region r = some (base, end_) →
      ¬ (base ≤ 0x10000 ∧ 0x10000 + (wordSize - 0x10000) ≤ end_) := by
    rintro r base end_ hr ⟨-, hle⟩
    have hlt := (hok.layout.ordered r base end_ hr).2
    have hspace : wordSize = 2 ^ 64 := rfl
    omega
  have hcall : arenaAllocAlign (arenaInit 4096 0x10000 64) none (wordSize - 0x10000) 16 =
      some ({ arenaInit 4096 0x10000 64 with
        curr := (0x10000 + (wordSize - 0x10000)) % wordSize }, some 0x10000) := by
    rw [arenaAllocAlign, if_neg (by decide), if_pos hpass, haligned]
  refine ⟨_, hcall, rfl, fun r base end_ hr => hout r base end_ hr, ?_⟩
  · intro hwithin
    rw [Within] at hwithin
    dsimp only at hwithin
    rw [if_neg (by decide)] at hwithin
    obtain ⟨base, end_, hr, hin⟩ := hwithin
    have hfirst : (arenaInit 4096 0x10000 64).region .first = some (base, end_) := hr
    exact hout .first base end_ hfirst hin

end Solidc.Alloc
