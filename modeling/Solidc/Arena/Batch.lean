import Solidc.Lib.Align
import Solidc.Arena.Blocks

/-! # Allocation of a batch

`arena_alloc_batch` makes one region for several blocks. A first loop adds up its size, with an
overflow test for each block but not for the rounding in front of it; a second one goes through
the region again. `alloc` stands for `arena_alloc`; the pointers that are passed in are not NULL.

* `exactTotal` — the size without wrapping;
* `batchPtrs_fit` — if it is a word, the blocks lie one after the other in the region;
* `exists_outside` — if it is none, a block does not lie in the region;
* `batch_sound_iff` — when the batch is what it should be.
-/

namespace Solidc.Alloc

open CLib

/-! ## The code -/

/-- The first loop; `none` when the overflow test refuses. -/
def batchTotal : Nat → List Nat → Option Nat
  | total, [] => some total
  | total, size :: sizes =>
    let rounded := alignUp total arenaDefaultAlign
    if size > wordSize - 1 - rounded then none else batchTotal (rounded + size) sizes

/-- The second loop. -/
def batchPtrs : Nat → List Nat → List Nat
  | _, [] => []
  | cur, size :: sizes =>
    let cur := alignUp cur arenaDefaultAlign
    cur :: batchPtrs ((cur + size) % wordSize) sizes

/-- `arena_alloc_batch`: what is in `out_ptrs` afterwards, and the result. -/
def arenaAllocBatch (alloc : Nat → Option Nat) (sizes outPtrs : List Nat) : List Nat × Bool :=
  if sizes.length = 0 then (outPtrs, false)
  else
    match batchTotal 0 sizes with
    | none => (outPtrs, false)
    | some total =>
      match alloc total with
      | none => (outPtrs, false)
      | some base => (batchPtrs base sizes, true)

/-! ## The property -/

/-- `arena_alloc` returns `NULL`, or an aligned region of the size it is asked for. -/
def CorrectAlloc (alloc : Nat → Option Nat) : Prop :=
  ∀ total base, alloc total = some base →
    0 < base ∧ arenaDefaultAlign ∣ base ∧ base + total < wordSize

/-- Two blocks, each an address and a size. -/
def Apart (x y : Nat × Nat) : Prop := x.1 + x.2 ≤ y.1 ∨ y.1 + y.2 ≤ x.1

/-- The call fails without a change, or its blocks are aligned, apart from each other and within
the region that it got from `arena_alloc`. -/
structure BatchSound (alloc : Nat → Option Nat) (sizes outPtrs : List Nat) : Prop where
  failed : (arenaAllocBatch alloc sizes outPtrs).2 = false →
    (arenaAllocBatch alloc sizes outPtrs).1 = outPtrs
  blocks : (arenaAllocBatch alloc sizes outPtrs).2 = true →
    ∃ total base, batchTotal 0 sizes = some total ∧ alloc total = some base ∧
      (arenaAllocBatch alloc sizes outPtrs).1.length = sizes.length ∧
      ((arenaAllocBatch alloc sizes outPtrs).1.zip sizes).Pairwise Apart ∧
      ∀ x ∈ (arenaAllocBatch alloc sizes outPtrs).1.zip sizes,
        arenaDefaultAlign ∣ x.1 ∧ base ≤ x.1 ∧ x.1 + x.2 ≤ base + total

/-- `total` rounded up to a multiple of 16, without wrapping. -/
def roundUp16 (total : Nat) : Nat := (total + 15) / 16 * 16

/-- The size of the region without wrapping, behind `total` bytes. -/
def exactTotal : Nat → List Nat → Nat
  | total, [] => total
  | total, size :: sizes => exactTotal (roundUp16 total + size) sizes

/-! ## Rounding -/

theorem alignUp_sixteen {x : Nat} (hx : x ≤ wordSize - 16) :
    alignUp x arenaDefaultAlign = roundUp16 x := by
  have hspace : wordSize = 2 ^ 64 := rfl
  have hpow : arenaDefaultAlign = 2 ^ 4 := rfl
  rw [hpow, alignUp_eq (by decide) (by omega)]
  unfold roundUp16
  omega

theorem le_roundUp16 (x : Nat) : x ≤ roundUp16 x := by
  unfold roundUp16
  omega

theorem roundUp16_add {base : Nat} (h : 16 ∣ base) (x : Nat) :
    roundUp16 (base + x) = base + roundUp16 x := by
  unfold roundUp16
  omega

theorem dvd_roundUp16 (x : Nat) : 16 ∣ roundUp16 x := Nat.dvd_mul_left 16 _

theorem le_exactTotal (total : Nat) (sizes : List Nat) : total ≤ exactTotal total sizes := by
  induction sizes generalizing total with
  | nil => exact Nat.le_refl total
  | cons size sizes ih =>
    have hround := le_roundUp16 total
    have htail := ih (roundUp16 total + size)
    rw [exactTotal]
    omega

/-! ## Without wrapping -/

variable {base total : Nat} {sizes : List Nat}

/-- A total in front of a block that still leads to a word leaves room for its rounding. -/
theorem le_of_exactTotal_cons {size : Nat} (h : exactTotal total (size :: sizes) < wordSize) :
    total ≤ wordSize - 16 ∧ roundUp16 total + size < wordSize := by
  have hle := le_exactTotal (roundUp16 total + size) sizes
  have hspace : wordSize = 2 ^ 64 := rfl
  rw [exactTotal] at h
  have hround : roundUp16 total < wordSize := by omega
  refine ⟨?_, by omega⟩
  unfold roundUp16 at hround
  omega

theorem batchTotal_eq (h : exactTotal total sizes < wordSize) :
    batchTotal total sizes = some (exactTotal total sizes) := by
  induction sizes generalizing total with
  | nil => rfl
  | cons size sizes ih =>
    obtain ⟨hround, hsum⟩ := le_of_exactTotal_cons h
    rw [batchTotal, alignUp_sixteen hround, if_neg (by omega), ih h, exactTotal]

/-- Every block lies behind the ones before it and within the region. -/
theorem batchPtrs_fit (hbase : 16 ∣ base) (h : base + exactTotal total sizes < wordSize) :
    (batchPtrs (base + total) sizes).length = sizes.length ∧
    ((batchPtrs (base + total) sizes).zip sizes).Pairwise Apart ∧
    ∀ x ∈ (batchPtrs (base + total) sizes).zip sizes,
      16 ∣ x.1 ∧ base + total ≤ x.1 ∧ x.1 + x.2 ≤ base + exactTotal total sizes := by
  induction sizes generalizing total with
  | nil => simp [batchPtrs]
  | cons size sizes ih =>
    have hle := le_exactTotal (roundUp16 total + size) sizes
    have hround := le_roundUp16 total
    have hspace : wordSize = 2 ^ 64 := rfl
    rw [exactTotal] at h ⊢
    have hroom : base + total ≤ wordSize - 16 := by
      have hsum : base + roundUp16 total < wordSize := by omega
      rw [← roundUp16_add hbase] at hsum
      unfold roundUp16 at hsum
      omega
    have hcur : alignUp (base + total) arenaDefaultAlign = base + roundUp16 total := by
      rw [alignUp_sixteen hroom, roundUp16_add hbase]
    have hnext : (base + roundUp16 total + size) % wordSize =
        base + (roundUp16 total + size) := by
      rw [Nat.mod_eq_of_lt (by omega), Nat.add_assoc]
    -- the blocks behind this one start where it ends or later
    obtain ⟨hlen, hapart, hall⟩ := ih h
    rw [batchPtrs, hcur, hnext]
    refine ⟨by simp [hlen], ?_, ?_⟩
    · rw [List.zip_cons_cons, List.pairwise_cons]
      refine ⟨fun x hx => Or.inl ?_, hapart⟩
      have hbehind := (hall x hx).2.1
      dsimp only
      omega
    · rw [List.zip_cons_cons, List.forall_mem_cons]
      refine ⟨⟨?_, ?_, ?_⟩, fun x hx => ?_⟩
      · exact (Nat.dvd_add_right hbase).mpr (dvd_roundUp16 total)
      · dsimp only
        omega
      · dsimp only
        omega
      · obtain ⟨hdvd, hlow, hhigh⟩ := hall x hx
        exact ⟨hdvd, by omega, hhigh⟩

/-! ## With wrapping -/

/-- Rounding commutes with an aligned base, also around the end of the address space. -/
theorem alignUp_add (hbase : 16 ∣ base) (hlow : base < wordSize) (hroom : total ≤ wordSize - 16) :
    alignUp ((base + total) % wordSize) arenaDefaultAlign =
      (base + roundUp16 total) % wordSize := by
  have hspace : wordSize = 2 ^ 64 := rfl
  have hadd := roundUp16_add hbase total
  by_cases hnear : base + total ≤ wordSize - 16
  · have hlt : base + roundUp16 total < wordSize := by
      rw [← hadd]
      unfold roundUp16
      omega
    rw [Nat.mod_eq_of_lt (by omega), alignUp_sixteen hnear, hadd, Nat.mod_eq_of_lt hlt]
  · by_cases hover : base + total < wordSize
    · -- the last 15 addresses round up to 0
      have hend : base + roundUp16 total = wordSize := by
        rw [← hadd]
        unfold roundUp16
        omega
      have hpow : ∃ k < 64, arenaDefaultAlign = 2 ^ k := ⟨4, by decide, rfl⟩
      have hsixteen : arenaDefaultAlign = 16 := rfl
      rw [Nat.mod_eq_of_lt hover, alignUp_wraps hpow hover (by omega), hend, Nat.mod_self]
    · have hback : roundUp16 (base + total - wordSize) = base + roundUp16 total - wordSize := by
        rw [← hadd]
        unfold roundUp16
        omega
      have hround : roundUp16 total ≤ wordSize - 16 := by
        unfold roundUp16
        omega
      have hle := le_roundUp16 total
      rw [Nat.mod_eq_sub_mod (by omega), Nat.mod_eq_of_lt (by omega), alignUp_sixteen (by omega),
        hback, Nat.mod_eq_sub_mod (by omega), Nat.mod_eq_of_lt (by omega)]

/-- If the size wraps without being refused, a block in front of the wrap does not lie in any
region that starts at `base` and ends within the address space. -/
theorem exists_outside {result limit cur : Nat} (hbase : 16 ∣ base) (hpos : 0 < base)
    (hlow : base < wordSize) (hlimit : limit < wordSize) (hroom : total ≤ wordSize - 16)
    (htotal : batchTotal total sizes = some result) (hwrap : wordSize ≤ exactTotal total sizes)
    (hcur : cur = (base + total) % wordSize) :
    ∃ x ∈ (batchPtrs cur sizes).zip sizes, ¬ (base ≤ x.1 ∧ x.1 + x.2 ≤ limit) := by
  have hspace : wordSize = 2 ^ 64 := rfl
  induction sizes generalizing total cur with
  | nil =>
    rw [exactTotal] at hwrap
    omega
  | cons size sizes ih =>
    have hup : roundUp16 total ≤ wordSize - 16 := by
      unfold roundUp16
      omega
    rw [batchTotal, alignUp_sixteen hroom] at htotal
    split at htotal
    · cases htotal
    · next hfits =>
      rw [exactTotal] at hwrap
      rw [batchPtrs, hcur, alignUp_add hbase hlow hroom, List.zip_cons_cons]
      by_cases hmore : roundUp16 total + size ≤ wordSize - 16
      · have hnext : ((base + roundUp16 total) % wordSize + size) % wordSize =
            (base + (roundUp16 total + size)) % wordSize := by
          rw [Nat.mod_add_mod, Nat.add_assoc]
        obtain ⟨x, hx, hout⟩ := ih hmore htotal hwrap hnext
        exact ⟨x, List.mem_cons_of_mem _ hx, hout⟩
      · -- the next rounding wraps, so this block ends beyond the address space or starts below
        refine ⟨_, List.mem_cons_self, ?_⟩
        rintro ⟨hstart, hend⟩
        dsimp only at hstart hend
        by_cases hover : base + roundUp16 total < wordSize
        · rw [Nat.mod_eq_of_lt hover] at hend
          omega
        · rw [Nat.mod_eq_sub_mod (by omega), Nat.mod_eq_of_lt (by omega)] at hstart
          omega

/-! ## The batch -/

variable {alloc : Nat → Option Nat} {outPtrs : List Nat}

theorem arenaAllocBatch_of_region (hne : sizes ≠ []) (htotal : batchTotal 0 sizes = some total)
    (hbase : alloc total = some base) :
    arenaAllocBatch alloc sizes outPtrs = (batchPtrs base sizes, true) := by
  have hlen : sizes.length ≠ 0 := fun h => hne (List.length_eq_zero_iff.mp h)
  rw [arenaAllocBatch, if_neg hlen, htotal]
  dsimp only
  rw [hbase]

theorem arenaAllocBatch_failed
    (h : sizes = [] ∨ ∀ total, batchTotal 0 sizes = some total → alloc total = none) :
    arenaAllocBatch alloc sizes outPtrs = (outPtrs, false) := by
  unfold arenaAllocBatch
  split
  · rfl
  · next hlen =>
    have hnone := h.resolve_left fun hnil => hlen (List.length_eq_zero_iff.mpr hnil)
    rcases htotal : batchTotal 0 sizes with _ | total
    · rfl
    · dsimp only
      rw [hnone total htotal]

theorem batchSound_of_failed (h : arenaAllocBatch alloc sizes outPtrs = (outPtrs, false)) :
    BatchSound alloc sizes outPtrs := by
  refine ⟨fun _ => by rw [h], fun hok => ?_⟩
  rw [h] at hok
  cases hok

/-- With a region for the total that was added up. -/
theorem batchSound_of_region (hbase : 0 < base) (hdvd : 16 ∣ base)
    (hend : base + total < wordSize) (hne : sizes ≠ []) (htotal : batchTotal 0 sizes = some total)
    (halloc : alloc total = some base) :
    BatchSound alloc sizes outPtrs ↔ exactTotal 0 sizes < wordSize := by
  have hcall : arenaAllocBatch alloc sizes outPtrs = (batchPtrs base sizes, true) :=
    arenaAllocBatch_of_region hne htotal halloc
  constructor
  · rintro ⟨-, hblocks⟩
    by_contra hwrap
    rw [hcall] at hblocks
    obtain ⟨total', base', htotal', hbase', -, -, hall⟩ := hblocks rfl
    obtain rfl := Option.some.inj (htotal.symm.trans htotal')
    obtain rfl := Option.some.inj (halloc.symm.trans hbase')
    have hcur : base = (base + 0) % wordSize := by rw [Nat.add_zero, Nat.mod_eq_of_lt (by omega)]
    obtain ⟨x, hx, hout⟩ := exists_outside hdvd hbase (by omega) hend (Nat.zero_le _) htotal
      (not_lt.mp hwrap) hcur
    exact hout (hall x hx).2
  · intro hword
    obtain rfl := Option.some.inj ((batchTotal_eq hword).symm.trans htotal)
    have hfit : base + exactTotal 0 sizes < wordSize := hend
    obtain ⟨hlen, hapart, hall⟩ := batchPtrs_fit hdvd hfit
    refine ⟨fun hok => ?_, fun _ => ⟨_, base, htotal, halloc, ?_⟩⟩
    · rw [hcall] at hok
      cases hok
    · rw [hcall]
      exact ⟨hlen, hapart, hall⟩

/-- The batch is what it should be exactly when it is refused, or there is no memory for the total
that was added up, or the size without wrapping is a word. -/
theorem batch_sound_iff (h : CorrectAlloc alloc) (sizes outPtrs : List Nat) :
    BatchSound alloc sizes outPtrs ↔
      (∀ total, batchTotal 0 sizes = some total → alloc total = none) ∨
        exactTotal 0 sizes < wordSize := by
  by_cases hne : sizes = []
  · refine ⟨fun _ => Or.inr ?_, fun _ => batchSound_of_failed (arenaAllocBatch_failed (Or.inl hne))⟩
    rw [hne, exactTotal]
    decide
  · by_cases hidle : ∀ total, batchTotal 0 sizes = some total → alloc total = none
    · exact ⟨fun _ => Or.inl hidle,
        fun _ => batchSound_of_failed (arenaAllocBatch_failed (Or.inr hidle))⟩
    · obtain ⟨total, htotal, hsome⟩ : ∃ total, batchTotal 0 sizes = some total ∧
          alloc total ≠ none := by
        by_contra hnone
        exact hidle fun total htotal => by_contra fun hne => hnone ⟨total, htotal, hne⟩
      obtain ⟨base, hbase⟩ := Option.ne_none_iff_exists'.mp hsome
      obtain ⟨hpos, hdvd, hend⟩ := h total base hbase
      rw [batchSound_of_region hpos hdvd hend hne htotal hbase]
      exact ⟨Or.inr, fun hor => hor.resolve_left hidle⟩

/-- An `arena_alloc` with 64 bytes at `0x10000`. -/
def smallAlloc (total : Nat) : Option Nat :=
  if total = 0 ∨ total > 64 then none else some 0x10000

theorem smallAlloc_correct : CorrectAlloc smallAlloc := by
  intro total base h
  unfold smallAlloc at h
  split at h
  · cases h
  · next hsmall =>
    obtain rfl := Option.some.inj h
    have hspace : wordSize = 2 ^ 64 := rfl
    exact ⟨by decide, by decide, by omega⟩

/-- Blocks of 5, 0 and 20 bytes. -/
theorem batch_sound_three : BatchSound smallAlloc [5, 0, 20] [0, 0, 0] :=
  (batch_sound_iff smallAlloc_correct [5, 0, 20] [0, 0, 0]).mpr (Or.inr (by decide))

/-- Blocks of `2 ^ 64 - 4` and 32 bytes: the total after rounding is 32, and both blocks are put
at the start of the region of 32 bytes. -/
theorem batch_wraps :
    arenaAllocBatch smallAlloc [wordSize - 4, 32] [0, 0] = ([0x10000, 0x10000], true) ∧
      ¬ BatchSound smallAlloc [wordSize - 4, 32] [0, 0] := by
  have hcall : arenaAllocBatch smallAlloc [wordSize - 4, 32] [0, 0] =
      ([0x10000, 0x10000], true) := by decide +kernel
  refine ⟨hcall, ?_⟩
  rintro ⟨-, hblocks⟩
  rw [hcall] at hblocks
  obtain ⟨total, base, -, -, -, hapart, -⟩ := hblocks rfl
  exact absurd hapart (by unfold Apart; decide)

end Solidc.Alloc
