import Solidc.Lib.Cells
import Solidc.Lib.EditTable

/-! # Levenshtein distance

`strsim_levenshtein` keeps two rows of the table of distances in one allocation and exchanges the
pointers to them. Distances are far below the limit of `size_t`; the size of the allocation is
computed in it.

* `fillRow_spec` — a turn of the outer loop makes the next row from the one before;
* `strsimLevenshtein_eq` — the result is the last entry of the table;
* `levenshtein_metric` — it is the least number of edits, and a metric.
-/

namespace Solidc.Strsim

open CLib EditDistance

/-- A string without its terminator. -/
abbrev Str : Type := List UInt8

/-- `min2`. -/
def min2 (a b : Nat) : Nat := if a < b then a else b

/-- `min3`. -/
def min3 (a b c : Nat) : Nat := min2 a (min2 b c)

/-- `sizeof(size_t)`. -/
def sizeofSize : Nat := 8

/-- `n * sizeof(size_t)`, in `size_t`. -/
def sizeBytes (n : Nat) : Nat := n * sizeofSize % 2 ^ 64

/-- The cells in an allocation of so many bytes. -/
def malloc (bytes : Nat) : Cells Nat := .fresh (bytes / sizeofSize)

/-- A turn of the inner loop: entry `i` of row `j`, in `curr`, from the row before, in `prev`. -/
def fillCell (a b : Str) (prev curr j i : Nat) (buf : Cells Nat) : Option (Cells Nat) := do
  let ca ← a[i - 1]?
  let cb ← b[j - 1]?
  let subCost := if ca = cb then 0 else 1
  let above ← buf.read (prev + i)
  let left ← buf.read (curr + (i - 1))
  let diagonal ← buf.read (prev + (i - 1))
  buf.write (curr + i) (min3 (above + 1) (left + 1) (diagonal + subCost))

/-- A turn of the outer loop. The state is the allocation with `prev` and `curr`. -/
def fillRow (a b : Str) (j : Nat) (rows : Cells Nat × Nat × Nat) :
    Option (Cells Nat × Nat × Nat) := do
  let (buf, prev, curr) := rows
  let buf ← buf.write curr j
  let buf ← forLoop 1 (a.length + 1) (fillCell a b prev curr j) buf
  some (buf, curr, prev)

/-- The part of `strsim_levenshtein` behind the allocation; `a` is the shorter string. -/
def levenshteinRows (a b : Str) (buf : Cells Nat) : Option Nat := do
  let rowLen := a.length + 1
  let buf ← forLoop 0 rowLen (fun i buf => buf.write i i) buf
  let (buf, prev, _) ← forLoop 1 (b.length + 1) (fillRow a b) (buf, 0, rowLen)
  buf.read (prev + a.length)

/-- The part of `strsim_levenshtein` behind the exchange of the strings: `a` is the shorter one. -/
def levenshteinOrdered (alloc : Nat → Bool) (a b : Str) : Option (Except Int Nat) :=
  if a.length = 0 then some (.ok b.length)
  else
    let bytes := sizeBytes (2 * (a.length + 1))
    if alloc bytes then (levenshteinRows a b (malloc bytes)).map .ok else some (.error (-2))

/-- `strsim_levenshtein`: the distance or the error code, `none` where the behaviour is undefined.
`out` tells whether the pointer for the result is not NULL, `alloc` whether an allocation of so
many bytes succeeds. -/
def strsimLevenshtein (alloc : Nat → Bool) (a b : Option Str) (out : Bool) :
    Option (Except Int Nat) :=
  match a, b, out with
  | some a, some b, true =>
    if a.length > b.length then levenshteinOrdered alloc b a else levenshteinOrdered alloc a b
  | _, _, _ => some (.error (-1))

/-! ## The table -/

theorem min2_eq (a b : Nat) : min2 a b = min a b := by
  unfold min2
  split <;> omega

theorem min3_eq (a b c : Nat) : min3 a b c = min a (min b c) := by
  rw [min3, min2_eq, min2_eq]

variable {a b : Str} {buf : Cells Nat} {prev curr i j : Nat}

/-- The entries `0` to `n - 1` of row `j` of the table stand from `row` on. -/
def HoldsRow (a b : Str) (buf : Cells Nat) (row j n : Nat) : Prop :=
  ∀ i < n, buf.read (row + i) = some (prefixDist false a b i j)

/-- Another entry of a row is written. -/
theorem HoldsRow.write {row n : Nat} (h : HoldsRow a b buf row j n) (hsize : row + n < buf.size) :
    HoldsRow a b (buf.set (row + n) (prefixDist false a b n j)) row j (n + 1) := by
  intro i hi
  rcases Nat.lt_succ_iff_lt_or_eq.mp hi with hlt | rfl
  · rw [Cells.read_set_of_ne (by omega)]
    exact h i hlt
  · exact Cells.read_set hsize

/-- Writing elsewhere leaves a row as it is. -/
theorem HoldsRow.frame {row n k x : Nat} (h : HoldsRow a b buf row j n)
    (hk : k < row ∨ row + n ≤ k) : HoldsRow a b (buf.set k x) row j n := by
  intro i hi
  rw [Cells.read_set_of_ne (by omega)]
  exact h i hi

/-- An entry is computed from those above, to the left and between them. -/
theorem fillCell_spec (hi : i < a.length) (hj : j < b.length)
    (hapart : prev + a.length < curr ∨ curr + a.length < prev) (hsize : curr + a.length < buf.size)
    (hprev : HoldsRow a b buf prev j (a.length + 1))
    (hcurr : HoldsRow a b buf curr (j + 1) (i + 1)) :
    ∃ buf', fillCell a b prev curr (j + 1) (i + 1) buf = some buf' ∧ buf'.size = buf.size ∧
      HoldsRow a b buf' prev j (a.length + 1) ∧ HoldsRow a b buf' curr (j + 1) (i + 2) := by
  have hvalue : min3 (prefixDist false a b (i + 1) j + 1) (prefixDist false a b i (j + 1) + 1)
      (prefixDist false a b i j + if a[i] = b[j] then 0 else 1) =
        prefixDist false a b (i + 1) (j + 1) := by
    rw [prefixDist_succ hi hj (.inl rfl), prefixUncrossed, min3_eq, Nat.min_left_comm]
  have hwrite : fillCell a b prev curr (j + 1) (i + 1) buf =
      buf.write (curr + (i + 1)) (prefixDist false a b (i + 1) (j + 1)) := by
    simp only [fillCell, Nat.add_sub_cancel, List.getElem?_eq_getElem hi,
      List.getElem?_eq_getElem hj, hprev (i + 1) (by omega), hcurr i (by omega),
      hprev i (by omega), Option.bind_eq_bind, Option.bind_some, hvalue]
  refine ⟨_, hwrite.trans (Cells.write_eq (by omega)), rfl, ?_, hcurr.write (by omega)⟩
  exact hprev.frame (by omega)

/-- A turn of the outer loop makes the next row from the one before. -/
theorem fillRow_spec (hj : j < b.length)
    (hapart : prev + a.length < curr ∨ curr + a.length < prev) (hsize : curr + a.length < buf.size)
    (hprev : HoldsRow a b buf prev j (a.length + 1)) :
    ∃ buf', fillRow a b (j + 1) (buf, prev, curr) = some (buf', curr, prev) ∧
      buf'.size = buf.size ∧ HoldsRow a b buf' curr (j + 1) (a.length + 1) := by
  have hfirst : HoldsRow a b (buf.set (curr + 0) (prefixDist false a b 0 (j + 1))) curr (j + 1) 1 :=
    HoldsRow.write (fun i hi => absurd hi (Nat.not_lt_zero i)) (by omega)
  rw [prefixDist_zero_left false a hj] at hfirst
  have hloop : ∃ buf', forLoop 1 (a.length + 1) (fillCell a b prev curr (j + 1))
      (buf.set curr (j + 1)) = some buf' ∧ buf'.size = buf.size ∧
        HoldsRow a b buf' prev j (a.length + 1) ∧
          HoldsRow a b buf' curr (j + 1) (a.length + 1) := by
    refine forLoop_inv (fun i buf' => buf'.size = buf.size ∧
      HoldsRow a b buf' prev j (a.length + 1) ∧ HoldsRow a b buf' curr (j + 1) i) (by omega)
      ⟨rfl, hprev.frame (by omega), hfirst⟩ ?_
    rintro i buf' hlow hhigh ⟨hbuf, habove, hleft⟩
    obtain ⟨k, rfl⟩ := Nat.exists_eq_add_of_le' hlow
    obtain ⟨buf₁, hcell, hbuf₁, hrows⟩ :=
      fillCell_spec (by omega) hj hapart (by omega) habove hleft
    exact ⟨buf₁, hcell, hbuf₁.trans hbuf, hrows⟩
  obtain ⟨buf', hfill, hbuf, -, hrow⟩ := hloop
  refine ⟨buf', ?_, hbuf, hrow⟩
  simp only [fillRow, Cells.write_eq (by omega : curr < buf.size), Option.bind_eq_bind,
    Option.bind_some, hfill]

/-- The result is the entry for both strings. -/
theorem levenshteinRows_eq (hsize : 2 * (a.length + 1) ≤ buf.size) :
    levenshteinRows a b buf = some (dist false a b) := by
  have hfirst : ∃ buf', forLoop 0 (a.length + 1) (fun i buf => buf.write i i) buf = some buf' ∧
      buf'.size = buf.size ∧ HoldsRow a b buf' 0 0 (a.length + 1) := by
    refine forLoop_inv (fun i buf' => buf'.size = buf.size ∧ HoldsRow a b buf' 0 0 i) (by omega)
      ⟨rfl, fun i hi => absurd hi (Nat.not_lt_zero i)⟩ ?_
    rintro i buf' - hhigh ⟨hbuf, hrow⟩
    have hrow' := hrow.write (by omega)
    rw [prefixDist_zero_right false b (by omega), Nat.zero_add] at hrow'
    exact ⟨_, Cells.write_eq (by omega), hbuf, hrow'⟩
  obtain ⟨buf₁, hfill, hbuf₁, hrow₁⟩ := hfirst
  -- the rows change places in every turn
  have hrows : ∃ rows : Cells Nat × Nat × Nat,
      forLoop 1 (b.length + 1) (fillRow a b) (buf₁, 0, a.length + 1) = some rows ∧
      rows.1.size = buf.size ∧ (rows.2 = (0, a.length + 1) ∨ rows.2 = (a.length + 1, 0)) ∧
        HoldsRow a b rows.1 rows.2.1 b.length (a.length + 1) := by
    refine forLoop_inv (fun j (rows : Cells Nat × Nat × Nat) => rows.1.size = buf.size ∧
      (rows.2 = (0, a.length + 1) ∨ rows.2 = (a.length + 1, 0)) ∧
        HoldsRow a b rows.1 rows.2.1 (j - 1) (a.length + 1)) (by omega)
      ⟨hbuf₁, .inl rfl, hrow₁⟩ ?_
    rintro j ⟨buf', prev, curr⟩ hlow hhigh ⟨hbuf, hplaces, hrow⟩
    obtain ⟨k, rfl⟩ := Nat.exists_eq_add_of_le' hlow
    dsimp only at hbuf hplaces hrow
    simp only [Prod.mk.injEq] at hplaces
    obtain ⟨buf₂, hturn, hbuf₂, hrow₂⟩ :=
      fillRow_spec (by omega) (by omega : prev + a.length < curr ∨ curr + a.length < prev)
        (by omega) hrow
    refine ⟨_, hturn, hbuf₂.trans hbuf, ?_, hrow₂⟩
    simp only [Prod.mk.injEq]
    omega
  obtain ⟨⟨buf₂, prev, curr⟩, hfill₂, -, -, hrow₂⟩ := hrows
  simp only [levenshteinRows, hfill, hfill₂, Option.bind_eq_bind, Option.bind_some]
  rw [hrow₂ a.length (Nat.lt_succ_self _), prefixDist_all]

theorem levenshteinRows_malloc (hfits : 2 * (a.length + 1) * 8 < 2 ^ 64) :
    levenshteinRows a b (malloc (sizeBytes (2 * (a.length + 1)))) = some (levenshtein a b) := by
  rw [levenshteinRows_eq, levenshtein_eq_dist]
  simp only [malloc, Cells.size_fresh, sizeBytes, sizeofSize]
  rw [Nat.mod_eq_of_lt hfits, Nat.mul_div_cancel _ (by decide)]

theorem levenshteinOrdered_eq {alloc : Nat → Bool} (hfits : 2 * (a.length + 1) * 8 < 2 ^ 64)
    (halloc : alloc (sizeBytes (2 * (a.length + 1))) = true) :
    levenshteinOrdered alloc a b = some (.ok (levenshtein a b)) := by
  unfold levenshteinOrdered
  by_cases hempty : a.length = 0
  · rw [if_pos hempty, List.length_eq_zero_iff.mp hempty, levenshtein_eq_dist, dist_nil_left]
  · dsimp only
    rw [if_neg hempty, if_pos halloc, levenshteinRows_malloc hfits]
    rfl

theorem strsimLevenshtein_eq {alloc : Nat → Bool} (a b : Str)
    (hfits : 2 * (min a.length b.length + 1) * 8 < 2 ^ 64)
    (halloc : alloc (sizeBytes (2 * (min a.length b.length + 1))) = true) :
    strsimLevenshtein alloc (some a) (some b) true = some (.ok (levenshtein a b)) := by
  unfold strsimLevenshtein
  dsimp only
  split
  case isTrue hlonger =>
    rw [Nat.min_eq_right (Nat.le_of_lt hlonger)] at hfits halloc
    rw [levenshteinOrdered_eq hfits halloc, levenshtein_eq_dist, dist_comm, ← levenshtein_eq_dist]
  case isFalse hshorter =>
    rw [Nat.min_eq_left (Nat.not_lt.mp hshorter)] at hfits halloc
    exact levenshteinOrdered_eq hfits halloc

/-- `strsim_levenshtein` computes the recursion over insertions, deletions and substitutions, which
is the least number of these edits, and a metric. -/
theorem levenshtein_metric (alloc : Nat → Bool) (a b : Str)
    (hfits : 2 * (min a.length b.length + 1) * 8 < 2 ^ 64)
    (halloc : alloc (sizeBytes (2 * (min a.length b.length + 1))) = true) :
    strsimLevenshtein alloc (some a) (some b) true = some (.ok (levenshtein a b)) ∧
      IsLeast {n | Edits false n a b} (levenshtein a b) ∧ (levenshtein a b = 0 ↔ a = b) ∧
      levenshtein a b = levenshtein b a ∧
      ∀ c, levenshtein a c ≤ levenshtein a b + levenshtein b c := by
  refine ⟨strsimLevenshtein_eq a b hfits halloc, ?_⟩
  simp only [levenshtein_eq_dist]
  exact ⟨isLeast_dist false a b, dist_eq_zero_iff, dist_comm false a b, dist_triangle false a b⟩

/-- A typing error that takes two edits. -/
theorem levenshtein_metric_typo : strsimLevenshtein (fun _ => true)
    (some [116, 101, 104]) (some [116, 104, 101]) true = some (.ok 2) := by
  have hvalue : levenshtein ([116, 101, 104] : Str) [116, 104, 101] = 2 := by simp [levenshtein]
  have hresult := (levenshtein_metric (fun _ => true) [116, 101, 104] [116, 104, 101]
    (by decide) rfl).1
  rwa [hvalue] at hresult

end Solidc.Strsim
