import Solidc.Strsim.Levenshtein

/-! # Damerau-Levenshtein distance

`strsim_damerau_levenshtein` keeps the whole table of distances in one allocation, behind a row and
a column that are only there for the indices. For an exchange it looks up the last row with the
letter of the column and the last column with the letter of the row.

* `fillEntry_spec` — a turn of the inner loop writes the next entry of the table;
* `damerauTable_eq` — the result is the least number of edits, if the table fits into `size_t`;
* `damerauTable_eq_none` — if it does not, the loops write outside of the allocation;
* `damerau_exact_iff` — so the result is the distance, which is a metric, for exactly the strings
  whose table fits.
-/

namespace Solidc.Strsim

open CLib EditDistance

/-! ## The code -/

/-- The index `row * cols + col`, in `size_t`. -/
def index (cols row col : Nat) : Nat := (row * cols + col) % 2 ^ 64

/-- `cost_trans`: the letters between the last occurrences are deleted and inserted. -/
def costTrans (d : Cells Nat) (cols inf i1 j1 i j : Nat) : Option Nat :=
  if i1 > 0 ∧ j1 > 0 then
    (d.read (index cols i1 j1)).map fun before => before + (i - i1 - 1) + 1 + (j - j1 - 1)
  else some inf

/-- A turn of the inner loop; the state is the table and `last_a`. -/
def fillEntry (a b : Str) (cols inf : Nat) (lastB : UInt8 → Nat) (i j : Nat)
    (st : Cells Nat × Nat) : Option (Cells Nat × Nat) := do
  let (d, lastA) := st
  let ca ← a[i - 1]?
  let cb ← b[j - 1]?
  let subCost := if ca = cb then 0 else 1
  let diagonal ← d.read (index cols i j)
  let left ← d.read (index cols (i + 1) j)
  let above ← d.read (index cols i (j + 1))
  let cost ← costTrans d cols inf (lastB cb) lastA i j
  let d ← d.write (index cols (i + 1) (j + 1))
    (min3 (min2 (diagonal + subCost) (left + 1)) (min2 (above + 1) cost) inf)
  some (d, if ca = cb then j else lastA)

/-- A turn of the outer loop; the state is the table and `last_b`. -/
def fillLine (a b : Str) (cols inf i : Nat) (st : Cells Nat × (UInt8 → Nat)) :
    Option (Cells Nat × (UInt8 → Nat)) := do
  let (d, lastB) := st
  let ca ← a[i - 1]?
  let (d, _) ← forLoop 1 (b.length + 1) (fillEntry a b cols inf lastB i) (d, 0)
  some (d, Function.update lastB ca i)

/-- The part of `strsim_damerau_levenshtein` behind the allocation. -/
def damerauTable (a b : Str) (d : Cells Nat) : Option Nat := do
  let rows := a.length + 2
  let cols := b.length + 2
  let inf := a.length + b.length + 1
  let d ← forLoop 0 rows (fun i d => d.write (index cols i 0) inf) d
  let d ← forLoop 0 cols (fun j d => d.write (index cols 0 j) inf) d
  let d ← forLoop 0 (a.length + 1) (fun i d => d.write (index cols (i + 1) 1) i) d
  let d ← forLoop 0 (b.length + 1) (fun j d => d.write (index cols 1 (j + 1)) j) d
  let (d, _) ← forLoop 1 (a.length + 1) (fillLine a b cols inf) (d, fun _ => 0)
  d.read (index cols (a.length + 1) (b.length + 1))

/-- `strsim_damerau_levenshtein`, in the manner of `strsimLevenshtein`. -/
def strsimDamerauLevenshtein (alloc : Nat → Bool) (a b : Option Str) (out : Bool) :
    Option (Except Int Nat) :=
  match a, b, out with
  | some a, some b, true =>
    if a.length = 0 then some (.ok b.length)
    else if b.length = 0 then some (.ok a.length)
    else
      let bytes := sizeBytes ((a.length + 2) * (b.length + 2))
      if alloc bytes then (damerauTable a b (malloc bytes)).map .ok else some (.error (-2))
  | _, _, _ => some (.error (-1))

/-! ## The table -/

variable {a b : Str} {d : Cells Nat} {i j : Nat}

/-- The table fits into the allocation, and its indices into `size_t`. -/
structure Fits (a b : Str) (d : Cells Nat) : Prop where
  limit : (a.length + 2) * (b.length + 2) < 2 ^ 61
  size : d.size = (a.length + 2) * (b.length + 2)

theorem Fits.set (h : Fits a b d) (k x : Nat) : Fits a b (d.set k x) := ⟨h.limit, h.size⟩

theorem Fits.index_lt (h : Fits a b d) (hi : i < a.length + 2) (hj : j < b.length + 2) :
    index (b.length + 2) i j = i * (b.length + 2) + j ∧ index (b.length + 2) i j < d.size := by
  have hlast : i * (b.length + 2) + (b.length + 2) ≤ (a.length + 2) * (b.length + 2) := by
    rw [← Nat.succ_mul]
    exact Nat.mul_le_mul_right _ hi
  have hlimit := h.limit
  have hindex : index (b.length + 2) i j = i * (b.length + 2) + j :=
    Nat.mod_eq_of_lt (by omega)
  rw [hindex, h.size]
  omega

theorem Fits.index_inj (h : Fits a b d) {i' j' : Nat} (hi : i < a.length + 2)
    (hj : j < b.length + 2) (hi' : i' < a.length + 2) (hj' : j' < b.length + 2)
    (heq : index (b.length + 2) i j = index (b.length + 2) i' j') : i = i' ∧ j = j' := by
  rw [(h.index_lt hi hj).1, (h.index_lt hi' hj').1] at heq
  have hdiv : ∀ {i j : Nat}, j < b.length + 2 → (i * (b.length + 2) + j) / (b.length + 2) = i ∧
      (i * (b.length + 2) + j) % (b.length + 2) = j := by
    intro i j hj
    rw [Nat.add_comm, Nat.add_mul_div_right _ _ (by omega), Nat.add_mul_mod_self_right,
      Nat.div_eq_of_lt hj, Nat.mod_eq_of_lt hj, Nat.zero_add]
    exact ⟨rfl, rfl⟩
  have hcell := hdiv (i := i) hj
  rw [heq, (hdiv hj').1, (hdiv hj').2] at hcell
  exact ⟨hcell.1.symm, hcell.2.symm⟩

/-- The entries of the table for which `S` holds are in the allocation, behind the first row and
the first column. -/
def Holds (a b : Str) (d : Cells Nat) (S : Nat → Nat → Prop) : Prop :=
  ∀ i j, i ≤ a.length → j ≤ b.length → S i j →
    d.read (index (b.length + 2) (i + 1) (j + 1)) = some (prefixDist true a b i j)

/-- Another entry is written. -/
theorem Holds.write {S : Nat → Nat → Prop} (h : Holds a b d S) (S' : Nat → Nat → Prop)
    (hfits : Fits a b d) (hi : i ≤ a.length) (hj : j ≤ b.length)
    (hS : ∀ i' j', S' i' j' → i' = i ∧ j' = j ∨ S i' j') :
    ∃ d', d.write (index (b.length + 2) (i + 1) (j + 1)) (prefixDist true a b i j) = some d' ∧
      Fits a b d' ∧ Holds a b d' S' := by
  have hsize := (hfits.index_lt (Nat.succ_lt_succ (Nat.lt_succ_of_le hi))
    (Nat.succ_lt_succ (Nat.lt_succ_of_le hj))).2
  refine ⟨_, Cells.write_eq hsize, hfits.set _ _, fun i' j' hi' hj' hcell => ?_⟩
  by_cases hsame : i' = i ∧ j' = j
  · obtain ⟨rfl, rfl⟩ := hsame
    exact Cells.read_set hsize
  · rw [Cells.read_set_of_ne fun heq => hsame ?_]
    · exact h i' j' hi' hj' ((hS i' j' hcell).resolve_left hsame)
    · have hinj := hfits.index_inj (by omega) (by omega) (by omega) (by omega) heq
      omega

/-- `last_b`: the last row of each letter. -/
def LastRows (a : Str) (i : Nat) (lastB : UInt8 → Nat) : Prop := ∀ c, IsLast a c i (lastB c)

/-- The comparisons in the order of the recursion; the sentinel is never the least. -/
theorem min_costs {sub left above cost inf value : Nat}
    (hvalue : value = min (min above (min left sub)) cost) (hle : value ≤ inf) :
    min3 (min2 sub left) (min2 above cost) inf = value := by
  calc min3 (min2 sub left) (min2 above cost) inf
      = min (min (min above (min left sub)) cost) inf := by
        simp only [min3_eq, min2_eq]
        ac_rfl
    _ = value := by rw [← hvalue, min_eq_left hle]

/-- The cost of a crossing is looked up, and the least cost is that of the entry. -/
theorem costTrans_spec {lastB : UInt8 → Nat} {lastA : Nat} (hi : i < a.length) (hj : j < b.length)
    (hrows : LastRows a i lastB) (hcol : IsLast b a[i] j lastA)
    (h : Holds a b d fun i' j' => j' = 0 ∨ i' ≤ i ∨ i' = i + 1 ∧ j' ≤ j) :
    ∃ cost, costTrans d (b.length + 2) (a.length + b.length + 1) (lastB b[j]) lastA (i + 1)
        (j + 1) = some cost ∧
      min3 (min2 (prefixDist true a b i j + if a[i] = b[j] then 0 else 1)
          (prefixDist true a b (i + 1) j + 1)) (min2 (prefixDist true a b i (j + 1) + 1) cost)
        (a.length + b.length + 1) = prefixDist true a b (i + 1) (j + 1) := by
  have hrow := hrows b[j]
  have hle : prefixDist true a b (i + 1) (j + 1) ≤ a.length + b.length + 1 :=
    (prefixDist_le true a b (i + 1) (j + 1)).trans (by omega)
  by_cases hboth : lastB b[j] > 0 ∧ lastA > 0
  · obtain ⟨k, hk⟩ := Nat.exists_eq_add_of_le' hboth.1
    obtain ⟨l, rfl⟩ := Nat.exists_eq_add_of_le' hboth.2
    rw [hk] at hrow
    have hki := hrow.1
    have hlj := hcol.1
    have hcost : prefixDist true a b k l + (i + 1 - (k + 1) - 1) + 1 + (j + 1 - (l + 1) - 1) =
        prefixDist true a b k l + (i - (k + 1) + (j - (l + 1)) + 1) := by omega
    refine ⟨_, ?_, min_costs (prefixDist_cross hi hj hrow hcol) hle⟩
    rw [costTrans, if_pos hboth, hk, h k l (by omega) (by omega) (by omega), Option.map_some, hcost]
  · -- a letter that does not occur crosses nothing
    have hzero : lastB b[j] = 0 ∨ lastA = 0 := by omega
    have hfree : IsLast a b[j] i 0 ∨ IsLast b a[i] j 0 := by
      rcases hzero with h0 | rfl
      · rw [h0] at hrow
        exact .inl hrow
      · exact .inr hcol
    have hsucc := prefixDist_succ hi hj (.inr hfree : true = false ∨ _)
    refine ⟨_, if_neg hboth, min_costs ?_ hle⟩
    exact hsucc.trans (min_eq_left (hsucc.symm.le.trans hle)).symm

theorem fillEntry_spec {lastB : UInt8 → Nat} {lastA : Nat} (hfits : Fits a b d)
    (hi : i < a.length) (hj : j < b.length) (hrows : LastRows a i lastB)
    (hcol : IsLast b a[i] j lastA)
    (h : Holds a b d fun i' j' => j' = 0 ∨ i' ≤ i ∨ i' = i + 1 ∧ j' ≤ j) :
    ∃ d' lastA', fillEntry a b (b.length + 2) (a.length + b.length + 1) lastB (i + 1) (j + 1)
        (d, lastA) = some (d', lastA') ∧ Fits a b d' ∧ IsLast b a[i] (j + 1) lastA' ∧
      Holds a b d' fun i' j' => j' = 0 ∨ i' ≤ i ∨ i' = i + 1 ∧ j' ≤ j + 1 := by
  obtain ⟨cost, hcost, hvalue⟩ := costTrans_spec hi hj hrows hcol h
  obtain ⟨d', hwrite, hfits', hholds⟩ :=
    h.write (fun i' j' => j' = 0 ∨ i' ≤ i ∨ i' = i + 1 ∧ j' ≤ j + 1) hfits
      (by omega : i + 1 ≤ a.length) (by omega : j + 1 ≤ b.length) (fun i' j' hcell => by omega)
  refine ⟨d', if a[i] = b[j] then j + 1 else lastA, ?_, hfits', ?_, hholds⟩
  · simp only [fillEntry, Nat.add_sub_cancel, List.getElem?_eq_getElem hi,
      List.getElem?_eq_getElem hj, h i j (by omega) (by omega) (by omega),
      h (i + 1) j (by omega) (by omega) (by omega), h i (j + 1) (by omega) (by omega) (by omega),
      Option.bind_eq_bind, Option.bind_some, hcost, hvalue, hwrite]
  · split
    case isTrue heq => exact .here (by rw [heq, List.getElem?_eq_getElem hj])
    case isFalse hne =>
      refine hcol.before fun hget => hne ?_
      rw [List.getElem?_eq_getElem hj] at hget
      exact (Option.some.inj hget).symm

theorem Holds.mono {S S' : Nat → Nat → Prop} (h : Holds a b d S) (hS : ∀ i j, S' i j → S i j) :
    Holds a b d S' := fun i j hi hj hcell => h i j hi hj (hS i j hcell)

theorem LastRows.update {lastB : UInt8 → Nat} (h : LastRows a i lastB) (hi : i < a.length) :
    LastRows a (i + 1) (Function.update lastB a[i] (i + 1)) := by
  intro c
  have hget := List.getElem?_eq_getElem hi
  by_cases hc : c = a[i]
  · rw [hc, Function.update_self]
    exact .here hget
  · rw [Function.update_of_ne hc]
    refine (h c).before fun hget' => hc ?_
    exact Option.some.inj (hget'.symm.trans hget)

/-- A turn of the outer loop writes the next row of the table. -/
theorem fillLine_spec {lastB : UInt8 → Nat} (hfits : Fits a b d) (hi : i < a.length)
    (hrows : LastRows a i lastB) (h : Holds a b d fun i' j' => j' = 0 ∨ i' ≤ i) :
    ∃ d' lastB', fillLine a b (b.length + 2) (a.length + b.length + 1) (i + 1) (d, lastB) =
        some (d', lastB') ∧ Fits a b d' ∧ LastRows a (i + 1) lastB' ∧
      Holds a b d' fun i' j' => j' = 0 ∨ i' ≤ i + 1 := by
  have hloop : ∃ st : Cells Nat × Nat, forLoop 1 (b.length + 1)
      (fillEntry a b (b.length + 2) (a.length + b.length + 1) lastB (i + 1)) (d, 0) = some st ∧
      Fits a b st.1 ∧ IsLast b a[i] (b.length + 1 - 1) st.2 ∧
        Holds a b st.1 fun i' j' => j' = 0 ∨ i' ≤ i ∨ i' = i + 1 ∧ j' ≤ b.length + 1 - 1 := by
    refine forLoop_inv (fun j (st : Cells Nat × Nat) => Fits a b st.1 ∧
      IsLast b a[i] (j - 1) st.2 ∧
        Holds a b st.1 fun i' j' => j' = 0 ∨ i' ≤ i ∨ i' = i + 1 ∧ j' ≤ j - 1) (by omega)
      ⟨hfits, .zero b a[i], h.mono fun i' j' hcell => by omega⟩ ?_
    rintro j ⟨d₁, lastA⟩ hlow hhigh ⟨hfits₁, hcol, h₁⟩
    obtain ⟨k, rfl⟩ := Nat.exists_eq_add_of_le' hlow
    obtain ⟨d₂, lastA₂, hentry, hfits₂, hcol₂, h₂⟩ :=
      fillEntry_spec hfits₁ hi (by omega) hrows hcol h₁
    exact ⟨_, hentry, hfits₂, hcol₂, h₂⟩
  obtain ⟨⟨d', lastA⟩, hfill, hfits', -, h'⟩ := hloop
  refine ⟨d', Function.update lastB a[i] (i + 1), ?_, hfits', hrows.update hi, ?_⟩
  · simp only [fillLine, Nat.add_sub_cancel, List.getElem?_eq_getElem hi, Option.bind_eq_bind,
      Option.bind_some, hfill]
  · intro i' j' hi' hj' hcell
    exact h' i' j' hi' hj' (by omega)

/-- The row and the column that only serve the indices. -/
theorem sentinels_spec (hfits : Fits a b d) (x : Nat) :
    ∃ d₁ d₂,
      forLoop 0 (a.length + 2) (fun i d => d.write (index (b.length + 2) i 0) x) d = some d₁ ∧
      forLoop 0 (b.length + 2) (fun j d => d.write (index (b.length + 2) 0 j) x) d₁ = some d₂ ∧
        Fits a b d₂ := by
  have hcolumn : ∃ d₁, forLoop 0 (a.length + 2)
      (fun i d => d.write (index (b.length + 2) i 0) x) d = some d₁ ∧ Fits a b d₁ := by
    refine forLoop_inv (fun _ d₁ => Fits a b d₁) (by omega) hfits ?_
    intro i d₁ _ hi hfits₁
    exact ⟨_, Cells.write_eq (hfits₁.index_lt hi (by omega)).2, hfits₁.set _ _⟩
  obtain ⟨d₁, hfill₁, hfits₁⟩ := hcolumn
  have hrow : ∃ d₂, forLoop 0 (b.length + 2)
      (fun j d => d.write (index (b.length + 2) 0 j) x) d₁ = some d₂ ∧ Fits a b d₂ := by
    refine forLoop_inv (fun _ d₂ => Fits a b d₂) (by omega) hfits₁ ?_
    intro j d₂ _ hj hfits₂
    exact ⟨_, Cells.write_eq (hfits₂.index_lt (by omega) hj).2, hfits₂.set _ _⟩
  obtain ⟨d₂, hfill₂, hfits₂⟩ := hrow
  exact ⟨d₁, d₂, hfill₁, hfill₂, hfits₂⟩

/-- The distances from and to the empty string. -/
theorem borders_spec (hfits : Fits a b d) : ∃ d₁ d₂,
    forLoop 0 (a.length + 1) (fun i d => d.write (index (b.length + 2) (i + 1) 1) i) d = some d₁ ∧
      forLoop 0 (b.length + 1) (fun j d => d.write (index (b.length + 2) 1 (j + 1)) j) d₁ =
        some d₂ ∧ Fits a b d₂ ∧ Holds a b d₂ fun i' j' => j' = 0 ∨ i' ≤ 0 := by
  have hcolumn : ∃ d₁, forLoop 0 (a.length + 1)
      (fun i d => d.write (index (b.length + 2) (i + 1) 1) i) d = some d₁ ∧ Fits a b d₁ ∧
        Holds a b d₁ fun i' j' => j' = 0 ∧ i' < a.length + 1 := by
    refine forLoop_inv (fun i d₁ => Fits a b d₁ ∧ Holds a b d₁ fun i' j' => j' = 0 ∧ i' < i)
      (by omega) ⟨hfits, fun i' j' _ _ hcell => absurd hcell.2 (Nat.not_lt_zero i')⟩ ?_
    rintro i d₁ - hi ⟨hfits₁, h₁⟩
    have hwrite := h₁.write (fun i' j' => j' = 0 ∧ i' < i + 1) hfits₁ (Nat.le_of_lt_succ hi)
      (Nat.zero_le b.length) fun i' j' hcell => by omega
    rwa [prefixDist_zero_right true b (Nat.le_of_lt_succ hi)] at hwrite
  obtain ⟨d₁, hfill₁, hfits₁, h₁⟩ := hcolumn
  have hrow : ∃ d₂, forLoop 0 (b.length + 1)
      (fun j d => d.write (index (b.length + 2) 1 (j + 1)) j) d₁ = some d₂ ∧ Fits a b d₂ ∧
        Holds a b d₂ fun i' j' => j' = 0 ∨ i' = 0 ∧ j' < b.length + 1 := by
    refine forLoop_inv (fun j d₂ => Fits a b d₂ ∧
      Holds a b d₂ fun i' j' => j' = 0 ∨ i' = 0 ∧ j' < j) (by omega)
      ⟨hfits₁, fun i' j' hi' hj' hcell => h₁ i' j' hi' hj' (by omega)⟩ ?_
    rintro j d₂ - hj ⟨hfits₂, h₂⟩
    have hwrite := h₂.write (fun i' j' => j' = 0 ∨ i' = 0 ∧ j' < j + 1) hfits₂
      (Nat.zero_le a.length) (Nat.le_of_lt_succ hj) fun i' j' hcell => by omega
    rwa [prefixDist_zero_left true a (Nat.le_of_lt_succ hj)] at hwrite
  obtain ⟨d₂, hfill₂, hfits₂, h₂⟩ := hrow
  refine ⟨d₁, d₂, hfill₁, hfill₂, hfits₂, fun i' j' hi' hj' hcell => h₂ i' j' hi' hj' ?_⟩
  omega

/-- The result is the entry for both strings. -/
theorem damerauTable_eq (hfits : Fits a b d) : damerauTable a b d = some (dist true a b) := by
  obtain ⟨d₁, d₂, hfill₁, hfill₂, hfits₂⟩ := sentinels_spec hfits (a.length + b.length + 1)
  obtain ⟨d₃, d₄, hfill₃, hfill₄, hfits₄, h₄⟩ := borders_spec hfits₂
  have hloop : ∃ st : Cells Nat × (UInt8 → Nat), forLoop 1 (a.length + 1)
      (fillLine a b (b.length + 2) (a.length + b.length + 1)) (d₄, fun _ => 0) = some st ∧
      Fits a b st.1 ∧ LastRows a (a.length + 1 - 1) st.2 ∧
        Holds a b st.1 fun i' j' => j' = 0 ∨ i' ≤ a.length + 1 - 1 := by
    refine forLoop_inv (fun i (st : Cells Nat × (UInt8 → Nat)) => Fits a b st.1 ∧
      LastRows a (i - 1) st.2 ∧ Holds a b st.1 fun i' j' => j' = 0 ∨ i' ≤ i - 1) (by omega)
      ⟨hfits₄, IsLast.zero a, h₄⟩ ?_
    rintro i ⟨d₅, lastB⟩ hlow hhigh ⟨hfits₅, hrows, h₅⟩
    obtain ⟨k, rfl⟩ := Nat.exists_eq_add_of_le' hlow
    obtain ⟨d₆, lastB₆, hline, hfits₆, hrows₆, h₆⟩ :=
      fillLine_spec hfits₅ (by omega) hrows h₅
    exact ⟨_, hline, hfits₆, hrows₆, h₆⟩
  obtain ⟨⟨d₅, lastB⟩, hfill₅, -, -, h₅⟩ := hloop
  simp only [damerauTable, hfill₁, hfill₂, hfill₃, hfill₄, hfill₅, Option.bind_eq_bind,
    Option.bind_some]
  rw [h₅ a.length b.length le_rfl le_rfl (by omega), prefixDist_all]

/-! ## Tables beyond `size_t` -/

theorem size_malloc (n : Nat) : (malloc (sizeBytes n)).size = n % 2 ^ 61 := by
  simp only [malloc, Cells.size_fresh, sizeBytes, sizeofSize]
  rw [show 2 ^ 64 = 2 ^ 61 * 8 by decide, Nat.mul_mod_mul_right, Nat.mul_div_cancel _ (by decide)]

/-- In a block with less than a row the row of sentinels runs over, in a larger one the column
does. -/
theorem damerauTable_eq_none (hsize : d.size < 2 ^ 61)
    (hshort : d.size + 2 ^ 61 ≤ (a.length + 2) * (b.length + 2)) : damerauTable a b d = none := by
  have hkeeps : ∀ (index : Nat → Nat) (x i : Nat) (d₁ d₂ : Cells Nat), d₁.size = d.size →
      d₁.write (index i) x = some d₂ → d₂.size = d.size :=
    fun index x i d₁ d₂ hd₁ hwrite => (Cells.size_write hwrite).trans hd₁
  obtain hrow | hrow := Nat.lt_or_ge d.size (b.length + 2)
  · cases hcolumn : forLoop 0 (a.length + 2)
        (fun i d => d.write (index (b.length + 2) i 0) (a.length + b.length + 1)) d with
    | none => simp only [damerauTable, hcolumn, Option.bind_eq_bind, Option.bind_none]
    | some d₁ =>
      have hd₁ : d₁.size = d.size := forLoop_keeps (fun d₁ => d₁.size = d.size) rfl
        (hkeeps (fun i => index (b.length + 2) i 0) _) hcolumn
      have hover : forLoop 0 (b.length + 2)
          (fun j d => d.write (index (b.length + 2) 0 j) (a.length + b.length + 1)) d₁ = none := by
        refine forLoop_eq_none (fun d₂ => d₂.size = d.size) ⟨Nat.zero_le d.size, hrow⟩ hd₁
          (hkeeps (fun j => index (b.length + 2) 0 j) _) fun d₂ hd₂ => Cells.write_eq_none ?_
        rw [hd₂, index, Nat.zero_mul, Nat.zero_add, Nat.mod_eq_of_lt (by omega)]
      simp only [damerauTable, hcolumn, hover, Option.bind_eq_bind, Option.bind_some,
        Option.bind_none]
  · -- the first row that does not start in the block
    obtain ⟨k, hk⟩ : ∃ k, k = (d.size + (b.length + 1)) / (b.length + 2) := ⟨_, rfl⟩
    have hbelow : k * (b.length + 2) ≤ d.size + (b.length + 1) := by
      rw [hk]
      exact Nat.div_mul_le_self _ _
    have habove : d.size + (b.length + 1) < k * (b.length + 2) + (b.length + 2) := by
      rw [hk]
      exact Nat.lt_div_mul_add (by omega)
    have hk : k < a.length + 2 := by
      refine Nat.lt_of_mul_lt_mul_right (a := b.length + 2) ?_
      omega
    have hover : forLoop 0 (a.length + 2)
        (fun i d => d.write (index (b.length + 2) i 0) (a.length + b.length + 1)) d = none := by
      refine forLoop_eq_none (fun d₁ => d₁.size = d.size) ⟨Nat.zero_le k, hk⟩ rfl
        (hkeeps (fun i => index (b.length + 2) i 0) _) fun d₁ hd₁ => Cells.write_eq_none ?_
      rw [hd₁, index, Nat.mod_eq_of_lt (by omega)]
      omega
    simp only [damerauTable, hover, Option.bind_eq_bind, Option.bind_none]

theorem damerauTable_undefined (hlarge : 2 ^ 61 ≤ (a.length + 2) * (b.length + 2)) :
    damerauTable a b (malloc (sizeBytes ((a.length + 2) * (b.length + 2)))) = none := by
  refine damerauTable_eq_none ?_ ?_
  all_goals rw [size_malloc]
  · exact Nat.mod_lt _ (by decide)
  · have hmod := Nat.mod_add_div ((a.length + 2) * (b.length + 2)) (2 ^ 61)
    have hdiv : 1 ≤ (a.length + 2) * (b.length + 2) / 2 ^ 61 :=
      (Nat.one_le_div_iff (by decide)).mpr hlarge
    omega

/-! ## The result -/

theorem damerauTable_malloc (a b : Str) :
    damerauTable a b (malloc (sizeBytes ((a.length + 2) * (b.length + 2)))) =
      if (a.length + 2) * (b.length + 2) < 2 ^ 61 then some (dist true a b) else none := by
  split
  case isTrue hlimit =>
    refine damerauTable_eq ⟨hlimit, ?_⟩
    rw [size_malloc, Nat.mod_eq_of_lt hlimit]
  case isFalse hlarge => exact damerauTable_undefined (Nat.not_lt.mp hlarge)

/-- `strsim_damerau_levenshtein` for two strings that are not empty. -/
theorem strsimDamerauLevenshtein_eq {alloc : Nat → Bool} (ha : a ≠ []) (hb : b ≠ [])
    (halloc : alloc (sizeBytes ((a.length + 2) * (b.length + 2))) = true) :
    strsimDamerauLevenshtein alloc (some a) (some b) true =
      if (a.length + 2) * (b.length + 2) < 2 ^ 61 then some (.ok (dist true a b)) else none := by
  have hlength : ∀ {s : Str}, s ≠ [] → s.length ≠ 0 := fun hs h => hs (List.length_eq_zero_iff.mp h)
  unfold strsimDamerauLevenshtein
  dsimp only
  rw [if_neg (hlength ha), if_neg (hlength hb), if_pos halloc, damerauTable_malloc]
  split <;> rfl

/-- `strsim_damerau_levenshtein` computes the least number of insertions, deletions, substitutions
and exchanges of neighbours, a metric, for exactly the strings whose table fits into `size_t`. -/
theorem damerau_exact_iff (alloc : Nat → Bool) (a b : Str)
    (halloc : alloc (sizeBytes ((a.length + 2) * (b.length + 2))) = true) :
    (strsimDamerauLevenshtein alloc (some a) (some b) true = some (.ok (dist true a b)) ↔
      a = [] ∨ b = [] ∨ (a.length + 2) * (b.length + 2) < 2 ^ 61) ∧
    IsLeast {n | Edits true n a b} (dist true a b) ∧ dist true a b = dist true b a ∧
    dist true a b ≤ levenshtein a b ∧ (dist true a b = 0 ↔ a = b) ∧
    ∀ c, dist true a c ≤ dist true a b + dist true b c := by
  refine ⟨?_, isLeast_dist true a b, dist_comm true a b, ?_, dist_eq_zero_iff,
    dist_triangle true a b⟩
  · by_cases ha : a = []
    · subst ha
      rw [dist_nil_left]
      exact iff_of_true rfl (.inl rfl)
    by_cases hb : b = []
    · subst hb
      rw [dist_nil_right, strsimDamerauLevenshtein,
        if_neg fun h => ha (List.length_eq_zero_iff.mp h)]
      exact iff_of_true rfl (.inr (.inl rfl))
    rw [strsimDamerauLevenshtein_eq ha hb halloc, or_iff_right ha, or_iff_right hb]
    split
    case isTrue hlimit => exact iff_of_true rfl hlimit
    case isFalse hlarge => exact iff_of_false nofun hlarge
  · rw [levenshtein_eq_dist]
    exact dist_le_of_swaps a b

/-- The typing error takes one exchange. -/
theorem damerau_exact_iff_typo : strsimDamerauLevenshtein (fun _ => true)
    (some [116, 101, 104]) (some [116, 104, 101]) true =
      some (.ok (dist true ([116, 101, 104] : Str) [116, 104, 101])) :=
  (damerau_exact_iff (fun _ => true) [116, 101, 104] [116, 104, 101] rfl).1.mpr
    (.inr (.inr (by decide)))

/-- For two strings of one and a half billion letters the size of the table wraps to 1653 cells, and
the loops run over that block. -/
theorem table_size_wraps :
    let a : Str := List.replicate 1519111589 97
    let b : Str := List.replicate 1517889153 98
    (malloc (sizeBytes ((a.length + 2) * (b.length + 2)))).size = 1653 ∧
      strsimDamerauLevenshtein (fun _ => true) (some a) (some b) true = none := by
  intro a b
  have ha : a.length = 1519111589 := List.length_replicate
  have hb : b.length = 1517889153 := List.length_replicate
  have hne : ∀ {s : Str}, 0 < s.length → s ≠ [] := fun h => List.ne_nil_of_length_pos h
  refine ⟨?_, ?_⟩
  · rw [size_malloc, ha, hb]
    decide
  · rw [strsimDamerauLevenshtein_eq (hne (by omega)) (hne (by omega)) rfl, ha, hb]
    exact if_neg (by decide)

end Solidc.Strsim
