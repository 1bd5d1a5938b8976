import Solidc.Lib.Cyclic

/-! # Robin Hood tables

A cyclic table whose cells store their own distance from home (`dib`). Two local
conditions are enough for everything: each stored distance is right, and a cell
that is not at home follows an occupied slot whose distance is at most one less
(`Ordered`). Walking back from a cell therefore never meets a gap or a distance
too small before its home (`Ordered.behind`), which is why a search may stop at
the first slot whose distance is smaller than the number of steps walked.

* `rhInsert` — insertion with displacement, and `rhInsert_spec`;
* `rhShift` — backward-shift deletion, and `rhShift_spec`. It ends because some
  slot is empty or holds a cell at home (`Anchored`), also in a full table.
-/

namespace CLib

/-- A cell: a key, what is stored under it, and the distance from the key's home. -/
structure Cell (K V : Type*) where
  key : K
  val : V
  dib : Nat

variable {K V : Type*} {n : Nat} {home : K → Nat} {r : K → K → Prop}
  {t : Nat → Option (Cell K V)}

/-- The ordering invariant. -/
structure Ordered (n : Nat) (home : K → Nat) (t : Nat → Option (Cell K V)) : Prop where
  dist : ∀ i < n, ∀ c, t i = some c → c.dib = cdist n (home c.key) i
  step : ∀ i < n, ∀ c, t ((i + 1) % n) = some c → 0 < c.dib →
    ∃ p, t i = some p ∧ c.dib ≤ p.dib + 1

/-- No two slots hold related keys. -/
def Unique (n : Nat) (r : K → K → Prop) (t : Nat → Option (Cell K V)) : Prop :=
  ∀ i < n, ∀ j < n, ∀ c d, t i = some c → t j = some d → r c.key d.key → i = j

/-- The table stores `v` under a key related to `k`. -/
def Has (n : Nat) (r : K → K → Prop) (t : Nat → Option (Cell K V)) (k : K) (v : V) : Prop :=
  ∃ i < n, ∃ c, t i = some c ∧ r c.key k ∧ c.val = v

/-- A slot at which a backward shift stops: empty, or holding a cell at home. -/
def Anchored (t : Nat → Option (Cell K V)) (z : Nat) : Prop :=
  ∀ c, t z = some c → c.dib = 0

/-- The successor is injective. -/
theorem succ_mod_inj {i j : Nat} (hi : i < n) (hj : j < n) (h : (i + 1) % n = (j + 1) % n) :
    i = j := by
  rcases Nat.lt_or_ge 1 n with h1 | h1
  · rw [add_mod_cases hi h1, add_mod_cases hj h1] at h
    split_ifs at h <;> omega
  · omega

theorem succ_mod_ne {i : Nat} (h1 : 1 < n) (hi : i < n) : (i + 1) % n ≠ i := by
  rw [add_mod_cases hi h1]
  split_ifs <;> omega

/-- The slot after an empty one is an anchor. -/
theorem Ordered.anchored_succ (h : Ordered n home t) {e : Nat} (he : e < n)
    (hempty : t e = none) : Anchored t ((e + 1) % n) := by
  intro c hc
  by_contra hne
  rcases h.step e he c hc (by omega) with ⟨p, hp, -⟩
  rw [hempty] at hp
  cases hp

/-- Every slot between a cell's home and the cell is occupied, by a cell at least
as far from its own home as the walk has come. -/
theorem Ordered.behind (h : Ordered n home t) (hhome : ∀ k, home k < n) {i : Nat} (hi : i < n)
    {c : Cell K V} (hc : t i = some c) {d : Nat} (hd : d ≤ c.dib) :
    ∃ p, t ((home c.key + d) % n) = some p ∧ d ≤ p.dib := by
  have hk := hhome c.key
  have hdist := h.dist i hi c hc
  have hlt := cdist_lt hk hi
  -- walk back from the cell: `e` steps back the distance has dropped by at most `e`
  have hback : ∀ e ≤ c.dib, ∃ p, t ((home c.key + (c.dib - e)) % n) = some p ∧
      c.dib - e ≤ p.dib := by
    intro e
    induction e with
    | zero =>
      intro _
      refine ⟨c, ?_, by omega⟩
      rw [Nat.sub_zero, hdist, add_cdist hk hi]
      exact hc
    | succ e ih =>
      intro he
      rcases ih (by omega) with ⟨q, hq, hqd⟩
      have hslot : (home c.key + (c.dib - (e + 1))) % n < n := Nat.mod_lt _ (by omega)
      have hsucc : ((home c.key + (c.dib - (e + 1))) % n + 1) % n =
          (home c.key + (c.dib - e)) % n := by
        rw [Nat.mod_add_mod]
        congr 1
        omega
      rcases h.step _ hslot q (by rw [hsucc]; exact hq) (by omega) with ⟨p, hp, hpd⟩
      exact ⟨p, hp, by omega⟩
  rcases hback (c.dib - d) (by omega) with ⟨p, hp, hpd⟩
  rw [Nat.sub_sub_self hd] at hp hpd
  exact ⟨p, hp, hpd⟩

/-- What a search for the key of a cell meets, `d` steps past its home: the cell itself, or before
it a cell with another key. -/
theorem Ordered.met (h : Ordered n home t) (hu : Unique n r t) (hr : Equivalence r)
    (hrel : ∀ a b, r a b → home a = home b) (hhome : ∀ k, home k < n) {i : Nat} (hi : i < n)
    {c : Cell K V} (hc : t i = some c) {k : K} (hck : r c.key k) {d : Nat} (hd : d ≤ c.dib) :
    ∃ p, t ((home k + d) % n) = some p ∧ d ≤ p.dib ∧
      (d < c.dib ∧ ¬ r p.key k ∨ d = c.dib ∧ (home k + d) % n = i ∧ p = c) := by
  have hdist := h.dist i hi c hc
  rcases h.behind hhome hi hc hd with ⟨p, hp, hpd⟩
  rw [hrel _ _ hck] at hp hdist
  refine ⟨p, hp, hpd, ?_⟩
  rcases Nat.lt_or_eq_of_le hd with hlt | heq
  · -- not there yet: the key stands in one slot only
    refine .inl ⟨hlt, ?_⟩
    intro hpk
    have hslot : (home k + d) % n < n := Nat.mod_lt _ (Nat.zero_lt_of_lt hi)
    have hsame := hu _ hslot i hi p c hp hc (hr.trans hpk (hr.symm hck))
    have hbound := cdist_lt (hhome k) hi
    have hwalked := cdist_add (hhome k) (show d < n by omega)
    rw [hsame] at hwalked
    omega
  · have hslot : (home k + d) % n = i := by
      rw [heq, hdist]
      exact add_cdist (hhome k) hi
    rw [hslot, hc] at hp
    exact .inr ⟨heq, hslot, (Option.some.inj hp).symm⟩

/-! ## Insertion -/

/-- Insertion of a carried cell: place it in an empty slot, take the place of a
cell nearer its home and carry that one on, or pass. -/
def rhInsert (n : Nat) : Nat → (Nat → Option (Cell K V)) → Cell K V → Nat →
    Option (Nat → Option (Cell K V))
  | 0, _, _, _ => none
  | fuel + 1, t, c, idx =>
    match t idx with
    | none => some (Function.update t idx (some c))
    | some p =>
      if p.dib < c.dib then
        rhInsert n fuel (Function.update t idx (some c)) { p with dib := p.dib + 1 }
          ((idx + 1) % n)
      else rhInsert n fuel t { c with dib := c.dib + 1 } ((idx + 1) % n)

/-- The cell in hand fits at `idx`. -/
structure Carry (n : Nat) (home : K → Nat) (r : K → K → Prop) (t : Nat → Option (Cell K V))
    (c : Cell K V) (idx : Nat) : Prop where
  dist : c.dib = cdist n (home c.key) idx
  back : 0 < c.dib → ∀ i < n, (i + 1) % n = idx → ∃ p, t i = some p ∧ c.dib ≤ p.dib + 1
  fresh : ∀ i < n, ∀ p, t i = some p → ¬ r p.key c.key

/-- Writing the cell in hand over a slot that is empty or nearer home. -/
theorem Ordered.write (h : Ordered n home t) {c : Cell K V} {idx : Nat} (h1 : 1 < n)
    (hidx : idx < n) (hcarry : Carry n home r t c idx)
    (hpoor : ∀ p, t idx = some p → p.dib ≤ c.dib) :
    Ordered n home (Function.update t idx (some c)) where
  dist i hi d hd := by
    by_cases hii : i = idx
    · rw [hii, Function.update_self] at hd
      cases hd
      rw [hii]
      exact hcarry.dist
    · rw [Function.update_of_ne hii] at hd
      exact h.dist i hi d hd
  step i hi d hd hpos := by
    by_cases hs : (i + 1) % n = idx
    · -- the written slot: its predecessor is untouched
      have hne : i ≠ idx := by
        intro e
        rw [e] at hs
        exact succ_mod_ne h1 hidx hs
      rw [hs, Function.update_self] at hd
      cases hd
      rw [Function.update_of_ne hne]
      exact hcarry.back hpos i hi hs
    · rw [Function.update_of_ne hs] at hd
      rcases h.step i hi d hd hpos with ⟨p, hp, hpd⟩
      by_cases hii : i = idx
      · refine ⟨c, by rw [hii, Function.update_self], ?_⟩
        have := hpoor p (by rw [← hii]; exact hp)
        omega
      · exact ⟨p, by rw [Function.update_of_ne hii]; exact hp, hpd⟩

theorem Unique.write (h : Unique n r t) (hr : Equivalence r) {c : Cell K V} {idx : Nat}
    (hfresh : ∀ i < n, i ≠ idx → ∀ p, t i = some p → ¬ r p.key c.key) :
    Unique n r (Function.update t idx (some c)) := by
  intro i hi j hj a b ha hb hab
  by_cases hii : i = idx
  · by_cases hjj : j = idx
    · exact hii.trans hjj.symm
    · rw [hii, Function.update_self] at ha
      cases ha
      rw [Function.update_of_ne hjj] at hb
      exact absurd (hr.symm hab) (hfresh j hj hjj b hb)
  · rw [Function.update_of_ne hii] at ha
    by_cases hjj : j = idx
    · rw [hjj, Function.update_self] at hb
      cases hb
      exact absurd hab (hfresh i hi hii a ha)
    · rw [Function.update_of_ne hjj] at hb
      exact h i hi j hj a b ha hb hab

/-- What overwriting a slot does to the stored pairs. -/
theorem has_write {c : Cell K V} {idx : Nat} (hidx : idx < n) (k : K) (v : V) :
    Has n r (Function.update t idx (some c)) k v ↔
      (r c.key k ∧ c.val = v) ∨ ∃ i < n, i ≠ idx ∧ ∃ d, t i = some d ∧ r d.key k ∧ d.val = v := by
  constructor
  · intro h
    rcases h with ⟨i, hi, d, hd, hrel, hv⟩
    by_cases hii : i = idx
    · rw [hii, Function.update_self] at hd
      cases hd
      exact .inl ⟨hrel, hv⟩
    · rw [Function.update_of_ne hii] at hd
      exact .inr ⟨i, hi, hii, d, hd, hrel, hv⟩
  · intro h
    rcases h with ⟨hrel, hv⟩ | ⟨i, hi, hii, d, hd, hrel, hv⟩
    · exact ⟨idx, hidx, c, Function.update_self .., hrel, hv⟩
    · exact ⟨i, hi, d, by rw [Function.update_of_ne hii]; exact hd, hrel, hv⟩

/-- What an insertion guarantees. -/
structure Inserted (n : Nat) (home : K → Nat) (r : K → K → Prop) (t : Nat → Option (Cell K V))
    (c : Cell K V) (t' : Nat → Option (Cell K V)) : Prop where
  ordered : Ordered n home t'
  unique : Unique n r t'
  anchor : ∃ z < n, Anchored t' z
  has : ∀ k v, Has n r t' k v ↔ Has n r t k v ∨ (r c.key k ∧ c.val = v)
  count : slotCount n t' Option.isSome = slotCount n t Option.isSome + 1

/-- The cell in hand is put down in an empty slot. -/
theorem inserted_place (h : Ordered n home t) (hu : Unique n r t) (hr : Equivalence r)
    (h1 : 1 < n) {c : Cell K V} {idx : Nat} (hidx : idx < n) (hcarry : Carry n home r t c idx)
    (hempty : t idx = none) :
    Inserted n home r t c (Function.update t idx (some c)) := by
  have hne := succ_mod_ne h1 hidx
  refine ⟨h.write h1 hidx hcarry ?_, hu.write hr (fun i hi _ => hcarry.fresh i hi),
    ⟨(idx + 1) % n, Nat.mod_lt _ (by omega), ?_⟩, ?_, ?_⟩
  · intro p hp
    rw [hempty] at hp
    cases hp
  · intro d hd
    rw [Function.update_of_ne hne] at hd
    exact h.anchored_succ hidx hempty d hd
  · intro k v
    rw [has_write hidx]
    constructor
    · intro hk
      rcases hk with hk | ⟨i, hi, -, hk⟩
      · exact .inr hk
      · exact .inl ⟨i, hi, hk⟩
    · intro hk
      rcases hk with ⟨i, hi, d, hd, hk⟩ | hk
      · have hii : i ≠ idx := by
          intro e
          rw [e, hempty] at hd
          cases hd
        exact .inr ⟨i, hi, hii, d, hd, hk⟩
      · exact .inl hk
  · have hc := slotCount_update (f := t) (q := Option.isSome) hidx (some c)
    simpa [hempty] using hc

/-- The carried cell moves on past a cell that is no nearer home. -/
theorem Carry.pass {c p : Cell K V} {idx : Nat} (hcarry : Carry n home r t c idx)
    (hhome : ∀ k, home k < n) (hidx : idx < n) (hp : t idx = some p) (hpoor : c.dib ≤ p.dib)
    (hroom : c.dib + 1 < n) :
    Carry n home r t { c with dib := c.dib + 1 } ((idx + 1) % n) where
  dist := by
    have hd := hcarry.dist
    show c.dib + 1 = cdist n (home c.key) ((idx + 1) % n)
    rw [cdist_succ (hhome c.key) hidx (by omega), ← hd]
  back _ i hi hs := by
    have hii := succ_mod_inj hi hidx hs
    exact ⟨p, by rw [hii]; exact hp, by show c.dib + 1 ≤ p.dib + 1; omega⟩
  fresh i hi q hq := hcarry.fresh i hi q hq

/-- The displaced cell is carried on. -/
theorem Carry.displaced {c p : Cell K V} {idx : Nat} (h : Ordered n home t) (hu : Unique n r t)
    (hr : Equivalence r) (hcarry : Carry n home r t c idx) (hhome : ∀ k, home k < n)
    (hidx : idx < n) (hp : t idx = some p) (hrich : p.dib < c.dib) (hroom : p.dib + 1 < n) :
    Carry n home r (Function.update t idx (some c)) { p with dib := p.dib + 1 }
      ((idx + 1) % n) where
  dist := by
    have hd := h.dist idx hidx p hp
    show p.dib + 1 = cdist n (home p.key) ((idx + 1) % n)
    rw [cdist_succ (hhome p.key) hidx (by omega), ← hd]
  back _ i hi hs := by
    have hii := succ_mod_inj hi hidx hs
    refine ⟨c, by rw [hii, Function.update_self], ?_⟩
    show p.dib + 1 ≤ c.dib + 1
    omega
  fresh i hi q hq := by
    by_cases hii : i = idx
    · rw [hii, Function.update_self] at hq
      cases hq
      intro hrel
      exact hcarry.fresh idx hidx p hp (hr.symm hrel)
    · rw [Function.update_of_ne hii] at hq
      intro hrel
      exact hii (hu i hi idx hidx q p hq hp hrel)

/-- Insertion, by induction on its fuel. An empty slot `e` lies ahead, and the
carried distance leaves room for the way to it. -/
theorem rhInsert_spec (hr : Equivalence r) (hhome : ∀ k, home k < n) (h1 : 1 < n) (fuel : Nat)
    {c : Cell K V} {idx e : Nat} (h : Ordered n home t) (hu : Unique n r t) (hidx : idx < n)
    (he : e < n) (hempty : t e = none) (hcarry : Carry n home r t c idx)
    (hfuel : cdist n idx e < fuel) (hroom : c.dib + cdist n idx e < n) :
    ∃ t', rhInsert n fuel t c idx = some t' ∧ Inserted n home r t c t' := by
  induction fuel generalizing t c idx with
  | zero => omega
  | succ fuel ih =>
    unfold rhInsert
    cases hp : t idx with
    | none => exact ⟨_, rfl, inserted_place h hu hr h1 hidx hcarry hp⟩
    | some p =>
      simp only
      have hne : idx ≠ e := by
        intro heq
        rw [heq, hempty] at hp
        cases hp
      have hstep := succ_cdist hidx he hne
      have hnext : (idx + 1) % n < n := Nat.mod_lt _ (by omega)
      by_cases hrich : p.dib < c.dib
      · rw [if_pos hrich]
        -- the carried cell takes the place of a nearer one, which is carried on
        have hord := h.write h1 hidx hcarry
          (fun q hq => by rw [hp] at hq; cases hq; omega)
        have hfresh : ∀ i < n, i ≠ idx → ∀ p, t i = some p → ¬ r p.key c.key :=
          fun i hi _ => hcarry.fresh i hi
        have huni := hu.write hr hfresh
        have hcarry' := Carry.displaced h hu hr hcarry hhome hidx hp hrich (by omega)
        have hempty' : Function.update t idx (some c) e = none := by
          rw [Function.update_of_ne hne.symm]
          exact hempty
        rcases ih hord huni hnext hempty' hcarry' (by omega)
          (by show p.dib + 1 + _ < n; omega) with ⟨t', ht', hins⟩
        refine ⟨t', ht', hins.ordered, hins.unique, hins.anchor, ?_, ?_⟩
        · intro k v
          rw [hins.has, has_write hidx]
          constructor
          · intro hk
            rcases hk with (hk | ⟨i, hi, -, hk⟩) | hk
            · exact .inr hk
            · exact .inl ⟨i, hi, hk⟩
            · exact .inl ⟨idx, hidx, p, hp, hk⟩
          · intro hk
            rcases hk with ⟨i, hi, d, hd, hk⟩ | hk
            · by_cases hii : i = idx
              · rw [hii, hp] at hd
                cases hd
                exact .inr hk
              · exact .inl (.inr ⟨i, hi, hii, d, hd, hk⟩)
            · exact .inl (.inl hk)
        · rw [hins.count]
          have hc := slotCount_update (f := t) (q := Option.isSome) hidx (some c)
          rw [hp] at hc
          simpa using hc
      · rw [if_neg hrich]
        -- the cell here is at least as far from home: pass it
        have hcarry' := hcarry.pass hhome hidx hp (by omega) (by omega)
        rcases ih h hu hnext hempty hcarry' (by omega)
          (by show c.dib + 1 + _ < n; omega) with ⟨t', ht', hins⟩
        exact ⟨t', ht', hins.ordered, hins.unique, hins.anchor, hins.has, hins.count⟩

/-! ### A new value for a stored key -/

/-- A cell written over another with the same key and distance is found where that was. -/
theorem revalue_cell {i j : Nat} {c d : Cell K V} (hc : t i = some c) (value : V)
    (hd : Function.update t i (some { c with val := value }) j = some d) :
    ∃ d', t j = some d' ∧ d'.key = d.key ∧ d'.dib = d.dib := by
  by_cases hji : j = i
  · rw [hji, Function.update_self] at hd
    cases hd
    exact ⟨c, by rw [hji]; exact hc, rfl, rfl⟩
  · rw [Function.update_of_ne hji] at hd
    exact ⟨d, hd, rfl, rfl⟩

theorem Ordered.revalue (h : Ordered n home t) {i : Nat} {c : Cell K V} (hc : t i = some c)
    (value : V) : Ordered n home (Function.update t i (some { c with val := value })) := by
  constructor
  · intro j hj d hd
    rcases revalue_cell hc value hd with ⟨d', hd', hkey, hdib⟩
    rw [← hkey, ← hdib]
    exact h.dist j hj d' hd'
  · intro j hj d hd hpos
    rcases revalue_cell hc value hd with ⟨d', hd', -, hdib⟩
    rcases h.step j hj d' hd' (by omega) with ⟨p, hp, hpd⟩
    by_cases hji : j = i
    · rw [hji, hc] at hp
      cases hp
      exact ⟨_, by rw [hji, Function.update_self], by show d.dib ≤ c.dib + 1; omega⟩
    · exact ⟨p, by rw [Function.update_of_ne hji]; exact hp, by omega⟩

theorem Unique.revalue (h : Unique n r t) {i : Nat} {c : Cell K V} (hc : t i = some c)
    (value : V) : Unique n r (Function.update t i (some { c with val := value })) := by
  intro j hj l hl a b ha hb hab
  rcases revalue_cell hc value ha with ⟨a', ha', hka, -⟩
  rcases revalue_cell hc value hb with ⟨b', hb', hkb, -⟩
  exact h j hj l hl a' b' ha' hb' (by rw [hka, hkb]; exact hab)

theorem Anchored.revalue {z : Nat} (h : Anchored t z) {i : Nat} {c : Cell K V}
    (hc : t i = some c) (value : V) :
    Anchored (Function.update t i (some { c with val := value })) z := by
  intro d hd
  rcases revalue_cell hc value hd with ⟨d', hd', -, hdib⟩
  rw [← hdib]
  exact h d' hd'

/-- The keys related to the cell's have the new value, and the others what they had. -/
theorem Unique.has_revalue (h : Unique n r t) (hr : Equivalence r) {i : Nat} {c : Cell K V}
    (hi : i < n) (hc : t i = some c) {key : K} (hrel : r c.key key) (value : V) (k : K) (v : V) :
    Has n r (Function.update t i (some { c with val := value })) k v ↔
      (r key k ∧ v = value) ∨ (¬ r key k ∧ Has n r t k v) := by
  rw [has_write hi]
  constructor
  · rintro (⟨hk, hv⟩ | ⟨j, hj, hji, d, hd, hdk, hv⟩)
    · exact .inl ⟨hr.trans (hr.symm hrel) hk, hv.symm⟩
    · refine .inr ⟨fun hk => hji ?_, j, hj, d, hd, hdk, hv⟩
      exact h j hj i hi d c hd hc (hr.trans hdk (hr.symm (hr.trans hrel hk)))
  · rintro (⟨hk, hv⟩ | ⟨hnot, j, hj, d, hd, hdk, hv⟩)
    · exact .inl ⟨hr.trans hrel hk, hv.symm⟩
    · refine .inr ⟨j, hj, ?_, d, hd, hdk, hv⟩
      rintro rfl
      rw [hc] at hd
      cases hd
      exact hnot (hr.trans (hr.symm hrel) hdk)

/-! ## Deletion -/

/-- Backward shift: while the slot after the hole holds a cell away from home, move
it back. Returns the table and the last hole, whose content is stale. -/
def rhShift (n : Nat) : Nat → (Nat → Option (Cell K V)) → Nat →
    Option ((Nat → Option (Cell K V)) × Nat)
  | 0, _, _ => none
  | fuel + 1, t, hole =>
    match t ((hole + 1) % n) with
    | none => some (t, hole)
    | some c =>
      if c.dib = 0 then some (t, hole)
      else rhShift n fuel (Function.update t hole (some { c with dib := c.dib - 1 }))
        ((hole + 1) % n)

/-- The hole is occupied by stale content; the rest of the table is unique. -/
structure HoleAt (n : Nat) (home : K → Nat) (r : K → K → Prop) (t : Nat → Option (Cell K V))
    (hole : Nat) : Prop where
  hole_lt : hole < n
  ordered : Ordered n home t
  occupied : ∃ c, t hole = some c
  unique : Unique n r (Function.update t hole none)

/-- Emptying a slot leaves the others as they were. -/
theorem clear_eq_some {i j : Nat} {c : Cell K V} :
    Function.update t i none j = some c ↔ j ≠ i ∧ t j = some c := by
  by_cases hji : j = i
  · subst hji
    simp
  · simp [hji]

theorem Unique.clear (h : Unique n r t) (i : Nat) : Unique n r (Function.update t i none) := by
  intro j hj l hl a b ha hb hab
  rw [clear_eq_some] at ha hb
  exact h j hj l hl a b ha.2 hb.2 hab

/-- Emptying the slot of `c` takes out what is stored under the keys related to its key. -/
theorem Unique.has_clear (h : Unique n r t) (hr : Equivalence r) {i : Nat} {c : Cell K V}
    (hi : i < n) (hc : t i = some c) {key : K} (hrel : r c.key key) (k : K) (v : V) :
    Has n r (Function.update t i none) k v ↔ Has n r t k v ∧ ¬ r key k := by
  constructor
  · rintro ⟨j, hj, d, hd, hdk, hv⟩
    rw [clear_eq_some] at hd
    refine ⟨⟨j, hj, d, hd.2, hdk, hv⟩, fun hk => hd.1 ?_⟩
    -- were the keys related, the cell would be the one in slot `i`
    exact h j hj i hi d c hd.2 hc (hr.trans hdk (hr.symm (hr.trans hrel hk)))
  · rintro ⟨⟨j, hj, d, hd, hdk, hv⟩, hnot⟩
    refine ⟨j, hj, d, clear_eq_some.mpr ⟨?_, hd⟩, hdk, hv⟩
    rintro rfl
    rw [hc] at hd
    cases hd
    exact hnot (hr.trans (hr.symm hrel) hdk)

/-- Moving the next cell back into the hole. -/
theorem HoleAt.move (h1 : 1 < n) (hhome : ∀ k, home k < n) {hole : Nat}
    (h : HoleAt n home r t hole) {c : Cell K V} (hc : t ((hole + 1) % n) = some c)
    (hpos : 0 < c.dib) :
    HoleAt n home r (Function.update t hole (some { c with dib := c.dib - 1 }))
      ((hole + 1) % n) := by
  have hlt := h.hole_lt
  have hnext : (hole + 1) % n < n := Nat.mod_lt _ (by omega)
  have hne := succ_mod_ne h1 hlt
  rcases h.ordered.step hole hlt c hc hpos with ⟨p, hp, hpd⟩
  have hdist := h.ordered.dist _ hnext c hc
  have hhc := hhome c.key
  refine ⟨hnext, ⟨?_, ?_⟩, ⟨c, by rw [Function.update_of_ne hne]; exact hc⟩, ?_⟩
  · intro i hi d hd
    by_cases hii : i = hole
    · rw [hii, Function.update_self] at hd
      cases hd
      rw [hii]
      show c.dib - 1 = cdist n (home c.key) hole
      have hback : cdist n (home c.key) hole + 1 < n := by
        by_contra hbig
        have hl := cdist_lt hhc hlt
        have hfull : cdist n (home c.key) hole = n - 1 := by omega
        have hround : (hole + 1) % n = home c.key := by
          have e := add_cdist hhc hlt
          rw [hfull] at e
          rw [← e, Nat.mod_add_mod, Nat.add_assoc, Nat.sub_add_cancel (by omega),
            Nat.add_mod_right, Nat.mod_eq_of_lt hhc]
        rw [hround, cdist_self] at hdist
        omega
      rw [cdist_succ hhc hlt hback] at hdist
      omega
    · rw [Function.update_of_ne hii] at hd
      exact h.ordered.dist i hi d hd
  · intro i hi d hd hdpos
    by_cases hs : (i + 1) % n = hole
    · have hii : i ≠ hole := by
        intro e
        rw [e] at hs
        exact hne hs
      rw [hs, Function.update_self] at hd
      cases hd
      -- the new distance is at most the stale one, which the predecessor supports
      have hdpos' : 0 < c.dib - 1 := hdpos
      rcases h.ordered.step i hi p (by rw [hs]; exact hp) (by omega) with ⟨q, hq, hqd⟩
      exact ⟨q, by rw [Function.update_of_ne hii]; exact hq, by show c.dib - 1 ≤ _; omega⟩
    · rw [Function.update_of_ne hs] at hd
      rcases h.ordered.step i hi d hd hdpos with ⟨q, hq, hqd⟩
      by_cases hii : i = hole
      · rw [hii, hc] at hd
        cases hd
        refine ⟨_, by rw [hii, Function.update_self], ?_⟩
        show c.dib ≤ c.dib - 1 + 1
        omega
      · exact ⟨q, by rw [Function.update_of_ne hii]; exact hq, hqd⟩
  · intro i hi j hj a b ha hb hab
    -- the moved cell stands in the old hole: send it back to the slot it came from
    have htrace : ∀ i < n, ∀ a, Function.update (Function.update t hole
        (some { c with dib := c.dib - 1 })) ((hole + 1) % n) none i = some a →
        ∃ i' < n, ∃ a', Function.update t hole none i' = some a' ∧ a'.key = a.key ∧
          (i = hole ∧ i' = (hole + 1) % n ∨ i ≠ hole ∧ i ≠ (hole + 1) % n ∧ i' = i) := by
      intro i hi a ha
      obtain ⟨hin, ha⟩ := clear_eq_some.mp ha
      by_cases hih : i = hole
      · rw [hih, Function.update_self] at ha
        cases ha
        exact ⟨_, hnext, c, clear_eq_some.mpr ⟨hne, hc⟩, rfl, .inl ⟨hih, rfl⟩⟩
      · rw [Function.update_of_ne hih] at ha
        exact ⟨i, hi, a, clear_eq_some.mpr ⟨hih, ha⟩, rfl, .inr ⟨hih, hin, rfl⟩⟩
    rcases htrace i hi a ha with ⟨i', hi', a', ha', hka, hwi⟩
    rcases htrace j hj b hb with ⟨j', hj', b', hb', hkb, hwj⟩
    have heq := h.unique i' hi' j' hj' a' b' ha' hb' (by rw [hka, hkb]; exact hab)
    omega

/-- The pairs stored outside the hole survive the move. -/
theorem has_move (h1 : 1 < n) {hole : Nat} (hlt : hole < n) {c : Cell K V}
    (hc : t ((hole + 1) % n) = some c) (k : K) (v : V) :
    Has n r (Function.update (Function.update t hole (some { c with dib := c.dib - 1 }))
        ((hole + 1) % n) none) k v ↔ Has n r (Function.update t hole none) k v := by
  have hnext : (hole + 1) % n < n := Nat.mod_lt _ (by omega)
  have hne := succ_mod_ne h1 hlt
  constructor
  · intro hk
    rcases hk with ⟨i, hi, d, hd, hk⟩
    obtain ⟨-, hd⟩ := clear_eq_some.mp hd
    by_cases hih : i = hole
    · -- what stands in the old hole came from the slot after it
      rw [hih, Function.update_self] at hd
      cases hd
      exact ⟨_, hnext, c, clear_eq_some.mpr ⟨hne, hc⟩, hk⟩
    · rw [Function.update_of_ne hih] at hd
      exact ⟨i, hi, d, clear_eq_some.mpr ⟨hih, hd⟩, hk⟩
  · intro hk
    rcases hk with ⟨i, hi, d, hd, hk⟩
    obtain ⟨hih, hd⟩ := clear_eq_some.mp hd
    by_cases hin : i = (hole + 1) % n
    · rw [hin, hc] at hd
      cases hd
      exact ⟨hole, hlt, { c with dib := c.dib - 1 }, by
        rw [Function.update_of_ne hne.symm, Function.update_self], hk⟩
    · refine ⟨i, hi, d, clear_eq_some.mpr ⟨hin, ?_⟩, hk⟩
      rw [Function.update_of_ne hih]
      exact hd

/-- What a backward shift guarantees once its last hole is emptied. -/
structure ShiftedBack (n : Nat) (home : K → Nat) (r : K → K → Prop)
    (t : Nat → Option (Cell K V)) (hole : Nat) (t' : Nat → Option (Cell K V)) (last : Nat) :
    Prop where
  last_lt : last < n
  ordered : Ordered n home (Function.update t' last none)
  unique : Unique n r (Function.update t' last none)
  has : ∀ k v, Has n r (Function.update t' last none) k v ↔
    Has n r (Function.update t hole none) k v
  count : slotCount n (Function.update t' last none) Option.isSome + 1 =
    slotCount n t Option.isSome

/-- Emptying a hole followed by an anchor. -/
theorem HoleAt.finish (h1 : 1 < n) {hole : Nat} (h : HoleAt n home r t hole)
    (hanchor : Anchored t ((hole + 1) % n)) : ShiftedBack n home r t hole t hole := by
  have hlt := h.hole_lt
  have hne := succ_mod_ne h1 hlt
  refine ⟨hlt, ⟨?_, ?_⟩, h.unique, fun k v => Iff.rfl, ?_⟩
  · intro i hi d hd
    have hii : i ≠ hole := by
      intro e
      rw [e, Function.update_self] at hd
      cases hd
    rw [Function.update_of_ne hii] at hd
    exact h.ordered.dist i hi d hd
  · intro i hi d hd hpos
    have hs : (i + 1) % n ≠ hole := by
      intro e
      rw [e, Function.update_self] at hd
      cases hd
    rw [Function.update_of_ne hs] at hd
    rcases h.ordered.step i hi d hd hpos with ⟨p, hp, hpd⟩
    have hii : i ≠ hole := by
      intro e
      rw [e] at hd
      have := hanchor d hd
      omega
    exact ⟨p, by rw [Function.update_of_ne hii]; exact hp, hpd⟩
  · rcases h.occupied with ⟨c, hc⟩
    have hcount := slotCount_update (f := t) (q := Option.isSome) hlt none
    simpa [hc] using hcount

/-- The backward shift, by induction on its fuel: the anchor `z` stays an anchor
and comes one step closer with each move. -/
theorem rhShift_spec (h1 : 1 < n) (hhome : ∀ k, home k < n) (fuel : Nat) {hole z : Nat}
    (hz : z < n) (h : HoleAt n home r t hole) (hanchor : Anchored t z)
    (hfuel : cdist n ((hole + 1) % n) z < fuel) :
    ∃ t' last, rhShift n fuel t hole = some (t', last) ∧ ShiftedBack n home r t hole t' last := by
  induction fuel generalizing t hole with
  | zero => omega
  | succ fuel ih =>
    have hlt := h.hole_lt
    have hnext : (hole + 1) % n < n := Nat.mod_lt _ (by omega)
    unfold rhShift
    cases hc : t ((hole + 1) % n) with
    | none =>
      refine ⟨t, hole, rfl, h.finish h1 ?_⟩
      intro c hc'
      rw [hc] at hc'
      cases hc'
    | some c =>
      simp only
      by_cases hzero : c.dib = 0
      · rw [if_pos hzero]
        refine ⟨t, hole, rfl, h.finish h1 ?_⟩
        intro d hd
        rw [hc] at hd
        cases hd
        exact hzero
      · rw [if_neg hzero]
        have hpos : 0 < c.dib := by omega
        have hne : (hole + 1) % n ≠ z := by
          intro e
          rw [← e] at hanchor
          exact hzero (hanchor c hc)
        have hstep := succ_cdist hnext hz hne
        have hanchor' : Anchored (Function.update t hole (some { c with dib := c.dib - 1 })) z := by
          intro d hd
          by_cases hzh : z = hole
          · -- the anchor was the hole: what moves in there is at home as well
            rw [hzh, Function.update_self] at hd
            cases hd
            rcases h.ordered.step hole hlt c hc hpos with ⟨p, hp, hpd⟩
            have hp0 := hanchor p (by rw [hzh]; exact hp)
            show c.dib - 1 = 0
            omega
          · rw [Function.update_of_ne hzh] at hd
            exact hanchor d hd
        rcases ih (h.move h1 hhome hc hpos) hanchor' (by omega) with ⟨t', last, ht', hsh⟩
        refine ⟨t', last, ht', hsh.last_lt, hsh.ordered, hsh.unique, ?_, ?_⟩
        · intro k v
          rw [hsh.has, has_move h1 hlt hc]
        · rw [hsh.count]
          rcases h.occupied with ⟨p, hp⟩
          have hcount := slotCount_update (f := t) (q := Option.isSome) hlt
            (some { c with dib := c.dib - 1 })
          simpa [hp] using hcount

end CLib
