import Mathlib.Algebra.Order.Field.Basic
import Mathlib.Tactic.Linarith
import Mathlib.Tactic.NormNum
import Solidc.Map.Table

/-! # What the map's operations do to the stored pairs

A map's callers present each key with a length of its own (`Keyed.len`): a constant
for fixed-size keys, the string length for strings. Relative to it the table is a
Robin Hood table in the sense of the library (`Inv`), and

* `get_spec`, `remove_spec` and `set_spec` say what each call returns and does to the
  stored pairs (`Stores`);
* `resize_spec` does so for growth, which hashes every stored key with the length of
  the key being set. It asks that this puts each stored key where its own length would
  (`GrowsWell`).
-/

namespace Solidc.Map

open CLib

variable {K V : Type*}

/-- Callbacks that fit together when each key is presented with its own length:
the comparison is an equivalence, and equal keys have equal hashes. -/
structure Keyed (K : Type*) extends MapFns K where
  len : K → Nat
  equiv : Equivalence fun a b => keyCompare a b = true
  compat : ∀ a b, keyCompare a b = true → hash a (len a) = hash b (len b)

namespace Keyed

variable (P : Keyed K)

/-- Equality of keys. -/
def Rel (a b : K) : Prop := P.keyCompare a b = true

theorem rel_equiv : Equivalence P.Rel := P.equiv

/-- Keys up to `key_compare`. -/
def setoid : Setoid K := ⟨P.Rel, P.equiv⟩

/-- The initial bucket of a key, hashed with its own length. -/
def home (n : Nat) (k : K) : Nat := P.hash k (P.len k) % n

theorem home_lt {n : Nat} (hn : 0 < n) (k : K) : P.home n k < n := Nat.mod_lt _ hn

theorem home_congr (n : Nat) {a b : K} (h : P.Rel a b) : P.home n a = P.home n b := by
  rw [home, home, P.compat a b h]

end Keyed

/-- The table as the library sees it. -/
def HashMap.view (m : HashMap K V) (i : Nat) : Option (Cell K (Option V)) :=
  (m.keys i).map fun k => ⟨k, m.vals i, m.deleted i⟩

/-- The pairs a map stores. -/
def Stores (P : Keyed K) (m : HashMap K V) (k : K) (v : Option V) : Prop :=
  Has m.capacity P.Rel m.view k v

/-- The representation invariant. -/
structure Inv (P : Keyed K) (m : HashMap K V) : Prop where
  pow2 : IsPow2 m.capacity
  large : 8 ≤ m.capacity
  bounded : m.capacity ≤ sizeMax / 2
  ordered : Ordered m.capacity (P.home m.capacity) m.view
  unique : Unique m.capacity P.Rel m.view
  anchor : ∃ z < m.capacity, Anchored m.view z
  size : m.size = slotCount m.capacity m.view Option.isSome
  factor : m.maxLoadFactor < 1

variable {P : Keyed K} {m : HashMap K V}

/-! ## Reading and writing slots -/

theorem view_eq_none (i : Nat) : m.view i = none ↔ m.keys i = none := by
  simp [HashMap.view]

theorem view_eq_some {i : Nat} {k : K} (h : m.keys i = some k) :
    m.view i = some ⟨k, m.vals i, m.deleted i⟩ := by
  simp [HashMap.view, h]

theorem view_cell {i : Nat} {c : Cell K (Option V)} (h : m.view i = some c) :
    m.keys i = some c.key ∧ m.vals i = c.val ∧ m.deleted i = c.dib := by
  simp only [HashMap.view, Option.map_eq_some_iff] at h
  rcases h with ⟨k, hk, rfl⟩
  exact ⟨hk, rfl, rfl⟩

theorem view_put_some (idx : Nat) (k : K) (v : Option V) (d : Nat) :
    (m.put idx (some k) v d).view = Function.update m.view idx (some ⟨k, v, d⟩) := by
  funext i
  by_cases hi : i = idx
  · subst hi
    simp [HashMap.view, HashMap.put]
  · simp [HashMap.view, HashMap.put, hi]

theorem view_put_none (idx : Nat) (v : Option V) (d : Nat) :
    (m.put idx none v d).view = Function.update m.view idx none := by
  funext i
  by_cases hi : i = idx
  · subst hi
    simp [HashMap.view, HashMap.put]
  · simp [HashMap.view, HashMap.put, hi]

/-! ## Lookup -/

/-- What a walk from the home of a stored key meets on its way. -/
theorem Inv.met (hinv : Inv P m) {key : K} {i : Nat} (hi : i < m.capacity)
    {c : Cell K (Option V)} (hc : m.view i = some c) (hrel : P.Rel c.key key) {d : Nat}
    (hd : d ≤ c.dib) :
    ∃ p, m.view ((P.home m.capacity key + d) % m.capacity) = some p ∧ d ≤ p.dib ∧
      (d < c.dib ∧ ¬ P.Rel p.key key ∨
        d = c.dib ∧ (P.home m.capacity key + d) % m.capacity = i ∧ p = c) :=
  hinv.ordered.met hinv.unique P.rel_equiv (fun _ _ => P.home_congr m.capacity)
    (P.home_lt hinv.pow2.pos) hi hc hrel hd

/-- Searching for a key that stands at slot `i`, from `d` steps past its home. -/
theorem locateLoop_present (hinv : Inv P m) {key : K} {i : Nat} (hi : i < m.capacity)
    {c : Cell K (Option V)} (hc : m.view i = some c) (hrel : P.Rel c.key key) (fuel d : Nat)
    (hd : d ≤ c.dib) (hfuel : c.dib - d < fuel) :
    locateLoop P.toMapFns m key fuel d ((P.home m.capacity key + d) % m.capacity) = some i := by
  induction fuel generalizing d with
  | zero => omega
  | succ fuel ih =>
    rcases hinv.met hi hc hrel hd with ⟨p, hp, hpd, hway⟩
    rcases view_cell hp with ⟨hkey, -, hdib⟩
    unfold locateLoop
    rw [hkey]
    simp only
    rw [if_neg (by omega)]
    rcases hway with ⟨hlt, hother⟩ | ⟨-, hslot, rfl⟩
    · -- not there yet: this slot holds another key
      rw [if_neg (show ¬ P.keyCompare p.key key = true from hother), hinv.pow2.and_pred,
        Nat.mod_add_mod, Nat.add_assoc]
      exact ih (d + 1) (by omega) (by omega)
    · rw [if_pos (show P.keyCompare p.key key = true from hrel), hslot]

/-- Searching for a key that no slot holds. -/
theorem locateLoop_absent (hinv : Inv P m) {key : K}
    (hno : ∀ i < m.capacity, ∀ c, m.view i = some c → ¬ P.Rel c.key key) (fuel d idx : Nat)
    (hidx : idx < m.capacity) : locateLoop P.toMapFns m key fuel d idx = none := by
  induction fuel generalizing d idx with
  | zero => rfl
  | succ fuel ih =>
    unfold locateLoop
    cases hk : m.keys idx with
    | none => rfl
    | some k =>
      have hneq := hno idx hidx _ (view_eq_some hk)
      simp only
      split_ifs with h1 h2
      · rfl
      · exact absurd h2 hneq
      · apply ih
        rw [hinv.pow2.and_pred]
        exact Nat.mod_lt _ hinv.pow2.pos

/-- What the shared search finds. -/
theorem locate_spec (hinv : Inv P m) (key : K) :
    (∃ i < m.capacity, ∃ c, locateLoop P.toMapFns m key m.capacity 0
        (P.hash key (P.len key) &&& (m.capacity - 1)) = some i ∧ m.view i = some c ∧
        P.Rel c.key key) ∨
    (locateLoop P.toMapFns m key m.capacity 0
        (P.hash key (P.len key) &&& (m.capacity - 1)) = none ∧
      ∀ i < m.capacity, ∀ c, m.view i = some c → ¬ P.Rel c.key key) := by
  have hpos := hinv.pow2.pos
  have hhome := P.home_lt hpos key
  rw [hinv.pow2.and_pred]
  by_cases hex : ∃ i < m.capacity, ∃ c, m.view i = some c ∧ P.Rel c.key key
  · left
    rcases hex with ⟨i, hi, c, hc, hrel⟩
    have hdist := hinv.ordered.dist i hi c hc
    have hlt := cdist_lt (P.home_lt hpos c.key) hi
    have hloc := locateLoop_present hinv hi hc hrel m.capacity 0 (by omega) (by omega)
    rw [Nat.add_zero, Nat.mod_eq_of_lt hhome] at hloc
    exact ⟨i, hi, c, hloc, hc, hrel⟩
  · right
    have hno : ∀ i < m.capacity, ∀ c, m.view i = some c → ¬ P.Rel c.key key :=
      fun i hi c hc hrel => hex ⟨i, hi, c, hc, hrel⟩
    exact ⟨locateLoop_absent hinv hno _ _ _ hhome, hno⟩

/-- `map_get` returns the value stored under the key, or `NULL`. -/
theorem get_spec (hinv : Inv P m) (key : K) :
    (∃ v, Stores P m key v ∧ mapGet P.toMapFns m key (P.len key) = v) ∨
    ((∀ v, ¬ Stores P m key v) ∧ mapGet P.toMapFns m key (P.len key) = none) := by
  unfold mapGet
  rcases locate_spec hinv key with ⟨i, hi, c, hloc, hc, hrel⟩ | ⟨hloc, hno⟩
  · left
    rw [hloc]
    exact ⟨c.val, ⟨i, hi, c, hc, hrel, rfl⟩, (view_cell hc).2.1⟩
  · right
    rw [hloc]
    refine ⟨?_, rfl⟩
    intro v hv
    rcases hv with ⟨i, hi, c, hc, hrel, -⟩
    exact hno i hi c hc hrel

/-! ## Removal -/

/-- The shift loop of the source is the library's. -/
theorem shiftLoop_eq {fuel hole : Nat} (hpow : IsPow2 m.capacity)
    {t' : Nat → Option (Cell K (Option V))} {last : Nat}
    (h : rhShift m.capacity fuel m.view hole = some (t', last)) :
    ∃ m', shiftLoop fuel m hole = some (m', last) ∧ m'.view = t' ∧
      m'.capacity = m.capacity ∧ m'.size = m.size ∧ m'.maxLoadFactor = m.maxLoadFactor := by
  induction fuel generalizing m hole with
  | zero => cases h
  | succ fuel ih =>
    unfold rhShift at h
    unfold shiftLoop
    rw [hpow.and_pred]
    cases hk : m.keys ((hole + 1) % m.capacity) with
    | none =>
      rw [(view_eq_none _).mpr hk] at h
      cases h
      exact ⟨m, by simp [hk], rfl, rfl, rfl, rfl⟩
    | some k =>
      rw [view_eq_some hk] at h
      simp only at h
      by_cases hz : m.deleted ((hole + 1) % m.capacity) = 0
      · rw [if_pos hz] at h
        cases h
        exact ⟨m, by simp [hz], rfl, rfl, rfl, rfl⟩
      · rw [if_neg hz] at h
        rw [← view_put_some] at h
        rcases ih (m := m.put hole (some k) (m.vals ((hole + 1) % m.capacity))
          (m.deleted ((hole + 1) % m.capacity) - 1)) hpow h with ⟨m', hm', hrest⟩
        refine ⟨m', ?_, hrest⟩
        simp only [hk, reduceCtorEq, hz, or_self, if_false]
        exact hm'

/-- `map_remove` returns whether the key was stored, and removes it and nothing
else; its unbounded loop ends within `capacity` turns. -/
theorem remove_spec (hinv : Inv P m) (key : K) :
    ∃ m' b, mapRemove P.toMapFns m key (P.len key) = some (m', b) ∧ Inv P m' ∧
      (b = true ↔ ∃ v, Stores P m key v) ∧
      ∀ k v, Stores P m' k v ↔ Stores P m k v ∧ ¬ P.Rel key k := by
  have hpos := hinv.pow2.pos
  have hlarge := hinv.large
  unfold mapRemove
  rcases locate_spec hinv key with ⟨i, hi, c, hloc, hc, hrel⟩ | ⟨hloc, hno⟩
  · rw [hloc]
    -- the shift stops at an anchor, which also a full table has
    rcases hinv.anchor with ⟨z, hz, hanchor⟩
    have hnext : (i + 1) % m.capacity < m.capacity := Nat.mod_lt _ hpos
    have hhole : HoleAt m.capacity (P.home m.capacity) P.Rel m.view i :=
      ⟨hi, hinv.ordered, ⟨c, hc⟩, hinv.unique.clear i⟩
    rcases rhShift_spec (by omega) (P.home_lt hpos) m.capacity hz hhole hanchor
      (cdist_lt hnext hz) with ⟨t', last, ht', hsh⟩
    rcases shiftLoop_eq hinv.pow2 ht' with ⟨m', hm', hview, hcap, hsize, hfac⟩
    simp only [hm', Option.map_some]
    have hview' : ({ m'.put last none none 0 with size := m'.size - 1 } : HashMap K V).view =
        Function.update t' last none := by
      rw [← hview]
      exact view_put_none last none 0
    refine ⟨_, true, rfl, ⟨?_, ?_, ?_, ?_, ?_, ?_, ?_, ?_⟩, ?_, ?_⟩
    · show IsPow2 m'.capacity
      rw [hcap]
      exact hinv.pow2
    · show 8 ≤ m'.capacity
      omega
    · show m'.capacity ≤ sizeMax / 2
      rw [hcap]
      exact hinv.bounded
    · rw [hview']
      show Ordered m'.capacity (P.home m'.capacity) _
      rw [hcap]
      exact hsh.ordered
    · rw [hview']
      show Unique m'.capacity P.Rel _
      rw [hcap]
      exact hsh.unique
    · rw [hview']
      refine ⟨last, ?_, ?_⟩
      · show last < m'.capacity
        rw [hcap]
        exact hsh.last_lt
      · intro d hd
        rw [Function.update_self] at hd
        cases hd
    · rw [hview']
      show m'.size - 1 = slotCount m'.capacity _ _
      rw [hcap, hsize, hinv.size]
      have hcount := hsh.count
      omega
    · show m'.maxLoadFactor < 1
      rw [hfac]
      exact hinv.factor
    · simp only [true_iff]
      exact ⟨c.val, i, hi, c, hc, hrel, rfl⟩
    · intro k v
      show Has m'.capacity P.Rel _ k v ↔ _
      rw [hview', hcap, hsh.has, hinv.unique.has_clear P.rel_equiv hi hc hrel]
      rfl
  · rw [hloc]
    refine ⟨m, false, rfl, hinv, ?_, ?_⟩
    · simp only [Bool.false_eq_true, false_iff]
      intro h
      rcases h with ⟨v, i, hi, c, hc, hrel, -⟩
      exact hno i hi c hc hrel
    · intro k v
      constructor
      · intro h
        refine ⟨h, ?_⟩
        intro hk
        rcases h with ⟨i, hi, c, hc, hck, -⟩
        exact hno i hi c hc (P.rel_equiv.trans hck (P.rel_equiv.symm hk))
      · exact And.left

/-! ## Insertion -/

/-- The map whose slots changed and nothing else but its size. -/
structure SameShape (m m' : HashMap K V) : Prop where
  capacity : m'.capacity = m.capacity
  factor : m'.maxLoadFactor = m.maxLoadFactor

/-- The insertion loop of `map_resize` is the library's. -/
theorem resizeInsert_eq {fuel idx : Nat} (hpow : IsPow2 m.capacity) {k : K} {v : Option V}
    {d : Nat} {t' : Nat → Option (Cell K (Option V))}
    (h : rhInsert m.capacity fuel m.view ⟨k, v, d⟩ idx = some t') :
    (resizeInsert fuel m k v d idx).view = t' ∧
      (resizeInsert fuel m k v d idx).size = m.size + 1 ∧
      SameShape m (resizeInsert fuel m k v d idx) := by
  induction fuel generalizing m k v d idx with
  | zero => cases h
  | succ fuel ih =>
    unfold rhInsert at h
    unfold resizeInsert
    rw [hpow.and_pred]
    cases hk : m.keys idx with
    | none =>
      rw [(view_eq_none _).mpr hk] at h
      cases h
      exact ⟨view_put_some idx k v d, rfl, rfl, rfl⟩
    | some cur =>
      rw [view_eq_some hk] at h
      simp only at h ⊢
      by_cases hrich : m.deleted idx < d
      · rw [if_pos hrich] at h ⊢
        rw [← view_put_some] at h
        rcases ih (m := m.put idx (some k) v d) hpow h with ⟨hv, hs, hc, hf⟩
        exact ⟨hv, hs, hc, hf⟩
      · rw [if_neg hrich] at h ⊢
        exact ih hpow h

/-- As long as the key in hand is not stored, `map_set` inserts as `map_resize`
does: no comparison on the way succeeds, not even those made with a displaced key. -/
theorem setLoop_fresh {fuel idx : Nat} (hpow : IsPow2 m.capacity) (hidx : idx < m.capacity) {k : K}
    {v : Option V} {d : Nat} {t' : Nat → Option (Cell K (Option V))}
    (hu : Unique m.capacity P.Rel m.view)
    (hfresh : ∀ i < m.capacity, ∀ p, m.view i = some p → ¬ P.Rel p.key k)
    (h : rhInsert m.capacity fuel m.view ⟨k, v, d⟩ idx = some t') :
    setLoop P.toMapFns fuel m k v d idx = (resizeInsert fuel m k v d idx, true) := by
  induction fuel generalizing m k v d idx with
  | zero => cases h
  | succ fuel ih =>
    have hnext : (idx + 1) % m.capacity < m.capacity := Nat.mod_lt _ hpow.pos
    unfold rhInsert at h
    unfold setLoop resizeInsert
    rw [hpow.and_pred]
    cases hk : m.keys idx with
    | none => rfl
    | some cur =>
      have hcur := view_eq_some hk
      have hneq : ¬ P.keyCompare cur k = true := hfresh idx hidx _ hcur
      rw [hcur] at h
      simp only at h ⊢
      rw [if_neg hneq]
      by_cases hrich : m.deleted idx < d
      · rw [if_pos hrich] at h ⊢
        rw [if_pos hrich]
        rw [← view_put_some] at h
        apply ih (m := m.put idx (some k) v d) hpow hnext _ _ h
        · rw [view_put_some]
          exact hu.write P.rel_equiv (fun i hi _ => hfresh i hi)
        · -- the displaced key is related neither to the key put in its place nor to the rest
          intro i hi p hp hrel
          rw [view_put_some] at hp
          by_cases hii : i = idx
          · rw [hii, Function.update_self] at hp
            cases hp
            exact hfresh idx hidx _ hcur (P.rel_equiv.symm hrel)
          · rw [Function.update_of_ne hii] at hp
            exact hii (hu i hi idx hidx p _ hp hcur hrel)
      · rw [if_neg hrich] at h ⊢
        rw [if_neg hrich]
        exact ih hpow hnext hu hfresh h

/-- Setting a stored key updates its value in place. -/
theorem setLoop_present (hinv : Inv P m) {key : K} {i : Nat} (hi : i < m.capacity)
    {c : Cell K (Option V)} (hc : m.view i = some c) (hrel : P.Rel c.key key) (value : Option V)
    (fuel d : Nat) (hd : d ≤ c.dib) (hfuel : c.dib - d < fuel) :
    setLoop P.toMapFns fuel m key value d ((P.home m.capacity key + d) % m.capacity) =
      ({ m with vals := Function.update m.vals i value }, true) := by
  induction fuel generalizing d with
  | zero => omega
  | succ fuel ih =>
    rcases hinv.met hi hc hrel hd with ⟨p, hp, hpd, hway⟩
    rcases view_cell hp with ⟨hkey, -, hdib⟩
    unfold setLoop
    rw [hkey]
    simp only
    rcases hway with ⟨hlt, hother⟩ | ⟨-, hslot, rfl⟩
    · rw [if_neg (show ¬ P.keyCompare p.key key = true from hother), if_neg (by omega),
        hinv.pow2.and_pred, Nat.mod_add_mod, Nat.add_assoc]
      exact ih (d + 1) (by omega) (by omega)
    · rw [if_pos (show P.keyCompare p.key key = true from hrel), hslot]

/-- The library's insertion of a key the table does not hold. -/
theorem insert_spec (hpow : IsPow2 m.capacity) (hlarge : 8 ≤ m.capacity)
    (hord : Ordered m.capacity (P.home m.capacity) m.view)
    (hu : Unique m.capacity P.Rel m.view)
    (hroom : slotCount m.capacity m.view Option.isSome < m.capacity) {key : K} (value : Option V)
    (hfresh : ∀ i < m.capacity, ∀ p, m.view i = some p → ¬ P.Rel p.key key) :
    ∃ t', rhInsert m.capacity m.capacity m.view ⟨key, value, 0⟩ (P.home m.capacity key) = some t' ∧
      Inserted m.capacity (P.home m.capacity) P.Rel m.view ⟨key, value, 0⟩ t' := by
  have hhome := P.home_lt hpow.pos
  rcases exists_of_slotCount_lt hroom with ⟨e, he, hempty⟩
  have hnone : m.view e = none := by simpa using hempty
  have hlt := cdist_lt (hhome key) he
  apply rhInsert_spec P.rel_equiv hhome (by omega) m.capacity hord hu (hhome key) he hnone _ hlt
  · show 0 + _ < m.capacity
    omega
  · refine ⟨?_, ?_, hfresh⟩
    · show 0 = cdist m.capacity (P.home m.capacity key) (P.home m.capacity key)
      rw [cdist_self]
    · intro h
      exact absurd h (Nat.lt_irrefl 0)

/-- A stored key is given a new value. -/
theorem Inv.setValue (hinv : Inv P m) {i : Nat} (hi : i < m.capacity) {c : Cell K (Option V)}
    (hc : m.view i = some c) (value : Option V) :
    Inv P { m with vals := Function.update m.vals i value } ∧
      ({ m with vals := Function.update m.vals i value } : HashMap K V).view =
        Function.update m.view i (some { c with val := value }) := by
  rcases view_cell hc with ⟨hkey, -, hdib⟩
  have hview : ({ m with vals := Function.update m.vals i value } : HashMap K V).view =
      Function.update m.view i (some { c with val := value }) := by
    funext j
    by_cases hji : j = i
    · subst hji
      simp [HashMap.view, hkey, hdib]
    · simp [HashMap.view, hji]
  rcases hinv.anchor with ⟨z, hz, hanchor⟩
  refine ⟨⟨hinv.pow2, hinv.large, hinv.bounded, ?_, ?_, ⟨z, hz, ?_⟩, ?_, hinv.factor⟩, hview⟩
  · rw [hview]
    exact hinv.ordered.revalue hc value
  · rw [hview]
    exact hinv.unique.revalue hc value
  · rw [hview]
    exact hanchor.revalue hc value
  · rw [hview]
    show m.size = slotCount m.capacity _ _
    rw [hinv.size]
    have hcount := slotCount_update (f := m.view) (q := Option.isSome) hi
      (some { c with val := value })
    rw [hc] at hcount
    simpa using hcount.symm

/-- The probing loop of `map_set` on a table with room. -/
theorem setLoop_spec (hinv : Inv P m) (hroom : m.size < m.capacity) (key : K)
    (value : Option V) :
    ∃ m', setLoop P.toMapFns m.capacity m key value 0
        (P.hash key (P.len key) &&& (m.capacity - 1)) = (m', true) ∧ Inv P m' ∧
      (m'.size = m.size ↔ ∃ v, Stores P m key v) ∧
      ∀ k v, Stores P m' k v ↔ (P.Rel key k ∧ v = value) ∨ (¬ P.Rel key k ∧ Stores P m k v) := by
  have hpos := hinv.pow2.pos
  have hhome := P.home_lt hpos key
  rw [hinv.pow2.and_pred]
  by_cases hex : ∃ i < m.capacity, ∃ c, m.view i = some c ∧ P.Rel c.key key
  · -- the key is stored: its value changes, the table does not
    rcases hex with ⟨i, hi, c, hc, hrel⟩
    have hdist := hinv.ordered.dist i hi c hc
    have hlt := cdist_lt (P.home_lt hpos c.key) hi
    have hset := setLoop_present hinv hi hc hrel value m.capacity 0 (by omega) (by omega)
    rw [Nat.add_zero, Nat.mod_eq_of_lt hhome] at hset
    rcases hinv.setValue hi hc value with ⟨hinv', hview⟩
    refine ⟨_, hset, hinv', ?_, fun k v => ?_⟩
    · simp only [true_iff]
      exact ⟨c.val, i, hi, c, hc, hrel, rfl⟩
    · show Has m.capacity P.Rel _ k v ↔ _
      rw [hview]
      exact hinv.unique.has_revalue P.rel_equiv hi hc hrel value k v
  · -- a new key
    have hfresh : ∀ i < m.capacity, ∀ p, m.view i = some p → ¬ P.Rel p.key key :=
      fun i hi p hp hrel => hex ⟨i, hi, p, hp, hrel⟩
    rcases insert_spec hinv.pow2 hinv.large hinv.ordered hinv.unique
      (by rw [← hinv.size]; exact hroom) value hfresh with ⟨t', ht', hins⟩
    rcases resizeInsert_eq hinv.pow2 ht' with ⟨hview, hsize, hshape⟩
    have hset := setLoop_fresh hinv.pow2 hhome hinv.unique hfresh ht'
    refine ⟨_, hset, ⟨?_, ?_, ?_, ?_, ?_, ?_, ?_, ?_⟩, ?_, ?_⟩
    · rw [hshape.capacity]
      exact hinv.pow2
    · rw [hshape.capacity]
      exact hinv.large
    · rw [hshape.capacity]
      exact hinv.bounded
    · rw [hview, hshape.capacity]
      exact hins.ordered
    · rw [hview, hshape.capacity]
      exact hins.unique
    · rw [hview, hshape.capacity]
      exact hins.anchor
    · rw [hview, hshape.capacity, hsize, hins.count, hinv.size]
    · rw [hshape.factor]
      exact hinv.factor
    · rw [hsize]
      constructor
      · intro h
        omega
      · intro h
        rcases h with ⟨v, i, hi, c, hc, hrel, -⟩
        exact absurd hrel (hfresh i hi c hc)
    · intro k v
      unfold Stores
      rw [hview, hshape.capacity, hins.has]
      constructor
      · intro h
        rcases h with h | ⟨hk, hv⟩
        · by_cases hk : P.Rel key k
          · rcases h with ⟨i, hi, c, hc, hck, -⟩
            exact absurd (P.rel_equiv.trans hck (P.rel_equiv.symm hk)) (hfresh i hi c hc)
          · exact .inr ⟨hk, h⟩
        · exact .inl ⟨hk, hv.symm⟩
      · intro h
        rcases h with ⟨hk, hv⟩ | ⟨-, h⟩
        · exact .inr ⟨hk, hv.symm⟩
        · exact .inl h

/-! ## Growth -/

/-- Hashed with `keyLen`, every stored key goes to the bucket its own length gives
in a table of `newCapacity` slots. -/
def GrowsWell (P : Keyed K) (m : HashMap K V) (newCapacity keyLen : Nat) : Prop :=
  ∀ i < m.capacity, ∀ k, m.keys i = some k → P.hash k keyLen % newCapacity = P.home newCapacity k

/-- The new arrays of `map_resize` after `i` old slots. -/
structure Rehashed (P : Keyed K) (m : HashMap K V) (newCapacity i : Nat) (t : HashMap K V) :
    Prop where
  capacity : t.capacity = newCapacity
  factor : t.maxLoadFactor = m.maxLoadFactor
  ordered : Ordered newCapacity (P.home newCapacity) t.view
  unique : Unique newCapacity P.Rel t.view
  anchor : ∃ z < newCapacity, Anchored t.view z
  size : t.size = slotCount newCapacity t.view Option.isSome
  count : slotCount newCapacity t.view Option.isSome = slotCount i m.view Option.isSome
  has : ∀ k v, Has newCapacity P.Rel t.view k v ↔ Has i P.Rel m.view k v

theorem has_succ {t : Nat → Option (Cell K (Option V))} {i : Nat} {r : K → K → Prop} (k : K)
    (v : Option V) :
    Has (i + 1) r t k v ↔ Has i r t k v ∨ ∃ c, t i = some c ∧ r c.key k ∧ c.val = v := by
  constructor
  · intro h
    rcases h with ⟨j, hj, hcell⟩
    rcases Nat.lt_succ_iff_lt_or_eq.mp hj with hlt | heq
    · exact .inl ⟨j, hlt, hcell⟩
    · rw [heq] at hcell
      exact .inr hcell
  · intro h
    rcases h with ⟨j, hj, hcell⟩ | hcell
    · exact ⟨j, by omega, hcell⟩
    · exact ⟨i, by omega, hcell⟩

/-- The loop of `map_resize`, by induction on the old slots it has passed. -/
theorem resizeLoop_spec (hinv : Inv P m) {newCapacity keyLen : Nat} (hpow : IsPow2 newCapacity)
    (hbig : m.capacity < newCapacity) (hgrow : GrowsWell P m newCapacity keyLen) (i : Nat)
    (hi : i ≤ m.capacity) :
    Rehashed P m newCapacity i (resizeLoop P.toMapFns m newCapacity keyLen i) := by
  have hlarge := hinv.large
  induction i with
  | zero =>
    have hview : ∀ j, (resizeLoop P.toMapFns m newCapacity keyLen 0).view j = none := fun _ => rfl
    refine ⟨rfl, rfl, ⟨?_, ?_⟩, ?_, ⟨0, by omega, ?_⟩, ?_, ?_, ?_⟩
    · intro j _ c hc
      cases hc
    · intro j _ c hc
      cases hc
    · intro j _ l _ c d hc
      cases hc
    · intro c hc
      cases hc
    · exact (slotCount_eq_zero (fun j _ => by rw [hview]; rfl)).symm
    · rw [slotCount_zero]
      exact slotCount_eq_zero (fun j _ => by rw [hview]; rfl)
    · intro k v
      constructor
      · intro h
        rcases h with ⟨j, -, c, hc, -⟩
        cases hc
      · intro h
        rcases h with ⟨j, hj, -⟩
        omega
  | succ i ih =>
    have hre := ih (by omega)
    have hcap := hre.capacity
    unfold resizeLoop
    simp only
    cases hk : m.keys i with
    | none =>
      have hnone := (view_eq_none (m := m) i).mpr hk
      refine ⟨hcap, hre.factor, hre.ordered, hre.unique, hre.anchor, hre.size, ?_, ?_⟩
      · simp [hre.count, slotCount_succ, hnone]
      · intro k v
        rw [hre.has, has_succ, hnone]
        simp
    | some key =>
      simp only
      have hcell := view_eq_some hk
      generalize resizeLoop P.toMapFns m newCapacity keyLen i = t at hre hcap ⊢
      have hroom : slotCount t.capacity t.view Option.isSome < t.capacity := by
        have := slotCount_le (n := i) (f := m.view) (q := Option.isSome)
        rw [hcap, hre.count]
        omega
      -- the keys already moved come from slots below `i`, so none is this one
      have hfresh : ∀ j < t.capacity, ∀ p, t.view j = some p → ¬ P.Rel p.key key := by
        intro j hj p hp hrel
        have hhas : Has newCapacity P.Rel t.view key p.val := ⟨j, by omega, p, hp, hrel, rfl⟩
        rw [hre.has] at hhas
        rcases hhas with ⟨l, hl, c, hc, hck, -⟩
        have := hinv.unique l (by omega) i (by omega) c _ hc hcell hck
        omega
      have hhome : P.hash key keyLen &&& (newCapacity - 1) = P.home t.capacity key := by
        rw [hpow.and_pred, hgrow i (by omega) key hk, hcap]
      rcases insert_spec (m := t) (by rw [hcap]; exact hpow) (by omega)
        (by rw [hcap]; exact hre.ordered) (by rw [hcap]; exact hre.unique) hroom (m.vals i)
        hfresh with ⟨t', ht', hins⟩
      rcases resizeInsert_eq (by rw [hcap]; exact hpow) ht' with ⟨hview, hsize, hshape⟩
      rw [hcap] at hins hview hsize hshape hhome
      rw [hhome]
      refine ⟨hshape.capacity.trans hcap, hshape.factor.trans hre.factor, ?_, ?_, ?_, ?_, ?_, ?_⟩
      · rw [hview]
        exact hins.ordered
      · rw [hview]
        exact hins.unique
      · rw [hview]
        exact hins.anchor
      · rw [hview, hsize, hins.count, hre.size]
      · rw [hview, hins.count, hre.count, slotCount_succ, hcell]
        rfl
      · intro k v
        rw [hview, hins.has, hre.has, has_succ, hcell]
        simp

/-- `map_resize` to a larger table keeps every stored pair. -/
theorem resize_spec (hinv : Inv P m) {newCapacity keyLen : Nat} (hpow : IsPow2 newCapacity)
    (hbig : m.capacity < newCapacity) (hmax : newCapacity ≤ sizeMax / 2)
    (hgrow : GrowsWell P m newCapacity keyLen) :
    ∃ m', mapResize P.toMapFns m newCapacity keyLen = (m', true) ∧ Inv P m' ∧
      m'.capacity = newCapacity ∧ m'.size = m.size ∧ m'.maxLoadFactor = m.maxLoadFactor ∧
      ∀ k v, Stores P m' k v ↔ Stores P m k v := by
  have hlarge := hinv.large
  have hre := resizeLoop_spec hinv hpow hbig hgrow m.capacity (Nat.le_refl _)
  unfold mapResize
  rw [if_neg (by omega)]
  generalize resizeLoop P.toMapFns m newCapacity keyLen m.capacity = t at hre
  have hcap := hre.capacity
  refine ⟨t, rfl, ⟨?_, by omega, by omega, ?_, ?_, ?_, ?_, ?_⟩, hcap, ?_, hre.factor, ?_⟩
  · rw [hcap]
    exact hpow
  · rw [hcap]
    exact hre.ordered
  · rw [hcap]
    exact hre.unique
  · rw [hcap]
    exact hre.anchor
  · rw [hcap]
    exact hre.size
  · rw [hre.factor]
    exact hinv.factor
  · rw [hre.size, hre.count, hinv.size]
  · intro k v
    unfold Stores
    rw [hcap]
    exact hre.has k v

/-- The next capacity is twice the present one, while that fits. -/
theorem calculateNewCapacity_eq {c : Nat} (hc : c ≤ sizeMax / 2) :
    calculateNewCapacity c = c * 2 := by
  unfold calculateNewCapacity
  unfold sizeMax at hc ⊢
  rw [if_neg (by omega), Nat.mod_eq_of_lt (by omega), if_neg (by omega)]

/-- Below a load limit under one there is room. -/
theorem size_lt_of_load (hcap : 0 < m.capacity) (hfactor : m.maxLoadFactor < 1)
    (h : ¬ mustGrow m) : m.size < m.capacity := by
  unfold mustGrow at h
  have hlt : (m.size : ℚ) / (m.capacity : ℚ) < 1 := lt_trans (not_le.mp h) hfactor
  have hpos : (0 : ℚ) < (m.capacity : ℚ) := by exact_mod_cast hcap
  rw [div_lt_one hpos] at hlt
  exact_mod_cast hlt

theorem size_lt_of_not_mustGrow (hinv : Inv P m) (h : ¬ mustGrow m) : m.size < m.capacity :=
  size_lt_of_load hinv.pow2.pos hinv.factor h

/-- `map_set` stores the pair and changes no other; a growth on the way must place
the stored keys well. It fails only at the largest capacity, and then changes nothing. -/
theorem set_spec (hinv : Inv P m) (key : K) (value : Option V)
    (hgrow : mustGrow m → GrowsWell P m (m.capacity * 2) (P.len key)) :
    (∃ m', mapSet P.toMapFns m key (P.len key) value = (m', true) ∧ Inv P m' ∧
      (m'.size = m.size ↔ ∃ v, Stores P m key v) ∧
      ∀ k v, Stores P m' k v ↔
        (P.Rel key k ∧ v = value) ∨ (¬ P.Rel key k ∧ Stores P m k v)) ∨
    (mustGrow m ∧ sizeMax / 2 < m.capacity * 2 ∧
      mapSet P.toMapFns m key (P.len key) value = (m, false)) := by
  have hlarge := hinv.large
  unfold mapSet
  by_cases hmust : mustGrow m
  · have hlarger : ¬ m.capacity * 2 ≤ m.capacity := by omega
    simp only [if_pos hmust, calculateNewCapacity_eq hinv.bounded, if_neg hlarger]
    rcases Nat.lt_or_ge (sizeMax / 2) (m.capacity * 2) with hfull | hfits
    · right
      refine ⟨hmust, hfull, ?_⟩
      unfold mapResize
      rw [if_pos (Or.inr hfull)]
      rfl
    · left
      rcases resize_spec hinv hinv.pow2.double (by omega) hfits (hgrow hmust) with
        ⟨g, hg, hinvg, hcap, hsize, -, hstores⟩
      have hle : m.size ≤ m.capacity := by
        rw [hinv.size]
        exact slotCount_le
      rw [hg]
      simp only [if_true]
      rcases setLoop_spec hinvg (by omega) key value with ⟨m', hset, hinv', hsame, hst⟩
      refine ⟨m', hset, hinv', ?_, ?_⟩
      · rw [← hsize, hsame]
        simp only [hstores]
      · intro k v
        rw [hst, hstores]
  · left
    simp only [if_neg hmust, if_true]
    exact setLoop_spec hinv (size_lt_of_not_mustGrow hinv hmust) key value

end Solidc.Map
