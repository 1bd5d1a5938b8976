import Solidc.Lib.Cyclic

/-! # Linear probing

A table of `n` slots, each empty, dead (vacated, but not empty to a search) or
holding a live key. A key's search starts at its home slot and walks forward
until it meets the key or an empty slot. `Chained` is what makes that search
right: no empty slot lies between a live key's home and the key, and no two live
slots hold related keys.

* `Chained.kill`, `Chained.fill`, `Chained.shift`, `Chained.clearHole` — the
  writes that keep a table chained;
* `Chained.search` — what the search of a chained table finds.

Keys are compared by an equivalence `r` (equality, or a caller's own notion).
`HashedKey` packs a hash with an equality it respects.
-/

namespace CLib

/-- A hash function and an equality test on keys that fit together: the test is
an equivalence, and equal keys have equal hashes. -/
structure HashedKey (K : Type*) where
  hash : K → Nat
  equals : K → K → Bool
  equiv : Equivalence fun a b => equals a b = true
  compat : ∀ a b, equals a b = true → hash a = hash b

namespace HashedKey

variable {K : Type*} (F : HashedKey K)

/-- Equality of keys as a relation. -/
def Rel (a b : K) : Prop := F.equals a b = true

theorem rel_equiv : Equivalence F.Rel := F.equiv

/-- Keys up to the equality test. -/
def setoid : Setoid K := ⟨F.Rel, F.equiv⟩

/-- The home slot of a key in a table of `n` slots. -/
def home (n : Nat) (k : K) : Nat := F.hash k % n

theorem home_lt {n : Nat} (hn : 0 < n) (k : K) : F.home n k < n := Nat.mod_lt _ hn

theorem home_congr (n : Nat) (a b : K) (h : F.Rel a b) : F.home n a = F.home n b := by
  rw [home, home, F.compat a b h]

end HashedKey

/-- What a search sees in a slot. -/
inductive Slot (K : Type*) where
  | empty
  | dead
  | live (k : K)

namespace Slot

variable {K : Type*}

def isLive : Slot K → Bool
  | live _ => true
  | _ => false

def isEmpty : Slot K → Bool
  | empty => true
  | _ => false

def isDead : Slot K → Bool
  | dead => true
  | _ => false

theorem isLive_iff {x : Slot K} : x.isLive = true ↔ ∃ k, x = live k := by
  cases x <;> simp [isLive]

theorem isEmpty_iff {x : Slot K} : x.isEmpty = true ↔ x = empty := by
  cases x <;> simp [isEmpty]

end Slot

open Slot

variable {K : Type*} {n : Nat} {home : K → Nat} {r : K → K → Prop} {v : Nat → Slot K}

/-- The representation invariant of a probing table. -/
structure Chained (n : Nat) (home : K → Nat) (r : K → K → Prop) (v : Nat → Slot K) : Prop where
  path : ∀ i < n, ∀ k, v i = live k → ∀ d < cdist n (home k) i, v ((home k + d) % n) ≠ empty
  uniq : ∀ i < n, ∀ j < n, ∀ a b, v i = live a → v j = live b → r a b → i = j

/-- The table holds a key related to `k`. -/
def Holds (n : Nat) (r : K → K → Prop) (v : Nat → Slot K) (k : K) : Prop :=
  ∃ i < n, ∃ a, v i = live a ∧ r a k

/-- What one slot more adds. -/
theorem holds_succ {i : Nat} (k : K) :
    Holds (i + 1) r v k ↔ Holds i r v k ∨ ∃ a, v i = live a ∧ r a k := by
  constructor
  · rintro ⟨j, hj, hcell⟩
    rcases Nat.lt_succ_iff_lt_or_eq.mp hj with hlt | rfl
    · exact .inl ⟨j, hlt, hcell⟩
    · exact .inr hcell
  · rintro (⟨j, hj, hcell⟩ | hcell)
    · exact ⟨j, Nat.lt_succ_of_lt hj, hcell⟩
    · exact ⟨i, Nat.lt_succ_self i, hcell⟩

/-- The table with no key in it. -/
theorem chained_of_no_live (h : ∀ i < n, ∀ k, v i ≠ live k) : Chained n home r v where
  path i hi k hk := absurd hk (h i hi k)
  uniq i hi _ _ a _ ha := absurd ha (h i hi a)

/-- A slot without a live key adds no pair of related keys. -/
theorem Chained.uniq_vacated (h : Chained n home r v) (i : Nat) {x : Slot K}
    (hx : ∀ k, x ≠ live k) : ∀ j < n, ∀ l < n, ∀ a b, Function.update v i x j = live a →
      Function.update v i x l = live b → r a b → j = l := by
  intro j hj l hl a b ha hb hab
  have hji : j ≠ i := by
    rintro rfl
    rw [Function.update_self] at ha
    exact hx a ha
  have hli : l ≠ i := by
    rintro rfl
    rw [Function.update_self] at hb
    exact hx b hb
  rw [Function.update_of_ne hji] at ha
  rw [Function.update_of_ne hli] at hb
  exact h.uniq j hj l hl a b ha hb hab

/-- Vacating a slot. -/
theorem Chained.kill (h : Chained n home r v) (i : Nat) :
    Chained n home r (Function.update v i dead) where
  path j hj k hk d hd := by
    have hji : j ≠ i := by
      rintro rfl
      rw [Function.update_self] at hk
      cases hk
    rw [Function.update_of_ne hji] at hk
    by_cases hm : (home k + d) % n = i
    · rw [hm, Function.update_self]
      exact nofun
    · rw [Function.update_of_ne hm]
      exact h.path j hj k hk d hd
  uniq := by
    refine h.uniq_vacated i ?_
    intro k hk
    cases hk

/-- Storing a new key in a slot its search reaches. -/
theorem Chained.fill (h : Chained n home r v) (hr : Equivalence r) {i : Nat} {k : K}
    (hnot : ∀ j < n, j ≠ i → ∀ a, v j = live a → ¬ r a k)
    (hpath : ∀ d < cdist n (home k) i, v ((home k + d) % n) ≠ empty) :
    Chained n home r (Function.update v i (live k)) where
  path j hj a ha d hd := by
    by_cases hm : (home a + d) % n = i
    · rw [hm, Function.update_self]
      exact nofun
    rw [Function.update_of_ne hm]
    by_cases hji : j = i
    · subst hji
      rw [Function.update_self] at ha
      cases ha
      exact hpath d hd
    · rw [Function.update_of_ne hji] at ha
      exact h.path j hj a ha d hd
  uniq j hj l hl a b ha hb hab := by
    by_cases hji : j = i
    · by_cases hli : l = i
      · exact hji.trans hli.symm
      · subst hji
        rw [Function.update_self] at ha
        cases ha
        rw [Function.update_of_ne hli] at hb
        exact absurd (hr.symm hab) (hnot l hl hli b hb)
    · rw [Function.update_of_ne hji] at ha
      by_cases hli : l = i
      · subst hli
        rw [Function.update_self] at hb
        cases hb
        exact absurd hab (hnot j hj hji a ha)
      · rw [Function.update_of_ne hli] at hb
        exact h.uniq j hj l hl a b ha hb hab

/-- Moving a key back into a vacated slot its search passes. -/
theorem Chained.shift (h : Chained n home r v) (hr : Equivalence r) {hole src : Nat} {k : K}
    (hsrc : src < n) (hk : v src = live k)
    (hback : cdist n (home k) hole < cdist n (home k) src) :
    Chained n home r (Function.update (Function.update v src dead) hole (live k)) := by
  apply (h.kill src).fill hr
  · intro j hj _ a ha hrel
    by_cases hjs : j = src
    · subst hjs
      rw [Function.update_self] at ha
      cases ha
    · rw [Function.update_of_ne hjs] at ha
      exact hjs (h.uniq j hj src hsrc a k ha hk hrel)
  · intro d hd
    by_cases hm : (home k + d) % n = src
    · rw [hm, Function.update_self]
      exact nofun
    · rw [Function.update_of_ne hm]
      exact h.path src hsrc k hk d (by omega)

/-- Emptying a vacated slot `hole`, when the cluster ends at `e` and no key
between `hole` and `e` has its search pass the hole. A key further on whose search
passed the hole would pass `e` as well. -/
theorem Chained.clearHole (h : Chained n home r v) {hole e : Nat} (hhole : hole < n) (he : e < n)
    (hhome : ∀ k, home k < n) (hempty : v e = empty)
    (hclear : ∀ j < n, cdist n hole j < cdist n hole e → ∀ k, v j = live k →
      ¬ cdist n (home k) hole < cdist n (home k) j) :
    Chained n home r (Function.update v hole empty) where
  path j hj k hk d hd := by
    have hjh : j ≠ hole := by
      rintro rfl
      rw [Function.update_self] at hk
      cases hk
    rw [Function.update_of_ne hjh] at hk
    have hkn := hhome k
    have hdn : d < n := Nat.lt_trans hd (cdist_lt hkn hj)
    by_cases hm : (home k + d) % n = hole
    · -- the search of `k` passes the hole, so it passes `e`, which is empty
      exfalso
      have hdh : cdist n (home k) hole = d := by
        rw [← hm]
        exact cdist_add hkn hdn
      have hlt : cdist n (home k) hole < cdist n (home k) j := by omega
      rcases Nat.lt_or_ge (cdist n hole j) (cdist n hole e) with hin | hout
      · exact hclear j hj hin k hk hlt
      · have hsub := cdist_trans hkn hhole hj (Nat.le_of_lt hlt)
        have hbound := cdist_lt hkn hj
        have hsplit := cdist_split (c := e) hkn hhole (by omega)
        have hej : cdist n (home k) e ≠ cdist n (home k) j := by
          intro heq
          have h1 := add_cdist hkn he
          have h2 := add_cdist hkn hj
          rw [heq, h2] at h1
          rw [← h1, hk] at hempty
          cases hempty
        have hp := h.path j hj k hk (cdist n (home k) e) (by omega)
        rw [add_cdist hkn he] at hp
        exact hp hempty
    · rw [Function.update_of_ne hm]
      exact h.path j hj k hk d hd
  uniq := by
    refine h.uniq_vacated hole ?_
    intro k hk
    cases hk

/-! ## Searching a chained table -/

/-- The slots at which the search for `k` stops: an empty one, or one holding a
related key. -/
def Stops (r : K → K → Prop) (k : K) : Slot K → Prop
  | empty => True
  | dead => False
  | live a => r a k

/-- A held key stands where its search gets to: every slot before it is passed. -/
theorem Chained.not_stops_before (h : Chained n home r v) (hr : Equivalence r)
    (hrel : ∀ a b, r a b → home a = home b) (hhome : ∀ k, home k < n) {i : Nat} {a k : K}
    (hi : i < n) (ha : v i = live a) (hak : r a k) {d : Nat} (hd : d < cdist n (home k) i) :
    ¬ Stops r k (v ((home k + d) % n)) := by
  rw [← hrel a k hak] at hd ⊢
  have hhn := hhome a
  have hdn := Nat.lt_trans hd (cdist_lt hhn hi)
  have hne := h.path i hi a ha d hd
  intro hs
  cases hv : v ((home a + d) % n) with
  | empty => exact hne hv
  | dead => rw [hv] at hs; exact hs
  | live b =>
    rw [hv] at hs
    have hj : (home a + d) % n < n := Nat.mod_lt _ (by omega)
    have heq := h.uniq _ hj i hi b a hv ha (hr.trans hs (hr.symm hak))
    have hdist := cdist_add hhn hdn
    rw [heq] at hdist
    omega

/-- Searching a chained table for `k`: the first stopping slot from its home. -/
theorem Chained.search (h : Chained n home r v) (hr : Equivalence r)
    (hrel : ∀ a b, r a b → home a = home b) (hhome : ∀ k, home k < n) (k : K)
    {stop : Nat → Bool} (hstop : ∀ i < n, (stop i = true ↔ Stops r k (v i))) :
    (∃ i, scan n stop n (home k) = some i ∧ i < n ∧ ∃ a, v i = live a ∧ r a k) ∨
    (∃ i, scan n stop n (home k) = some i ∧ i < n ∧ v i = empty ∧ ¬ Holds n r v k ∧
      ∀ d < cdist n (home k) i, v ((home k + d) % n) ≠ empty) ∨
    (scan n stop n (home k) = none ∧ ¬ Holds n r v k ∧ ∀ i < n, v i ≠ empty) := by
  have hk := hhome k
  cases hscan : scan n stop n (home k) with
  | none =>
    have hno := scan_none hk hscan
    have hall : ∀ i < n, ¬ Stops r k (v i) := by
      intro i hi hs
      have hf := hno (cdist n (home k) i) (cdist_lt hk hi)
      rw [add_cdist hk hi, (hstop i hi).mpr hs] at hf
      cases hf
    refine .inr (.inr ⟨rfl, ?_, ?_⟩)
    · rintro ⟨i, hi, a, ha, hak⟩
      apply hall i hi
      rw [ha]
      exact hak
    · intro i hi he
      apply hall i hi
      rw [he]
      exact trivial
  | some i =>
    obtain ⟨d, hd, hi, hsi, hbefore⟩ := scan_some hk hscan
    have hin : i < n := by
      rw [hi]
      exact Nat.mod_lt _ (by omega)
    have hdist : cdist n (home k) i = d := by
      rw [hi]
      exact cdist_add hk hd
    have hst := (hstop i hin).mp hsi
    have hpass : ∀ e < d, ¬ Stops r k (v ((home k + e) % n)) := by
      intro e he hs
      have hf := hbefore e he
      rw [(hstop _ (Nat.mod_lt _ (by omega))).mpr hs] at hf
      cases hf
    cases hv : v i with
    | dead => rw [hv] at hst; exact absurd hst id
    | live a =>
      rw [hv] at hst
      exact .inl ⟨i, rfl, hin, a, hv, hst⟩
    | empty =>
      refine .inr (.inl ⟨i, rfl, hin, hv, ?_, ?_⟩)
      · rintro ⟨j, hj, a, ha, hak⟩
        -- a key at `j` would be met before the gap, at it, or could not stand behind it
        rcases Nat.lt_or_ge d (cdist n (home k) j) with hlt | hge
        · apply h.not_stops_before hr hrel hhome hj ha hak hlt
          rw [← hi, hv]
          exact trivial
        · rcases Nat.lt_or_eq_of_le hge with hlt | heq
          · apply hpass _ hlt
            rw [add_cdist hk hj, ha]
            exact hak
          · have hji : j = i := by
              rw [hi, ← heq, add_cdist hk hj]
            rw [hji, hv] at ha
            cases ha
      · rw [hdist]
        intro e he hem
        apply hpass e he
        rw [hem]
        exact trivial

/-! ## What a table holds -/

/-- A write to a slot that holds no key adds what it writes. -/
theorem holds_write {i : Nat} (hi : i < n) (hdead : ∀ a, v i ≠ live a) (x : Slot K) (k : K) :
    Holds n r (Function.update v i x) k ↔ Holds n r v k ∨ ∃ a, x = live a ∧ r a k := by
  constructor
  · intro h
    rcases h with ⟨j, hj, a, ha, hak⟩
    by_cases hji : j = i
    · rw [hji, Function.update_self] at ha
      exact .inr ⟨a, ha, hak⟩
    · rw [Function.update_of_ne hji] at ha
      exact .inl ⟨j, hj, a, ha, hak⟩
  · intro h
    rcases h with ⟨j, hj, a, ha, hak⟩ | ⟨a, ha, hak⟩
    · have hji : j ≠ i := fun e => hdead a (by rw [← e]; exact ha)
      exact ⟨j, hj, a, by rw [Function.update_of_ne hji]; exact ha, hak⟩
    · exact ⟨i, hi, a, by rw [Function.update_self]; exact ha, hak⟩

theorem holds_fill {i : Nat} (hi : i < n) (hdead : ∀ a, v i ≠ live a) (a k : K) :
    Holds n r (Function.update v i (live a)) k ↔ Holds n r v k ∨ r a k := by
  rw [holds_write hi hdead]
  simp

theorem holds_clearHole {i : Nat} (hi : i < n) (hdead : ∀ a, v i ≠ live a) (k : K) :
    Holds n r (Function.update v i empty) k ↔ Holds n r v k := by
  rw [holds_write hi hdead]
  simp

/-- Vacating the slot of `a` takes the keys related to `a`, and only those. -/
theorem Chained.holds_kill (h : Chained n home r v) (hr : Equivalence r) {i : Nat} {a : K}
    (hi : i < n) (ha : v i = live a) (k : K) :
    Holds n r (Function.update v i dead) k ↔ Holds n r v k ∧ ¬ r a k := by
  constructor
  · intro hk
    rcases hk with ⟨j, hj, b, hb, hbk⟩
    have hji : j ≠ i := by
      intro e
      rw [e, Function.update_self] at hb
      cases hb
    rw [Function.update_of_ne hji] at hb
    refine ⟨⟨j, hj, b, hb, hbk⟩, ?_⟩
    intro hak
    exact hji (h.uniq j hj i hi b a hb ha (hr.trans hbk (hr.symm hak)))
  · intro hk
    rcases hk with ⟨⟨j, hj, b, hb, hbk⟩, hnot⟩
    have hji : j ≠ i := by
      intro e
      rw [e, ha] at hb
      cases hb
      exact hnot hbk
    exact ⟨j, hj, b, by rw [Function.update_of_ne hji]; exact hb, hbk⟩

/-- Moving a key back keeps the keys. -/
theorem Chained.holds_shift (h : Chained n home r v) (hr : Equivalence r) {hole src : Nat}
    {a : K} (hhole : hole < n) (hsrc : src < n) (ha : v src = live a)
    (hdead : ∀ b, v hole ≠ live b) (k : K) :
    Holds n r (Function.update (Function.update v src dead) hole (live a)) k ↔
      Holds n r v k := by
  have hne : hole ≠ src := fun e => hdead a (by rw [e]; exact ha)
  have hdead' : ∀ b, Function.update v src dead hole ≠ live b := by
    intro b
    rw [Function.update_of_ne hne]
    exact hdead b
  rw [holds_fill hhole hdead', h.holds_kill hr hsrc ha]
  constructor
  · intro hk
    rcases hk with hk | hk
    · exact hk.1
    · exact ⟨src, hsrc, a, ha, hk⟩
  · intro hk
    by_cases hak : r a k
    · exact .inr hak
    · exact .inl ⟨hk, hak⟩

/-- A finite set of classes that describes what a chained table holds has one
element for each live slot. -/
theorem Chained.card_eq {S : Setoid K} (h : Chained n home S.r v)
    (A : Finset (Quotient S)) (hA : ∀ k, Quotient.mk S k ∈ A ↔ Holds n S.r v k) :
    A.card = slotCount n v Slot.isLive := by
  classical
  rw [slotCount, ← Finset.card_filter]
  symm
  -- a live slot goes to the class of its key
  apply Finset.card_bij (fun i hi =>
    Quotient.mk S (Classical.choose (isLive_iff.mp (Finset.mem_filter.mp hi).2)))
  · intro i hi
    have hk := Classical.choose_spec (isLive_iff.mp (Finset.mem_filter.mp hi).2)
    rw [hA]
    exact ⟨i, Finset.mem_range.mp (Finset.mem_filter.mp hi).1, _, hk, S.iseqv.refl _⟩
  · intro i hi j hj hij
    have hki := Classical.choose_spec (isLive_iff.mp (Finset.mem_filter.mp hi).2)
    have hkj := Classical.choose_spec (isLive_iff.mp (Finset.mem_filter.mp hj).2)
    exact h.uniq i (Finset.mem_range.mp (Finset.mem_filter.mp hi).1) j
      (Finset.mem_range.mp (Finset.mem_filter.mp hj).1) _ _ hki hkj (Quotient.exact hij)
  · intro q
    induction q using Quotient.ind with
    | _ k =>
      intro hq
      rcases (hA k).mp hq with ⟨i, hi, a, ha, hak⟩
      have hlive : i ∈ (Finset.range n).filter (fun i => (v i).isLive = true) :=
        Finset.mem_filter.mpr ⟨Finset.mem_range.mpr hi, isLive_iff.mpr ⟨a, ha⟩⟩
      refine ⟨i, hlive, ?_⟩
      have hki := Classical.choose_spec (isLive_iff.mp (Finset.mem_filter.mp hlive).2)
      have hka : Classical.choose (isLive_iff.mp (Finset.mem_filter.mp hlive).2) = a := by
        have e := hki.symm.trans ha
        injection e
      rw [hka]
      exact Quotient.sound hak

end CLib
