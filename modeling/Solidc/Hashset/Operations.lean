import Solidc.Hashset.Refinement

/-! # Set operations

Several sets of one key size, hash and equality live in a memory. Each operation creates a
third set and fills it from the slots of its arguments.

* `addSlots` — the loop over the slots of one set, with `addSlots_spec`;
* `elements` — the finite set that a table stands for;
* `Reachable` — the memories that calls lead to;
* `setOperations` — the operations are those of finite sets.
-/

namespace Solidc.Hashset

open CLib Slot

variable {K : Type*} (F : HashedKey K) (junk : Nat → K) (keySize : Nat)

/-! ## The program -/

/-- The sets in memory, by their addresses. -/
abbrev Memory (K : Type*) := Nat → Option (HashSet K)

/-- `hashset_add` to the set at `r`. -/
def addAt (m : Memory K) (r : Nat) (key : K) : Option (Memory K) :=
  (m r).bind fun s => (hashsetAdd F junk s key).map fun t => Function.update m r (some t.1)

/-- The first `i` turns of `for (size_t i = 0; i < from->capacity; i++)`: the keys of the set
at `src` that are to be kept are added to the set at `r`. -/
def addSlots (keep : Memory K → K → Option Bool) (src r : Nat) (m : Memory K) :
    Nat → Option (Memory K)
  | 0 => some m
  | i + 1 =>
    (addSlots keep src r m i).bind fun m =>
    (m src).bind fun s =>
    if s.slotMeta i < 0x02 then some m
    else (keep m (s.keys i)).bind fun kept => if kept then addAt F junk m r (s.keys i) else some m

/-- Every key is kept. -/
def keepAll : Memory K → K → Option Bool := fun _ _ => some true

/-- The keys in the set at `h` are kept. -/
def keepIn (h : Nat) : Memory K → K → Option Bool := fun m key =>
  (m h).map fun s => hashsetContains F s key

/-- The keys not in the set at `h` are kept. -/
def keepOut (h : Nat) : Memory K → K → Option Bool := fun m key =>
  (m h).map fun s => !hashsetContains F s key

/-- `hashset_union`, with the new set at `r`. -/
def hashsetUnion (m : Memory K) (a b r : Nat) : Option (Memory K) :=
  (m a).bind fun A => (m b).bind fun B =>
  (hashsetCreate junk keySize ((A.size + B.size) % 2 ^ 64)).bind fun s =>
  (addSlots F junk keepAll a r (Function.update m r (some s)) A.capacity).bind fun m =>
  addSlots F junk keepAll b r m B.capacity

/-- `hashset_intersection`. -/
def hashsetIntersection (m : Memory K) (a b r : Nat) : Option (Memory K) :=
  (m a).bind fun A => (m b).bind fun B =>
  let small := if A.size ≤ B.size then (a, A) else (b, B)
  let large := if A.size ≤ B.size then b else a
  (hashsetCreate junk keySize small.2.size).bind fun s =>
  addSlots F junk (keepIn F large) small.1 r (Function.update m r (some s)) small.2.capacity

/-- `hashset_difference`. -/
def hashsetDifference (m : Memory K) (a b r : Nat) : Option (Memory K) :=
  (m a).bind fun A => (m b).bind fun _ =>
  (hashsetCreate junk keySize A.size).bind fun s =>
  addSlots F junk (keepOut F b) a r (Function.update m r (some s)) A.capacity

/-- `hashset_symmetric_difference`. -/
def hashsetSymmetricDifference (m : Memory K) (a b r : Nat) : Option (Memory K) :=
  (m a).bind fun A => (m b).bind fun B =>
  (hashsetCreate junk keySize ((A.size + B.size) % 2 ^ 64)).bind fun s =>
  (addSlots F junk (keepOut F b) a r (Function.update m r (some s)) A.capacity).bind fun m =>
  addSlots F junk (keepOut F a) b r m B.capacity

/-- The loop of `hashset_is_subset` from slot `i` on. -/
def subsetLoop (A B : HashSet K) : Nat → Nat → Bool
  | 0, _ => true
  | fuel + 1, i =>
    if 0x02 ≤ A.slotMeta i ∧ hashsetContains F B (A.keys i) = false then false
    else subsetLoop A B fuel (i + 1)

/-- `hashset_is_subset`. -/
def hashsetIsSubset (A B : HashSet K) : Bool :=
  if B.size < A.size then false else subsetLoop F A B A.capacity 0

/-- `hashset_is_proper_subset`. -/
def hashsetIsProperSubset (A B : HashSet K) : Bool :=
  decide (A.size < B.size) && hashsetIsSubset F A B

/-- The operations that make a set from two. -/
inductive SetOp where
  | union | intersection | difference | symmetricDifference

/-- A set operation on the sets at `a` and `b`, with its result at `r`. -/
def combine (op : SetOp) (m : Memory K) (a b r : Nat) : Option (Memory K) :=
  match op with
  | .union => hashsetUnion F junk keySize m a b r
  | .intersection => hashsetIntersection F junk keySize m a b r
  | .difference => hashsetDifference F junk keySize m a b r
  | .symmetricDifference => hashsetSymmetricDifference F junk keySize m a b r

/-- The memories that calls lead to. An allocation that succeeds gives fewer than `2 ^ 63`
bytes, and a set has a byte for every slot; memory for keys may hold anything. -/
inductive Reachable : Memory K → Prop
  | empty : Reachable fun _ => none
  | create {m : Memory K} {s : HashSet K} (junk : Nat → K) (h initialCapacity : Nat) :
    Reachable m → m h = none → hashsetCreate junk keySize initialCapacity = some s →
    s.capacity < 2 ^ 63 → Reachable (Function.update m h (some s))
  | call {m : Memory K} {s t : HashSet K} (junk : Nat → K) (h : Nat) (op : Op K) :
    Reachable m → m h = some s → step F junk s op = some t → t.capacity < 2 ^ 63 →
    Reachable (Function.update m h (some t))
  | combine {m m' : Memory K} {s : HashSet K} (junk : Nat → K) (op : SetOp) (a b r : Nat) :
    Reachable m → m r = none → combine F junk keySize op m a b r = some m' → m' r = some s →
    s.capacity < 2 ^ 63 → Reachable m'
  | destroy {m : Memory K} (h : Nat) : Reachable m → Reachable (Function.update m h none)

/-! ## Finite sets -/

section Elements

open Classical

/-- The keys of the occupied slots, up to `equals_fn`. -/
noncomputable def elements (F : HashedKey K) (s : HashSet K) : Finset (Quotient F.setoid) :=
  ((Finset.range s.capacity).filter fun i => s.slotMeta i ≠ hsEmpty).image
    fun i => Quotient.mk F.setoid (s.keys i)

/-- The set answers as the finite set `S` does. -/
def Is (F : HashedKey K) (s : HashSet K) (S : Finset (Quotient F.setoid)) : Prop :=
  (∀ k, hashsetContains F s k = true ↔ Quotient.mk F.setoid k ∈ S) ∧ hashsetSize s = S.card

/-- An operation has put a set for `S` at the address `r`, and changed nothing else. -/
def Makes (F : HashedKey K) (m : Memory K) (r : Nat) (result : Option (Memory K))
    (S : Finset (Quotient F.setoid)) : Prop :=
  ∃ u, result = some (Function.update m r (some u)) ∧ Inv F u ∧ Is F u S

variable {F junk keySize} {m m' : Memory K} {s u A B : HashSet K} {src r a b : Nat}
  {S T : Finset (Quotient F.setoid)}

theorem represents_elements (hinv : Inv F s) : Represents F s (elements F s) := by
  intro k
  rw [elements, Finset.mem_image]
  constructor
  · rintro ⟨i, hi, heq⟩
    obtain ⟨hi, hm⟩ := Finset.mem_filter.mp hi
    have hlt := Finset.mem_range.mp hi
    rcases view_cases hinv.tag hlt with ⟨hempty, -⟩ | ⟨-, hv⟩
    · exact absurd hempty hm
    · exact ⟨i, hlt, _, hv, (class_eq_iff _ _).mp heq⟩
  · rintro ⟨i, hlt, a, ha, hrel⟩
    rcases view_cases hinv.tag hlt with ⟨-, hv⟩ | ⟨-, hv⟩
    · rw [hv] at ha
      cases ha
    · rw [hv] at ha
      cases ha
      refine ⟨i, Finset.mem_filter.mpr ⟨Finset.mem_range.mpr hlt, fun hm => ?_⟩,
        (class_eq_iff _ _).mpr hrel⟩
      rw [(view_empty_iff i).mpr hm] at hv
      cases hv

theorem Is.of_represents (hinv : Inv F s) (hrep : Represents F s S) : Is F s S := by
  refine ⟨fun k => (contains_iff hinv k).trans (hrep k).symm, ?_⟩
  have hcard := Chained.card_eq (S := F.setoid) hinv.chained S hrep
  rw [hashsetSize, hinv.size, hcard, slotCount_live hinv.tag]

theorem is_elements (hinv : Inv F s) : Is F s (elements F s) :=
  .of_represents hinv (represents_elements hinv)

/-! ## The loop over the slots -/

/-- What an occupied slot adds to the keys of the slots before it. -/
theorem holds_slot (hinv : Inv F s) {i : Nat} (hi : i < s.capacity) (k : K) :
    Holds (i + 1) F.Rel s.view k ↔
      Holds i F.Rel s.view k ∨ (¬ s.slotMeta i < 0x02 ∧ F.Rel (s.keys i) k) := by
  rw [holds_succ]
  rcases view_cases hinv.tag hi with ⟨hm, hv⟩ | ⟨hm, hv⟩
  · simp [hm, hv, hsEmpty]
  · have h2 := fingerprint_ge_two (F.hash (s.keys i))
    have hlive : ¬ s.slotMeta i < 0x02 := by omega
    simp [hv, hlive]

/-- The loop adds the keys that are kept to the set at `r`, when `keep` answers `q` in every
memory that differs at `r` only. -/
theorem addSlots_spec (junk : Nat → K) (hsrc : m src = some s) (hne : src ≠ r) (hs : Inv F s)
    (hu : Inv F u)
    {keep : Memory K → K → Option Bool} {q : K → Bool}
    (hkeep : ∀ u key, keep (Function.update m r (some u)) key = some (q key))
    (hq : ∀ a b, F.Rel a b → q a = q b) {i : Nat} (hi : i ≤ s.capacity) :
    ∃ u', addSlots F junk keep src r (Function.update m r (some u)) i =
        some (Function.update m r (some u')) ∧ Inv F u' ∧
      ∀ k, Holds u'.capacity F.Rel u'.view k ↔
        Holds u.capacity F.Rel u.view k ∨ (Holds i F.Rel s.view k ∧ q k = true) := by
  induction i with
  | zero =>
    refine ⟨u, rfl, hu, fun k => ⟨.inl, ?_⟩⟩
    rintro (h | ⟨⟨i, hi, -⟩, -⟩)
    · exact h
    · exact absurd hi (Nat.not_lt_zero i)
  | succ i ih =>
    obtain ⟨u₁, hloop, hu₁, hholds⟩ := ih (by omega)
    have hthere : Function.update m r (some u₁) src = some s := by
      rw [Function.update_of_ne hne, hsrc]
    simp only [addSlots, hloop, Option.bind_some, hthere]
    by_cases hm : s.slotMeta i < 0x02
    · refine ⟨u₁, by rw [if_pos hm], hu₁, fun k => ?_⟩
      simp [hholds, holds_slot hs (show i < s.capacity by omega), hm]
    · rw [if_neg hm, hkeep, Option.bind_some]
      cases hkept : q (s.keys i) with
      | false =>
        refine ⟨u₁, rfl, hu₁, fun k => ?_⟩
        rw [hholds, holds_slot hs (show i < s.capacity by omega)]
        constructor
        · rintro (h | ⟨h, hk⟩)
          · exact .inl h
          · exact .inr ⟨.inl h, hk⟩
        · rintro (h | ⟨h | ⟨-, hrel⟩, hk⟩)
          · exact .inl h
          · exact .inr ⟨h, hk⟩
          · -- an equal key is kept or dropped alike
            rw [← hq _ _ hrel, hkept] at hk
            cases hk
      | true =>
        obtain ⟨u₂, hadd, hu₂, hholds₂⟩ := add_spec junk hu₁ (s.keys i)
        refine ⟨u₂, by simp [addAt, hadd], hu₂, fun k => ?_⟩
        rw [hholds₂, hholds, holds_slot hs (show i < s.capacity by omega)]
        constructor
        · rintro ((h | ⟨h, hk⟩) | hrel)
          · exact .inl h
          · exact .inr ⟨.inl h, hk⟩
          · exact .inr ⟨.inr ⟨hm, hrel⟩, by rw [← hq _ _ hrel, hkept]⟩
        · rintro (h | ⟨h | ⟨-, hrel⟩, hk⟩)
          · exact .inl (.inl h)
          · exact .inl (.inr ⟨h, hk⟩)
          · exact .inr hrel

/-! ## The new set -/

/-- Rounding up ends at a power of two if there is one that a `size_t` can hold. -/
theorem roundUp_isSome {initialCapacity : Nat} (hle : initialCapacity ≤ 2 ^ 63) {fuel e : Nat}
    (he : e < 64) (hfuel : 64 ≤ fuel + e) :
    (roundUp initialCapacity fuel (2 ^ e)).isSome := by
  induction fuel generalizing e with
  | zero => omega
  | succ fuel ih =>
    rw [roundUp]
    split_ifs with hlt
    · have hpow : e + 1 < 64 := by
        by_contra hbig
        have he63 : e = 63 := by omega
        rw [he63] at hlt
        omega
      rw [Nat.shiftLeft_eq, Nat.pow_one, ← Nat.pow_succ,
        Nat.mod_eq_of_lt (Nat.pow_lt_pow_right (by omega) hpow)]
      exact ih hpow (by omega)
    · rfl

theorem create_isSome (junk : Nat → K) (hks : keySize ≠ 0) {initialCapacity : Nat}
    (hle : initialCapacity ≤ 2 ^ 63) :
    ∃ s, hashsetCreate junk keySize initialCapacity = some s := by
  obtain ⟨cap, hcap⟩ := Option.isSome_iff_exists.mp
    (@roundUp_isSome _ hle 64 4 (by omega) (by omega))
  have hcap : roundUp initialCapacity 64 defaultCapacity = some cap := hcap
  rw [hashsetCreate, if_neg hks, hcap, Option.map_some]
  exact ⟨_, rfl⟩

/-- A new set at `r`, filled from the keys of `src` that are kept. -/
theorem fill_spec (junk : Nat → K) (hks : keySize ≠ 0) (hsrc : m src = some s) (hne : src ≠ r)
    (hs : Inv F s)
    {keep : Memory K → K → Option Bool} {q : K → Bool}
    (hkeep : ∀ u key, keep (Function.update m r (some u)) key = some (q key))
    (hq : ∀ a b, F.Rel a b → q a = q b) {initialCapacity : Nat}
    (hle : initialCapacity ≤ 2 ^ 63) :
    ∃ u, ((hashsetCreate junk keySize initialCapacity).bind fun u₀ =>
        addSlots F junk keep src r (Function.update m r (some u₀)) s.capacity) =
          some (Function.update m r (some u)) ∧ Inv F u ∧
      ∀ k, Holds u.capacity F.Rel u.view k ↔
        Holds s.capacity F.Rel s.view k ∧ q k = true := by
  obtain ⟨u₀, hcreate⟩ := create_isSome junk hks hle
  obtain ⟨hinv₀, hnone⟩ := create_spec (F := F) hcreate
  obtain ⟨u, hloop, hinv, hholds⟩ :=
    addSlots_spec junk hsrc hne hs hinv₀ hkeep hq (Nat.le_refl s.capacity)
  refine ⟨u, by rw [hcreate, Option.bind_some, hloop], hinv, fun k => ?_⟩
  rw [hholds]
  exact or_iff_right (hnone k)

/-- A lookup answers alike for equal keys. -/
theorem contains_congr (hs : Inv F s) {k k' : K} (h : F.Rel k k') :
    hashsetContains F s k = hashsetContains F s k' := by
  rw [Bool.eq_iff_iff, contains_iff hs, contains_iff hs, ← represents_elements hs,
    ← represents_elements hs, (class_eq_iff k k').mpr h]

theorem keepIn_update (hb : m b = some B) (hne : b ≠ r) (u : HashSet K) (key : K) :
    keepIn F b (Function.update m r (some u)) key = some (hashsetContains F B key) := by
  rw [keepIn, Function.update_of_ne hne, hb]
  rfl

theorem keepOut_update (hb : m b = some B) (hne : b ≠ r) (u : HashSet K) (key : K) :
    keepOut F b (Function.update m r (some u)) key = some !hashsetContains F B key := by
  rw [keepOut, Function.update_of_ne hne, hb]
  rfl

/-! ## The operations -/

/-- Two sets in memory, and a free address. -/
structure Pair (F : HashedKey K) (m : Memory K) (a b r : Nat) (A B : HashSet K) : Prop where
  left : m a = some A
  right : m b = some B
  free : m r = none
  leftInv : Inv F A
  rightInv : Inv F B
  leftSize : A.size < 2 ^ 62
  rightSize : B.size < 2 ^ 62

namespace Pair

variable (h : Pair F m a b r A B)

include h

theorem symm : Pair F m b a r B A :=
  ⟨h.right, h.left, h.free, h.rightInv, h.leftInv, h.rightSize, h.leftSize⟩

theorem left_ne : a ≠ r := fun heq => by
  have hfree := h.free
  rw [← heq, h.left] at hfree
  cases hfree

theorem right_ne : b ≠ r := h.symm.left_ne

theorem sizes : (A.size + B.size) % 2 ^ 64 ≤ 2 ^ 63 := by
  have hleft := h.leftSize
  have hright := h.rightSize
  omega

theorem union (junk : Nat → K) (hks : keySize ≠ 0) :
    Makes F m r (hashsetUnion F junk keySize m a b r) (elements F A ∪ elements F B) := by
  have hall : ∀ u key, keepAll (Function.update m r (some u)) key = some ((fun _ => true) key) :=
    fun _ _ => rfl
  obtain ⟨u, hfill, hu, hholds⟩ := fill_spec junk hks h.left h.left_ne h.leftInv hall
    (fun _ _ _ => rfl) h.sizes
  obtain ⟨u', hloop, hu', hholds'⟩ := addSlots_spec junk h.right h.right_ne h.rightInv hu hall
    (fun _ _ _ => rfl) (Nat.le_refl B.capacity)
  refine ⟨u', ?_, hu', .of_represents hu' fun k => ?_⟩
  · simp only [hashsetUnion, h.left, h.right, Option.bind_some]
    rw [← Option.bind_assoc, hfill, Option.bind_some, hloop]
  · rw [hholds', hholds, Finset.mem_union, represents_elements h.leftInv,
      represents_elements h.rightInv]
    simp

theorem intersection (junk : Nat → K) (hks : keySize ≠ 0) :
    Makes F m r (hashsetIntersection F junk keySize m a b r) (elements F A ∩ elements F B) := by
  -- the smaller set is walked, the larger one probed
  have hwalk : ∀ {a b : Nat} {A B : HashSet K}, Pair F m a b r A B →
      Makes F m r ((hashsetCreate junk keySize A.size).bind fun s =>
        addSlots F junk (keepIn F b) a r (Function.update m r (some s)) A.capacity)
        (elements F A ∩ elements F B) := by
    intro a b A B h
    have hsize := h.leftSize
    obtain ⟨u, hfill, hu, hholds⟩ := fill_spec junk hks h.left h.left_ne h.leftInv
      (keepIn_update h.right h.right_ne) (fun _ _ hrel => contains_congr h.rightInv hrel)
      (show A.size ≤ 2 ^ 63 by omega)
    refine ⟨u, hfill, hu, .of_represents hu fun k => ?_⟩
    rw [hholds, contains_iff h.rightInv, Finset.mem_inter, represents_elements h.leftInv,
      represents_elements h.rightInv]
  simp only [hashsetIntersection, h.left, h.right, Option.bind_some]
  by_cases hle : A.size ≤ B.size
  · simp only [if_pos hle]
    exact hwalk h
  · simp only [if_neg hle]
    rw [Finset.inter_comm]
    exact hwalk h.symm

/-- The keys of one set that are not in the other. -/
theorem fill_difference (junk : Nat → K) (hks : keySize ≠ 0) {initialCapacity : Nat}
    (hle : initialCapacity ≤ 2 ^ 63) :
    ∃ u, ((hashsetCreate junk keySize initialCapacity).bind fun u₀ =>
        addSlots F junk (keepOut F b) a r (Function.update m r (some u₀)) A.capacity) =
          some (Function.update m r (some u)) ∧ Inv F u ∧
      Represents F u (elements F A \ elements F B) := by
  obtain ⟨u, hfill, hu, hholds⟩ := fill_spec junk hks h.left h.left_ne h.leftInv
    (keepOut_update h.right h.right_ne)
    (fun _ _ hrel => congrArg not (contains_congr h.rightInv hrel)) hle
  refine ⟨u, hfill, hu, fun k => ?_⟩
  rw [hholds, Bool.not_eq_true', Bool.eq_false_iff, ne_eq, contains_iff h.rightInv,
    Finset.mem_sdiff, represents_elements h.leftInv, represents_elements h.rightInv]

theorem difference (junk : Nat → K) (hks : keySize ≠ 0) :
    Makes F m r (hashsetDifference F junk keySize m a b r) (elements F A \ elements F B) := by
  have hsize := h.leftSize
  obtain ⟨u, hfill, hu, hrep⟩ := h.fill_difference junk hks (show A.size ≤ 2 ^ 63 by omega)
  refine ⟨u, ?_, hu, .of_represents hu hrep⟩
  simp only [hashsetDifference, h.left, h.right, Option.bind_some]
  exact hfill

theorem symmetricDifference (junk : Nat → K) (hks : keySize ≠ 0) :
    Makes F m r (hashsetSymmetricDifference F junk keySize m a b r)
      ((elements F A \ elements F B) ∪ (elements F B \ elements F A)) := by
  obtain ⟨u, hfill, hu, hrep⟩ := h.fill_difference junk hks h.sizes
  obtain ⟨u', hloop, hu', hholds'⟩ := addSlots_spec junk h.right h.right_ne h.rightInv hu
    (keepOut_update h.left h.left_ne)
    (fun _ _ hrel => congrArg not (contains_congr h.leftInv hrel)) (Nat.le_refl B.capacity)
  refine ⟨u', ?_, hu', .of_represents hu' fun k => ?_⟩
  · simp only [hashsetSymmetricDifference, h.left, h.right, Option.bind_some]
    rw [← Option.bind_assoc, hfill, Option.bind_some, hloop]
  · rw [hholds', ← hrep k, Bool.not_eq_true', Bool.eq_false_iff, ne_eq, contains_iff h.leftInv,
      Finset.mem_union, Finset.mem_sdiff, Finset.mem_sdiff, represents_elements h.leftInv,
      represents_elements h.rightInv]

/-- Every operation makes its set. -/
theorem makes (junk : Nat → K) (hks : keySize ≠ 0) (op : SetOp) :
    ∃ S, Makes F m r (combine F junk keySize op m a b r) S := by
  cases op with
  | union => exact ⟨_, h.union junk hks⟩
  | intersection => exact ⟨_, h.intersection junk hks⟩
  | difference => exact ⟨_, h.difference junk hks⟩
  | symmetricDifference => exact ⟨_, h.symmetricDifference junk hks⟩

end Pair

/-! ## Subsets -/

theorem subsetLoop_iff {fuel i : Nat} :
    subsetLoop F A B fuel i = true ↔ ∀ j, i ≤ j → j < i + fuel → 0x02 ≤ A.slotMeta j →
      hashsetContains F B (A.keys j) = true := by
  induction fuel generalizing i with
  | zero => exact iff_of_true rfl fun j hj hj' => absurd hj' (by omega)
  | succ fuel ih =>
    rw [subsetLoop]
    split_ifs with hmiss
    · refine iff_of_false nofun fun hall => ?_
      have hin := hall i (Nat.le_refl i) (by omega) hmiss.1
      rw [hmiss.2] at hin
      cases hin
    · rw [ih]
      constructor
      · intro hall j hj hj' hm
        rcases Nat.eq_or_lt_of_le hj with rfl | hlt
        · exact Bool.not_eq_false _ ▸ fun hno => hmiss ⟨hm, hno⟩
        · exact hall j hlt (by omega) hm
      · exact fun hall j hj hj' => hall j (by omega) (by omega)

/-- The loop of `hashset_is_subset` compares the finite sets. -/
theorem subsetLoop_elements (hA : Inv F A) (hB : Inv F B) :
    subsetLoop F A B A.capacity 0 = true ↔ elements F A ⊆ elements F B := by
  rw [subsetLoop_iff]
  constructor
  · intro hall c hc
    obtain ⟨i, hi, rfl⟩ := Finset.mem_image.mp hc
    obtain ⟨hi, hm⟩ := Finset.mem_filter.mp hi
    have hlt := Finset.mem_range.mp hi
    refine ((is_elements hB).1 _).mp (hall i (Nat.zero_le i) (by omega) ?_)
    rcases view_cases hA.tag hlt with ⟨hempty, -⟩ | ⟨htag, -⟩
    · exact absurd hempty hm
    · rw [htag]
      exact fingerprint_ge_two _
  · intro hsub i _ hi hm
    refine ((is_elements hB).1 _).mpr (hsub (Finset.mem_image_of_mem _ ?_))
    refine Finset.mem_filter.mpr ⟨Finset.mem_range.mpr (by omega), fun hempty => ?_⟩
    rw [hempty] at hm
    exact absurd hm (by decide)

theorem isSubset_iff (hA : Inv F A) (hB : Inv F B) :
    hashsetIsSubset F A B = true ↔ elements F A ⊆ elements F B := by
  rw [hashsetIsSubset]
  split_ifs with hsize
  · -- more keys than the other set has
    refine iff_of_false nofun fun hsub => ?_
    have hcard := Finset.card_le_card hsub
    rw [← (is_elements hA).2, ← (is_elements hB).2] at hcard
    exact absurd hsize (Nat.not_lt.mpr hcard)
  · exact subsetLoop_elements hA hB

theorem isProperSubset_iff (hA : Inv F A) (hB : Inv F B) :
    hashsetIsProperSubset F A B = true ↔
      elements F A ⊆ elements F B ∧ elements F A ≠ elements F B := by
  rw [hashsetIsProperSubset, Bool.and_eq_true, decide_eq_true_eq, isSubset_iff hA hB]
  have hcardA : A.size = (elements F A).card := (is_elements hA).2
  have hcardB : B.size = (elements F B).card := (is_elements hB).2
  rw [hcardA, hcardB]
  constructor
  · rintro ⟨hlt, hsub⟩
    exact ⟨hsub, fun heq => absurd hlt (by rw [heq]; exact lt_irrefl _)⟩
  · rintro ⟨hsub, hne⟩
    exact ⟨Finset.card_lt_card (hsub.ssubset_of_ne hne), hsub⟩

/-! ## Reachable memories -/

/-- A set operation reads both sets. -/
theorem combine_sources {op : SetOp} (h : combine F junk keySize op m a b r = some m') :
    ∃ A B, m a = some A ∧ m b = some B := by
  cases op <;>
    · simp only [combine, hashsetUnion, hashsetIntersection, hashsetDifference,
        hashsetSymmetricDifference] at h
      obtain ⟨A, hA, h⟩ := Option.bind_eq_some_iff.mp h
      obtain ⟨B, hB, -⟩ := Option.bind_eq_some_iff.mp h
      exact ⟨A, B, hA, hB⟩

/-- Every set in memory keeps its invariant. -/
theorem Reachable.inv (h : Reachable F keySize m) :
    ∀ a s, m a = some s → Inv F s ∧ s.size < 2 ^ 62 ∧ keySize ≠ 0 := by
  have hsize : ∀ {s : HashSet K}, Inv F s → s.capacity < 2 ^ 63 → s.size < 2 ^ 62 := by
    intro s hinv hcap
    -- a power of two below `2 ^ 63` is at most `2 ^ 62`
    obtain ⟨e, he⟩ := hinv.pow2
    have hload := hinv.load
    have hlt : e < 63 := (Nat.pow_lt_pow_iff_right (by omega)).mp (he ▸ hcap)
    have hle : s.capacity ≤ 2 ^ 62 := by
      rw [he]
      exact Nat.pow_le_pow_right (by omega) (by omega)
    omega
  induction h with
  | empty => exact nofun
  | @create m s junk h initialCapacity _ _ hcreate hcap ih =>
    intro a t ht
    by_cases ha : a = h
    · rw [ha, Function.update_self] at ht
      cases ht
      have hinv := (create_spec (F := F) hcreate).1
      refine ⟨hinv, hsize hinv hcap, fun hks => ?_⟩
      rw [hashsetCreate, if_pos hks] at hcreate
      cases hcreate
    · rw [Function.update_of_ne ha] at ht
      exact ih a t ht
  | @call m s t junk h op _ hs hstep hcap ih =>
    intro a u hu
    by_cases ha : a = h
    · rw [ha, Function.update_self] at hu
      cases hu
      obtain ⟨hinv, -, hks⟩ := ih h s hs
      obtain ⟨t', ht', hinvt, -⟩ := step_represents junk hinv (represents_elements hinv) op
      rw [hstep] at ht'
      cases ht'
      exact ⟨hinvt, hsize hinvt hcap, hks⟩
    · rw [Function.update_of_ne ha] at hu
      exact ih a u hu
  | @combine m m' s junk op a b r _ hfree hres hs hcap ih =>
    obtain ⟨A, B, hA, hB⟩ := combine_sources hres
    obtain ⟨hinvA, hsizeA, hks⟩ := ih a A hA
    obtain ⟨hinvB, hsizeB, -⟩ := ih b B hB
    obtain ⟨S, u, hmade, hinvu, -⟩ :=
      Pair.makes ⟨hA, hB, hfree, hinvA, hinvB, hsizeA, hsizeB⟩ junk hks op
    rw [hres] at hmade
    cases hmade
    rw [Function.update_self] at hs
    cases hs
    intro c t ht
    by_cases hc : c = r
    · rw [hc, Function.update_self] at ht
      cases ht
      exact ⟨hinvu, hsize hinvu hcap, hks⟩
    · rw [Function.update_of_ne hc] at ht
      exact ih c t ht
  | @destroy m h _ ih =>
    intro a s hs
    by_cases ha : a = h
    · rw [ha, Function.update_self] at hs
      cases hs
    · rw [Function.update_of_ne ha] at hs
      exact ih a s hs

end Elements

end Solidc.Hashset
