import Solidc.Lib.EditDistance

/-! # Tables of edit distances

The recursion for the distance of two lists, and the table of the distances of their first letters.
Where neighbours may be exchanged, the last occurrences of two letters are looked up in it.

* `dist_cons`, `dist_cons_cross` — what becomes of the first letters of two lists;
* `levenshtein` — the recursion without exchanges, as a function;
* `prefixDist_succ`, `prefixDist_cross` — an entry of the table by others.
-/

namespace EditDistance

variable {α : Type*} {s : Bool} {n : Nat} {x y c : α} {a b a' b' u v : List α} {i j k l : Nat}

/-! ## The recursion -/

theorem Align.of_nil (h : Align s n a b) (ha : a = []) : b.length ≤ n := by
  induction h with
  | nil n => exact Nat.zero_le n
  | insert y _ ih => exact Nat.succ_le_succ (ih ha)
  | delete | keep | substitute | cross => cases ha

theorem dist_nil_left (s : Bool) (b : List α) : dist s [] b = b.length := by
  refine le_antisymm (dist_le_iff.mpr ?_) ((align_dist s [] b).of_nil rfl)
  have h := (.nil 0 : Align s 0 ([] : List α) []).inserts b
  rwa [Nat.zero_add, List.append_nil] at h

theorem dist_nil_right (s : Bool) (a : List α) : dist s a [] = a.length := by
  rw [dist_comm, dist_nil_left]

/-- What becomes of the first letters. -/
theorem Align.cons_cases (h : Align s n (x :: a) (y :: b)) :
    dist s a (y :: b) + 1 ≤ n ∨ dist s (x :: a) b + 1 ≤ n ∨ x = y ∧ dist s a b ≤ n ∨
      dist s a b + 1 ≤ n ∨ s = true ∧ ∃ u v a' b', a = u ++ y :: a' ∧ b = v ++ x :: b' ∧
        dist s a' b' + (u.length + v.length + 1) ≤ n := by
  cases h with
  | delete _ h => exact .inl (Nat.succ_le_succ (dist_le_iff.mpr h))
  | insert _ h => exact .inr (.inl (Nat.succ_le_succ (dist_le_iff.mpr h)))
  | keep _ h => exact .inr (.inr (.inl ⟨rfl, dist_le_iff.mpr h⟩))
  | substitute _ _ h => exact .inr (.inr (.inr (.inl (Nat.succ_le_succ (dist_le_iff.mpr h)))))
  | cross _ _ u v hs h =>
    exact .inr (.inr (.inr (.inr ⟨hs, u, v, _, _, rfl, rfl,
      Nat.add_le_add_right (dist_le_iff.mpr h) _⟩)))

/-- A later occurrence can be exchanged for the first: what is between them is deleted. -/
theorem Align.of_first {u' : List α} (h : Align s n a' b) (heq : u ++ y :: a = u' ++ y :: a')
    (hu : y ∉ u) : ∃ k, u'.length = u.length + k ∧ Align s (n + k) a b := by
  rcases List.append_eq_append_iff.mp heq with ⟨t, rfl, ht⟩ | ⟨t, rfl, ht⟩
  · cases t with
    | nil =>
      obtain ⟨-, rfl⟩ := List.cons.inj ht
      exact ⟨0, List.length_append, h⟩
    | cons _ t =>
      obtain ⟨rfl, rfl⟩ := List.cons.inj ht
      refine ⟨t.length + 1, List.length_append, ?_⟩
      exact (Align.deletes t (.delete y h)).mono (by omega)
  · cases t with
    | nil =>
      obtain ⟨-, rfl⟩ := List.cons.inj ht
      exact ⟨0, by rw [List.append_nil, Nat.add_zero], h⟩
    | cons _ t =>
      obtain ⟨rfl, -⟩ := List.cons.inj ht
      exact absurd (List.mem_append_right u' List.mem_cons_self) hu

/-- The distance of the first `i` letters of one list from the first `j` of another. -/
noncomputable def prefixDist (s : Bool) (a b : List α) (i j : Nat) : Nat :=
  dist s (a.take i).reverse (b.take j).reverse

theorem prefixDist_zero_left (s : Bool) (a : List α) (hj : j ≤ b.length) :
    prefixDist s a b 0 j = j := by
  rw [prefixDist, List.take_zero, List.reverse_nil, dist_nil_left, List.length_reverse,
    List.length_take_of_le hj]

theorem prefixDist_zero_right (s : Bool) (b : List α) (hi : i ≤ a.length) :
    prefixDist s a b i 0 = i := by
  rw [prefixDist, List.take_zero, List.reverse_nil, dist_nil_right, List.length_reverse,
    List.length_take_of_le hi]

theorem prefixDist_all (s : Bool) (a b : List α) :
    prefixDist s a b a.length b.length = dist s a b := by
  rw [prefixDist, List.take_length, List.take_length, dist_reverse]

theorem prefixDist_le (s : Bool) (a b : List α) (i j : Nat) : prefixDist s a b i j ≤ i + j := by
  have hle := dist_le_length s (a.take i).reverse (b.take j).reverse
  rw [List.length_reverse, List.length_reverse, List.length_take, List.length_take] at hle
  rw [prefixDist]
  omega

/-- `k` is the last place up to `n` at which `c` stands, from 1, or 0 if there is none. -/
def IsLast (a : List α) (c : α) (n k : Nat) : Prop :=
  k ≤ n ∧ (0 < k → a[k - 1]? = some c) ∧ ∀ i, k ≤ i → i < n → a[i]? ≠ some c

theorem IsLast.zero (a : List α) (c : α) : IsLast a c 0 0 :=
  ⟨le_rfl, nofun, fun i _ hi => absurd hi (Nat.not_lt_zero i)⟩

theorem IsLast.here (h : a[n]? = some c) : IsLast a c (n + 1) (n + 1) :=
  ⟨le_rfl, fun _ => h, fun _ hle hlt => absurd hle (Nat.not_le_of_lt hlt)⟩

theorem IsLast.before (h : IsLast a c n k) (hne : a[n]? ≠ some c) : IsLast a c (n + 1) k := by
  obtain ⟨hle, hat, hbehind⟩ := h
  refine ⟨hle.trans (Nat.le_succ n), hat, fun i hi hlt => ?_⟩
  rcases Nat.lt_succ_iff_lt_or_eq.mp hlt with hlt | rfl
  · exact hbehind i hi hlt
  · exact hne

theorem IsLast.not_mem (h : IsLast a c n 0) : c ∉ (a.take n).reverse := by
  rw [List.mem_reverse, List.mem_take_iff_getElem]
  rintro ⟨i, hi, rfl⟩
  refine h.2.2 i (Nat.zero_le i) (by omega) ?_
  exact List.getElem?_eq_getElem (by omega)

theorem reverse_take_succ (h : i < a.length) :
    (a.take (i + 1)).reverse = a[i] :: (a.take i).reverse := by
  rw [List.take_succ_eq_append_getElem h, List.reverse_append, List.reverse_singleton,
    List.singleton_append]

/-- The letters up to `n`, read backwards, by the last place of `c`. -/
theorem IsLast.split (h : IsLast a c n (k + 1)) (hn : n ≤ a.length) :
    ∃ u, (a.take n).reverse = u ++ c :: (a.take k).reverse ∧ c ∉ u ∧ u.length = n - (k + 1) := by
  obtain ⟨hle, hat, hbehind⟩ := h
  have hk : k < a.length := by omega
  have hc : a[k] = c := Option.some.inj ((List.getElem?_eq_getElem hk).symm.trans (hat (by omega)))
  refine ⟨((a.take n).drop (k + 1)).reverse, ?_, ?_, ?_⟩
  · have hsplit := List.take_append_drop (k + 1) (a.take n)
    rw [List.take_take, Nat.min_eq_left hle] at hsplit
    rw [← hc, ← reverse_take_succ hk, ← List.reverse_append, hsplit]
  · rw [List.mem_reverse, List.mem_drop_iff_getElem]
    rintro ⟨i, hi, hget⟩
    rw [List.length_take_of_le hn] at hi
    rw [List.getElem_take] at hget
    exact hbehind (k + 1 + i) (by omega) (by omega) (by rw [← hget, List.getElem?_eq_getElem])
  · rw [List.length_reverse, List.length_drop, List.length_take_of_le hn]

variable [DecidableEq α]

/-- The least cost when the first letters do not cross. -/
noncomputable def uncrossed (s : Bool) (x y : α) (a b : List α) : Nat :=
  min (dist s a (y :: b) + 1) (min (dist s (x :: a) b + 1) (dist s a b + if x = y then 0 else 1))

theorem dist_le_uncrossed (s : Bool) (x y : α) (a b : List α) :
    dist s (x :: a) (y :: b) ≤ uncrossed s x y a b := by
  refine le_min ?_ (le_min ?_ ?_)
  · exact dist_le_iff.mpr (.delete x (align_dist s a (y :: b)))
  · exact dist_le_iff.mpr (.insert y (align_dist s (x :: a) b))
  · split
    case isTrue heq =>
      subst heq
      exact dist_le_iff.mpr (.keep x (align_dist s a b))
    case isFalse => exact dist_le_iff.mpr (.substitute x y (align_dist s a b))

theorem uncrossed_le_or (h : Align s n (x :: a) (y :: b)) : uncrossed s x y a b ≤ n ∨ s = true ∧
    ∃ u v a' b', a = u ++ y :: a' ∧ b = v ++ x :: b' ∧
      dist s a' b' + (u.length + v.length + 1) ≤ n := by
  unfold uncrossed
  rcases h.cons_cases with hle | hle | ⟨rfl, hle⟩ | hle | hcross
  · exact .inl ((min_le_left _ _).trans hle)
  · exact .inl ((min_le_right _ _).trans ((min_le_left _ _).trans hle))
  · rw [if_pos rfl]
    exact .inl ((min_le_right _ _).trans ((min_le_right _ _).trans hle))
  · refine .inl ((min_le_right _ _).trans ((min_le_right _ _).trans (le_trans ?_ hle)))
    split <;> omega
  · exact .inr hcross

/-- Letters that do not occur on the other side, or must not cross. -/
theorem dist_cons (h : s = false ∨ y ∉ a ∨ x ∉ b) :
    dist s (x :: a) (y :: b) = uncrossed s x y a b := by
  refine le_antisymm (dist_le_uncrossed s x y a b) ?_
  rcases uncrossed_le_or (align_dist s (x :: a) (y :: b)) with
    hle | ⟨rfl, u, v, a', b', rfl, rfl, -⟩
  · exact hle
  · rcases h with h | h | h
    · cases h
    · exact absurd (List.mem_append_right u List.mem_cons_self) h
    · exact absurd (List.mem_append_right v List.mem_cons_self) h

/-- Where the first letters cross, it is with the first occurrences. -/
theorem dist_cons_cross (hu : y ∉ u) (hv : x ∉ v) :
    dist true (x :: (u ++ y :: a)) (y :: (v ++ x :: b)) =
      min (uncrossed true x y (u ++ y :: a) (v ++ x :: b))
        (dist true a b + (u.length + v.length + 1)) := by
  refine le_antisymm (le_min (dist_le_uncrossed _ _ _ _ _) ?_) ?_
  · exact dist_le_iff.mpr (.cross x y u v rfl (align_dist true a b))
  · rcases uncrossed_le_or (align_dist true (x :: (u ++ y :: a)) (y :: (v ++ x :: b))) with
      hle | ⟨-, u', v', a', b', ha, hb, hle⟩
    · exact (min_le_left _ _).trans hle
    · refine (min_le_right _ _).trans (le_trans ?_ hle)
      obtain ⟨k, hk, h⟩ := (align_dist true a' b').of_first ha hu
      obtain ⟨k', hk', h'⟩ := h.symm.of_first hb hv
      have hfirst := dist_le_iff.mpr h'.symm
      omega

/-- The least cost of an entry when its letters do not cross. -/
noncomputable def prefixUncrossed (s : Bool) (a b : List α) (i j : Nat) (cost : Nat) : Nat :=
  min (prefixDist s a b i (j + 1) + 1)
    (min (prefixDist s a b (i + 1) j + 1) (prefixDist s a b i j + cost))

theorem uncrossed_prefix (s : Bool) (hi : i < a.length) (hj : j < b.length) :
    uncrossed s a[i] b[j] (a.take i).reverse (b.take j).reverse =
      prefixUncrossed s a b i j (if a[i] = b[j] then 0 else 1) := by
  rw [uncrossed, ← reverse_take_succ hi, ← reverse_take_succ hj]
  rfl

theorem prefixDist_succ (hi : i < a.length) (hj : j < b.length)
    (h : s = false ∨ IsLast a b[j] i 0 ∨ IsLast b a[i] j 0) : prefixDist s a b (i + 1) (j + 1) =
      prefixUncrossed s a b i j (if a[i] = b[j] then 0 else 1) := by
  have hfree : s = false ∨ b[j] ∉ (a.take i).reverse ∨ a[i] ∉ (b.take j).reverse :=
    h.imp_right (Or.imp IsLast.not_mem IsLast.not_mem)
  rw [← uncrossed_prefix s hi hj, ← dist_cons hfree, ← reverse_take_succ hi,
    ← reverse_take_succ hj, prefixDist]

theorem prefixDist_cross (hi : i < a.length) (hj : j < b.length) (h : IsLast a b[j] i (k + 1))
    (h' : IsLast b a[i] j (l + 1)) : prefixDist true a b (i + 1) (j + 1) =
      min (prefixUncrossed true a b i j (if a[i] = b[j] then 0 else 1))
        (prefixDist true a b k l + (i - (k + 1) + (j - (l + 1)) + 1)) := by
  obtain ⟨u, hu, hmem, hlen⟩ := h.split (Nat.le_of_lt hi)
  obtain ⟨v, hv, hmem', hlen'⟩ := h'.split (Nat.le_of_lt hj)
  have hcross := dist_cons_cross (a := (a.take k).reverse) (b := (b.take l).reverse) hmem hmem'
  rwa [← hu, ← hv, uncrossed_prefix true hi hj, ← reverse_take_succ hi, ← reverse_take_succ hj,
    hlen, hlen'] at hcross

/-! ## The recursion as a function -/

/-- The distance without exchanges. -/
def levenshtein : List α → List α → Nat
  | [], b => b.length
  | x :: a, [] => a.length + 1
  | x :: a, y :: b => min (levenshtein a (y :: b) + 1)
      (min (levenshtein (x :: a) b + 1) (levenshtein a b + if x = y then 0 else 1))
termination_by a b => a.length + b.length

theorem levenshtein_eq_dist (a b : List α) : levenshtein a b = dist false a b := by
  fun_induction levenshtein a b with
  | case1 b => exact (dist_nil_left false b).symm
  | case2 x a => exact (dist_nil_right false (x :: a)).symm
  | case3 x a y b ih₁ ih₂ ih₃ => rw [ih₁, ih₂, ih₃, dist_cons (.inl rfl), uncrossed]

end EditDistance
