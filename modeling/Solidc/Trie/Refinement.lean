import Solidc.Trie.Node
import Mathlib.Data.Finset.Card
import Mathlib.Data.Fintype.List
import Mathlib.Data.Multiset.Filter
import Mathlib.Data.Finset.Dedup

/-! # The trie counts words

A run of insertions and deletions is compared with a multiset of words.

* `Node.Wf` — the shape of every node of the tree;
* `mark_insertFrom`, `insertFrom_eq_none`, `deleteFrom_spec` — the loops in terms of what is
  stored at each path;
* `Refines` — the run returns and the answers are those of the multiset;
* `refines_iff` — this is so exactly when no prefix is followed by more than 128 different
  bytes: the position of the next child is an `int8_t`.
-/

namespace Solidc.Trie

open CLib

/-- Every node of the tree keeps its arrays sorted and within their capacity. -/
inductive Node.Wf : Node → Prop
  | mk {entries : List (Byte × Node)} {nalloc : Nat} {isEndOfWord : Bool} {frequency : Nat} :
    SortedKeys entries → entries.length ≤ nalloc → entries.length ≤ 128 →
    (∀ e ∈ entries, e.2.Wf) → Node.Wf (.mk entries nalloc isEndOfWord frequency)

/-- What is stored at a path: `is_end_of_word` and `frequency`. -/
def mark (n : Node) (w : List Byte) : Bool × Nat :=
  ((walk n w).map fun m => (m.isEndOfWord, m.frequency)).getD (false, 0)

/-- `n'` is `n` with `child` under the byte `c`. -/
structure Replaces (n : Node) (c : Byte) (child n' : Node) : Prop where
  wf : n'.Wf
  here : mark n' [] = mark n []
  child : ∀ d, assoc n'.entries d = if d = c then some child else assoc n.entries d

variable {n n' m child : Node} {c d : Byte} {w v p : List Byte} {isNew : Bool}

/-! ## The shape of a node -/

theorem Node.Wf.sorted (h : n.Wf) : SortedKeys n.entries := by
  cases h with
  | mk hs _ _ _ => exact hs

theorem Node.Wf.length_le (h : n.Wf) : n.entries.length ≤ 128 := by
  cases h with
  | mk _ _ hl _ => exact hl

theorem Node.Wf.of_assoc (h : n.Wf) (hc : assoc n.entries c = some m) : m.Wf := by
  cases h with
  | mk hs _ _ hw => exact hw _ (hs.assoc_iff.mp hc)

theorem Node.wf_create : Node.create.Wf :=
  .mk .nil (Nat.le_refl 0) (Nat.zero_le _) nofun

/-- `child_index` is right on sorted arrays. -/
theorem childIndex_spec (h : n.Wf) :
    (childIndex n c = none ∧ assoc n.entries c = none) ∨
      ∃ i m, childIndex n c = some i ∧ n.entries[i]? = some (c, m) ∧
        assoc n.entries c = some m :=
  h.sorted.bsearch_spec

/-! ## Paths -/

theorem walk_cons (h : n.Wf) :
    walk n (c :: w) = (assoc n.entries c).bind fun m => walk m w := by
  rcases childIndex_spec (c := c) h with ⟨hi, ha⟩ | ⟨i, m, hi, he, ha⟩
  · simp [walk, hi, ha]
  · simp [walk, hi, he, ha]

theorem walk_wf (h : n.Wf) (hw : walk n w = some m) : m.Wf := by
  induction w generalizing n with
  | nil => cases hw; exact h
  | cons c w ih =>
    rw [walk_cons h] at hw
    obtain ⟨child, hc, hw⟩ := Option.bind_eq_some_iff.mp hw
    exact ih (h.of_assoc hc) hw

theorem walk_append (h : n.Wf) : walk n (p ++ w) = (walk n p).bind fun m => walk m w := by
  induction p generalizing n with
  | nil => rfl
  | cons c p ih =>
    rw [List.cons_append, walk_cons h, walk_cons h]
    cases hc : assoc n.entries c with
    | none => rfl
    | some m => exact ih (h.of_assoc hc)

theorem walk_create_cons : walk .create (c :: w) = none := by
  rw [walk_cons Node.wf_create]
  rfl

theorem mark_create : mark .create w = (false, 0) := by
  cases w with
  | nil => rfl
  | cons c w => simp [mark, walk_create_cons]

theorem mark_cons_some (h : n.Wf) (hc : assoc n.entries c = some m) :
    mark n (c :: w) = mark m w := by
  simp [mark, walk_cons h, hc]

theorem mark_cons_none (h : n.Wf) (hc : assoc n.entries c = none) :
    mark n (c :: w) = (false, 0) := by
  simp [mark, walk_cons h, hc]

theorem Replaces.walk_cons (h : Replaces n c child n') (hn : n.Wf) :
    walk n' (d :: v) = if d = c then walk child v else walk n (d :: v) := by
  rw [Trie.walk_cons h.wf, Trie.walk_cons hn, h.child]
  split_ifs
  · rfl
  · rfl

/-- A change below one byte, seen from above. -/
theorem Replaces.mark_eq (h : Replaces n c child n') (hn : n.Wf) {x : Bool × Nat}
    (hchild : ∀ v, mark child v = if v = w then x else mark n (c :: v)) (v : List Byte) :
    mark n' v = if v = c :: w then x else mark n v := by
  cases v with
  | nil => simpa using h.here
  | cons d v =>
    have hd : mark n' (d :: v) = if d = c then mark child v else mark n (d :: v) := by
      simp only [mark, h.walk_cons hn]
      split_ifs
      · rfl
      · rfl
    rw [hd]
    by_cases hdc : d = c
    · subst hdc
      simp [hchild v]
    · simp [hdc]

/-- A change below one byte that cannot be seen from above. -/
theorem Replaces.mark_same (h : Replaces n c child n') (hn : n.Wf)
    (hchild : ∀ v, mark child v = mark n (c :: v)) (v : List Byte) : mark n' v = mark n v := by
  rw [h.mark_eq (w := []) (x := mark n [c]) hn]
  · split_ifs with hv
    · rw [hv]
    · rfl
  · intro v
    split_ifs with hv
    · rw [hv, hchild]
    · exact hchild v

/-! ## Changing a child -/

theorem replaces_setChild (hn : n.Wf) {i : Nat} (hi : n.entries[i]? = some (c, m))
    (hchild : child.Wf) : Replaces n c child (setChild n i c child) := by
  cases hn with
  | mk hs hcap hlen hw =>
    refine ⟨.mk (hs.set hi child) ?_ ?_ ?_, rfl, fun d => hs.assoc_set hi child⟩
    · simpa using hcap
    · simpa using hlen
    · intro e he
      rcases List.mem_or_eq_of_mem_set he with he | rfl
      · exact hw e he
      · exact hchild

theorem toInt8_neg {x : Nat} (hx : x ≤ 128) : toInt8 x < 0 ↔ x = 128 := by
  unfold toInt8
  omega

/-- Doubling makes room below 128 children. -/
theorem lt_growAlloc {x : Nat} (hx : x < 128) : x < growAlloc x := by
  unfold growAlloc
  split_ifs <;> omega

theorem replaces_linkChild (hn : n.Wf) (hc : assoc n.entries c = none) (hchild : child.Wf)
    (h : linkChild n c child = some n') : Replaces n c child n' := by
  cases hn with
  | @mk entries nalloc isEnd freq hs hcap hlen hw =>
    unfold linkChild at h
    split at h
    · cases h
    · next hpos =>
      cases h
      have hlt : entries.length < 128 :=
        Nat.lt_of_le_of_ne hlen fun heq => hpos ((toInt8_neg hlen).mpr heq)
      have hlen' := length_shiftInsert (v := child) hs hc
      refine ⟨.mk (shiftInsert_spec hs hc).1 ?_ ?_ ?_, rfl, fun d => assoc_shiftInsert hs hc⟩
      · show (shiftInsert c child entries).length
          ≤ if entries.length = nalloc then growAlloc nalloc else nalloc
        split_ifs with hfull
        · have := lt_growAlloc hlt
          rw [hfull] at this
          omega
        · omega
      · simp only [Node.entries_mk]
        omega
      · intro e he
        rcases (mem_shiftInsert hs hc).mp he with rfl | he
        · exact hchild
        · exact hw e he

/-! ## The loops -/

theorem walk_markWord (hn : n.Wf) : walk (markWord n).1 (d :: v) = walk n (d :: v) := by
  have hn' : (markWord n).1.Wf := by
    cases hn with
    | mk hs hcap hlen hw => exact .mk hs hcap hlen hw
  rw [walk_cons hn, walk_cons hn']
  rfl

/-- One step of the loop of `trie_insert`: it goes on in the child under `c`, or in a new node,
and the result becomes the child. -/
theorem insertFrom_cons (hn : n.Wf) (h : insertFrom n (c :: w) = some (n', isNew))
    (ih : ∀ {m m' : Node}, m.Wf → insertFrom m w = some (m', isNew) → m'.Wf) :
    ∃ m m', m.Wf ∧ insertFrom m w = some (m', isNew) ∧ Replaces n c m' n' ∧
      (∀ v, mark n (c :: v) = mark m v) ∧
      ∀ v, v ≠ [] → walk n (c :: v) = walk m v := by
  rcases childIndex_spec (c := c) hn with ⟨hi, ha⟩ | ⟨i, m, hi, he, ha⟩
  · simp only [insertFrom, hi] at h
    split at h
    · cases h
    · next child isNew' hchild =>
      obtain ⟨n'', hlink, heq⟩ := Option.map_eq_some_iff.mp h
      cases heq
      refine ⟨.create, child, Node.wf_create, hchild,
        replaces_linkChild hn ha (ih Node.wf_create hchild) hlink, fun v => ?_, fun v hv => ?_⟩
      · rw [mark_cons_none hn ha, mark_create]
      · cases v with
        | nil => exact absurd rfl hv
        | cons d v => rw [walk_create_cons, walk_cons hn, ha, Option.bind_none]
  · simp only [insertFrom, hi, he] at h
    obtain ⟨⟨m', isNew'⟩, hm', heq⟩ := Option.map_eq_some_iff.mp h
    cases heq
    have hm := hn.of_assoc ha
    refine ⟨m, m', hm, hm', replaces_setChild hn he (ih hm hm'), fun v => ?_, fun v hv => ?_⟩
    · exact mark_cons_some hn ha
    · rw [walk_cons hn, ha, Option.bind_some]

theorem insertFrom_wf (hn : n.Wf) (h : insertFrom n w = some (n', isNew)) : n'.Wf := by
  induction w generalizing n n' with
  | nil =>
    cases h
    cases hn with
    | mk hs hcap hlen hw => exact .mk hs hcap hlen hw
  | cons c w ih =>
    obtain ⟨_, _, -, -, hrep, -⟩ := insertFrom_cons hn h ih
    exact hrep.wf

/-- `trie_insert` changes the node of its word only. -/
theorem mark_insertFrom (hn : n.Wf) (h : insertFrom n w = some (n', isNew)) :
    isNew = !(mark n w).1 ∧
      ∀ v, mark n' v = if v = w then (true, ((mark n w).2 + 1) % 2 ^ 32) else mark n v := by
  induction w generalizing n n' with
  | nil =>
    cases h
    refine ⟨rfl, fun v => ?_⟩
    cases v with
    | nil => rfl
    | cons d v =>
      rw [if_neg (List.cons_ne_nil d v)]
      exact congrArg (fun o => Option.getD (Option.map _ o) (false, 0)) (walk_markWord hn)
  | cons c w ih =>
    obtain ⟨m, m', hm, hins, hrep, hmark, -⟩ := insertFrom_cons hn h insertFrom_wf
    obtain ⟨hnew, hat⟩ := ih hm hins
    rw [hmark w]
    refine ⟨hnew, hrep.mark_eq hn fun v => ?_⟩
    rw [hat v, hmark v]

/-- The nodes after `trie_insert` are those before and those on the path of its word. -/
theorem walk_insertFrom (hn : n.Wf) (h : insertFrom n w = some (n', isNew)) (v : List Byte) :
    (walk n' v).isSome ↔ (walk n v).isSome ∨ v <+: w := by
  induction w generalizing n n' v with
  | nil =>
    cases h
    cases v with
    | nil => simp [walk]
    | cons d v =>
      have := walk_markWord (d := d) (v := v) hn
      simp only [markWord] at this
      rw [this]
      simp
  | cons c w ih =>
    obtain ⟨m, m', hm, hins, hrep, -, hwalk⟩ := insertFrom_cons hn h insertFrom_wf
    cases v with
    | nil => simp [walk]
    | cons d v =>
      rw [hrep.walk_cons hn, List.cons_prefix_cons]
      by_cases hdc : d = c
      · subst hdc
        cases v with
        | nil =>
          have := (ih hm hins []).mpr (.inr List.nil_prefix)
          simp [this]
        | cons e v =>
          rw [if_pos rfl, ih hm hins, hwalk _ (List.cons_ne_nil e v)]
          simp
      · simp [hdc]

/-- The only way to fail: a node with 128 children that needs one more. -/
theorem insertFrom_eq_none (hn : n.Wf) (h : insertFrom n w = none) :
    ∃ p c m, p ++ [c] <+: w ∧ walk n p = some m ∧ assoc m.entries c = none ∧
      m.entries.length = 128 := by
  induction w generalizing n with
  | nil => cases h
  | cons c w ih =>
    rcases childIndex_spec (c := c) hn with ⟨hi, ha⟩ | ⟨i, m, hi, he, ha⟩
    · simp only [insertFrom, hi] at h
      split at h
      · next hnone =>
        -- a new node has no children
        obtain ⟨p, d, m, -, hwalk, -, hlen⟩ := ih Node.wf_create hnone
        cases p with
        | nil =>
          cases hwalk
          cases hlen
        | cons e p =>
          rw [walk_create_cons] at hwalk
          cases hwalk
      · next child isNew hchild =>
        have hneg : toInt8 n.entries.length < 0 := by
          by_contra hpos
          simp [linkChild, hpos] at h
        exact ⟨[], c, n, by simp, rfl, ha, (toInt8_neg hn.length_le).mp hneg⟩
    · simp only [insertFrom, hi, he, Option.map_eq_none_iff] at h
      obtain ⟨p, d, m', hpre, hwalk, hnone, hlen⟩ := ih (hn.of_assoc ha) h
      refine ⟨c :: p, d, m', ?_, ?_, hnone, hlen⟩
      · rw [List.cons_append]
        exact List.cons_prefix_cons.mpr ⟨rfl, hpre⟩
      · rw [walk_cons hn, ha]
        exact hwalk

/-- `trie_delete` clears the node of its word, if the word is there. -/
theorem deleteFrom_spec (hn : n.Wf) :
    (deleteFrom n w = none ∧ (mark n w).1 = false) ∨
      ∃ n', deleteFrom n w = some n' ∧ (mark n w).1 = true ∧ n'.Wf ∧
        (∀ v, mark n' v = if v = w then (false, 0) else mark n v) ∧
        ∀ v, (walk n' v).isSome = (walk n v).isSome := by
  induction w generalizing n with
  | nil =>
    cases hn with
    | @mk entries nalloc isEnd freq hs hcap hlen hw =>
      cases isEnd with
      | false => exact .inl ⟨rfl, rfl⟩
      | true =>
        have hn : (Node.mk entries nalloc true freq).Wf := .mk hs hcap hlen hw
        have hn' : (Node.mk entries nalloc false 0).Wf := .mk hs hcap hlen hw
        refine .inr ⟨_, rfl, rfl, hn', fun v => ?_, fun v => ?_⟩
        · cases v with
          | nil => rfl
          | cons d v => simp [mark, walk_cons hn, walk_cons hn']
        · cases v with
          | nil => rfl
          | cons d v => simp [walk_cons hn, walk_cons hn']
  | cons c w ih =>
    rcases childIndex_spec (c := c) hn with ⟨hi, ha⟩ | ⟨i, m, hi, he, ha⟩
    · left
      simp [deleteFrom, hi, mark_cons_none hn ha]
    · simp only [deleteFrom, hi, he, mark_cons_some hn ha]
      rcases ih (hn.of_assoc ha) with ⟨hnone, hmark⟩ | ⟨m', hsome, hmark, hm', hat, hwalk⟩
      · -- the word is not marked below: nothing is changed
        exact .inl ⟨by rw [hnone]; rfl, hmark⟩
      · have hrep := replaces_setChild hn he hm'
        refine .inr ⟨_, by rw [hsome]; rfl, hmark, hrep.wf, hrep.mark_eq hn fun v => ?_,
          fun v => ?_⟩
        · rw [hat v, mark_cons_some hn ha]
        · cases v with
          | nil => rfl
          | cons d v =>
            rw [hrep.walk_cons hn]
            split_ifs with hdc
            · rw [hdc, walk_cons hn, ha, hwalk v]
              rfl
            · rfl

/-! ## Runs -/

/-- A non-empty string without its terminator. -/
abbrev Word : Type := { w : List Byte // w ≠ [] ∧ 0 ∉ w }

inductive Op where
  | insert (word : Word)
  | delete (word : Word)

/-- The calls change a trie. -/
def perform (t : TrieT) : Op → Option TrieT
  | .insert word => (trieInsert t word).map (·.1)
  | .delete word => some (trieDelete t word).1

def run (ops : List Op) : Option TrieT := ops.foldlM perform trieCreate

/-- The calls change a multiset of words. -/
def Op.apply (s : Multiset Word) : Op → Multiset Word
  | .insert word => word ::ₘ s
  | .delete word => s.filter (· ≠ word)

/-- The multiset counter after a run. -/
def counter (ops : List Op) : Multiset Word := ops.foldl Op.apply 0

/-- The run stays within the arrays, and the trie answers as the multiset does. -/
def Refines (ops : List Op) : Prop :=
  ∃ t, run ops = some t ∧
    (∀ w : Word, trieSearch t w = true ↔ w ∈ counter ops) ∧
    (∀ w : Word, trieGetFrequency t w = (counter ops).count w % 2 ^ 32) ∧
    t.wordCount = (counter ops).toFinset.card ∧ t.root.Wf

/-- The words that were inserted, deleted since or not. -/
def inserted : List Op → List Word
  | [] => []
  | .insert word :: ops => word :: inserted ops
  | .delete _ :: ops => inserted ops

/-- The bytes that follow a path in some word. -/
def followers (words : List Word) (p : List Byte) : Finset Byte :=
  Finset.univ.filter fun c => ∃ w ∈ words, p ++ [c] <+: w.1

/-- No path is followed by more than 128 different bytes among the inserted words. -/
def Narrow (ops : List Op) : Prop := ∀ p, (followers (inserted ops) p).card ≤ 128

/-- What a trie keeps of a run. -/
structure Counts (t : TrieT) (words : List Word) (s : Multiset Word) : Prop where
  wf : t.root.Wf
  mark : ∀ w : Word, mark t.root w = (decide (w ∈ s), s.count w % 2 ^ 32)
  size : t.wordCount = s.toFinset.card
  paths : ∀ v, (walk t.root v).isSome ↔ v = [] ∨ ∃ w ∈ words, v <+: w.1

variable {t t' : TrieT} {words : List Word} {s : Multiset Word} {ops : List Op}

theorem counts_create : Counts trieCreate [] 0 where
  wf := Node.wf_create
  mark w := mark_create
  size := rfl
  paths v := by
    cases v with
    | nil => simp [walk, trieCreate]
    | cons c v => simp [trieCreate, walk_create_cons]

theorem trieInsert_word (t : TrieT) (w : Word) :
    trieInsert t w = (insertFrom t.root w.1).map fun r =>
      (⟨r.1, if r.2 then t.wordCount + 1 else t.wordCount⟩, true) := by
  obtain ⟨_ | ⟨c, w⟩, hne, h0⟩ := w
  · exact absurd rfl hne
  · rfl

theorem trieDelete_word (t : TrieT) (w : Word) :
    trieDelete t w = match deleteFrom t.root w.1 with
      | none => (t, false)
      | some root => (⟨root, t.wordCount - 1⟩, true) := by
  obtain ⟨_ | ⟨c, w⟩, hne, h0⟩ := w
  · exact absurd rfl hne
  · rfl

theorem trieSearch_word (t : TrieT) (w : Word) : trieSearch t w = (mark t.root w.1).1 := by
  obtain ⟨_ | ⟨c, w⟩, hne, h0⟩ := w
  · exact absurd rfl hne
  · unfold trieSearch mark
    cases walk t.root (c :: w) with
    | none => rfl
    | some m => rfl

theorem trieGetFrequency_word (t : TrieT) (w : Word) :
    trieGetFrequency t w = if (mark t.root w.1).1 then (mark t.root w.1).2 else 0 := by
  obtain ⟨_ | ⟨c, w⟩, hne, h0⟩ := w
  · exact absurd rfl hne
  · unfold trieGetFrequency mark
    cases walk t.root (c :: w) with
    | none => rfl
    | some m => rfl

theorem Counts.insert (h : Counts t words s) {w : Word} (hi : perform t (.insert w) = some t') :
    Counts t' (words ++ [w]) (w ::ₘ s) := by
  simp only [perform, trieInsert_word, Option.map_map, Option.map_eq_some_iff] at hi
  obtain ⟨⟨root, isNew⟩, hins, rfl⟩ := hi
  obtain ⟨hnew, hmark⟩ := mark_insertFrom h.wf hins
  rw [h.mark w] at hnew hmark
  refine ⟨insertFrom_wf h.wf hins, fun u => ?_, ?_, fun v => ?_⟩
  · simp only [Function.comp_apply, hmark]
    split_ifs with hu
    · obtain rfl := Subtype.ext hu
      simp
    · have hne : u ≠ w := fun heq => hu (congrArg Subtype.val heq)
      simp [h.mark, Multiset.count_cons_of_ne hne, hne]
  · simp only [Function.comp_apply, hnew, h.size, Multiset.toFinset_cons]
    by_cases hw : w ∈ s
    · simp [hw, Finset.insert_eq_of_mem]
    · simp [hw]
  · simp only [Function.comp_apply, walk_insertFrom h.wf hins, h.paths, List.mem_append,
      List.mem_singleton]
    constructor
    · rintro ((rfl | ⟨u, hu, hv⟩) | hv)
      · exact .inl rfl
      · exact .inr ⟨u, .inl hu, hv⟩
      · exact .inr ⟨w, .inr rfl, hv⟩
    · rintro (rfl | ⟨u, hu | rfl, hv⟩)
      · exact .inl (.inl rfl)
      · exact .inl (.inr ⟨u, hu, hv⟩)
      · exact .inr hv

theorem Counts.delete (h : Counts t words s) (w : Word) :
    Counts (trieDelete t w).1 words (s.filter (· ≠ w)) := by
  rw [trieDelete_word]
  rcases deleteFrom_spec (w := w.1) h.wf with ⟨hd, hm⟩ | ⟨root, hd, hm, hwf, hmark, hwalk⟩
  · rw [hd]
    rw [h.mark] at hm
    have hw : w ∉ s := by simpa using hm
    have hs : s.filter (· ≠ w) = s := Multiset.filter_eq_self.mpr fun u hu heq => hw (heq ▸ hu)
    rwa [hs]
  · rw [hd]
    rw [h.mark] at hm
    have hw : w ∈ s := by simpa using hm
    refine ⟨hwf, fun u => ?_, ?_, fun v => ?_⟩
    · rw [hmark]
      split_ifs with hu
      · obtain rfl := Subtype.ext hu
        simp
      · have hne : u ≠ w := fun heq => hu (congrArg Subtype.val heq)
        simp [h.mark, hne]
    · have hfin : (s.filter (· ≠ w)).toFinset = s.toFinset.erase w := by
        ext u
        simp [and_comm]
      rw [hfin, Finset.card_erase_of_mem (Multiset.mem_toFinset.mpr hw), ← h.size]
    · rw [hwalk, h.paths]

/-- The number of children of a node. -/
theorem Counts.fanout (h : Counts t words s) (hp : walk t.root p = some m) :
    m.entries.length = (followers words p).card := by
  have hm := walk_wf h.wf hp
  have hnodup : (m.entries.map (·.1)).Nodup :=
    (List.pairwise_map.mpr hm.sorted).imp fun hlt => ne_of_lt hlt
  have hkeys : (m.entries.map (·.1)).toFinset = followers words p := by
    ext c
    have hwalk : walk t.root (p ++ [c]) = assoc m.entries c := by
      rw [walk_append h.wf, hp, Option.bind_some, walk_cons hm]
      cases assoc m.entries c with
      | none => rfl
      | some child => rfl
    have hpath : (assoc m.entries c).isSome ↔ ∃ w ∈ words, p ++ [c] <+: w.1 := by
      rw [← hwalk, h.paths]
      simp
    rw [Option.isSome_iff_ne_none, Ne, assoc_eq_none] at hpath
    simp only [List.mem_toFinset, List.mem_map, followers, Finset.mem_filter, Finset.mem_univ,
      true_and, ← hpath]
    simp
  rw [← hkeys, List.toFinset_card_of_nodup hnodup, List.length_map]

theorem followers_mono {words' : List Word} (h : words ⊆ words') (p : List Byte) :
    followers words p ⊆ followers words' p := by
  intro c hc
  obtain ⟨w, hw, hpre⟩ := (Finset.mem_filter.mp hc).2
  exact Finset.mem_filter.mpr ⟨Finset.mem_univ c, w, h hw, hpre⟩

/-- Within the bound, an insertion finds room. -/
theorem Counts.insert_ne_none (h : Counts t words s) {w : Word}
    (hnarrow : ∀ p, (followers (words ++ [w]) p).card ≤ 128) :
    perform t (.insert w) ≠ none := by
  intro hnone
  simp only [perform, trieInsert_word, Option.map_eq_none_iff] at hnone
  obtain ⟨p, c, m, hpre, hwalk, hc, hlen⟩ := insertFrom_eq_none h.wf hnone
  rw [h.fanout hwalk] at hlen
  -- `c` follows `p` in `w` and in no word before
  have hold : c ∉ followers words p := by
    intro hmem
    have hpath := (h.paths (p ++ [c])).mpr (.inr (Finset.mem_filter.mp hmem).2)
    rw [walk_append h.wf, hwalk, Option.bind_some, walk_cons (walk_wf h.wf hwalk), hc] at hpath
    cases hpath
  have hnew : c ∈ followers (words ++ [w]) p :=
    Finset.mem_filter.mpr ⟨Finset.mem_univ c, w, by simp, hpre⟩
  have hlt : (followers words p).card < (followers (words ++ [w]) p).card := by
    refine Finset.card_lt_card ⟨followers_mono (List.subset_append_left _ _) p, fun hsub => ?_⟩
    exact hold (hsub hnew)
  have := hnarrow p
  omega

theorem run_append (op : Op) : run (ops ++ [op]) = (run ops).bind fun t => perform t op := by
  unfold run
  rw [List.foldlM_append]
  cases List.foldlM perform trieCreate ops with
  | none => rfl
  | some t => simp [List.foldlM]

theorem inserted_append (ops ops' : List Op) :
    inserted (ops ++ ops') = inserted ops ++ inserted ops' := by
  induction ops with
  | nil => rfl
  | cons op ops ih =>
    cases op with
    | insert w => simp [inserted, ih]
    | delete w => simp [inserted, ih]

theorem counter_append (op : Op) : counter (ops ++ [op]) = op.apply (counter ops) := by
  simp [counter]

/-- Every run that returns keeps the invariant. -/
theorem counts_run (h : run ops = some t) : Counts t (inserted ops) (counter ops) := by
  induction ops using List.reverseRecOn generalizing t with
  | nil =>
    cases h
    exact counts_create
  | append_singleton ops op ih =>
    rw [run_append] at h
    obtain ⟨t₀, hrun, hop⟩ := Option.bind_eq_some_iff.mp h
    rw [inserted_append, counter_append]
    cases op with
    | insert w => exact (ih hrun).insert hop
    | delete w =>
      cases hop
      rw [inserted, inserted, List.append_nil]
      exact (ih hrun).delete w

theorem Narrow.of_append {op : Op} (h : Narrow (ops ++ [op])) : Narrow ops := by
  intro p
  refine (Finset.card_le_card (followers_mono ?_ p)).trans (h p)
  rw [inserted_append]
  exact List.subset_append_left _ _

/-- Every run within the bound returns. -/
theorem Narrow.run_ne_none (h : Narrow ops) : run ops ≠ none := by
  induction ops using List.reverseRecOn with
  | nil =>
    intro hnone
    cases hnone
  | append_singleton ops op ih =>
    obtain ⟨t, hrun⟩ := Option.ne_none_iff_exists'.mp (ih h.of_append)
    rw [run_append, hrun, Option.bind_some]
    cases op with
    | insert w =>
      refine (counts_run hrun).insert_ne_none fun p => ?_
      simpa [Narrow, inserted_append, inserted] using h p
    | delete w =>
      intro hnone
      cases hnone

/-- A run that stays within the arrays is within the bound. -/
theorem narrow_of_run (hrun : run ops = some t) : Narrow ops := by
  intro p
  have hcounts := counts_run hrun
  cases hp : walk t.root p with
  | some m =>
    rw [← hcounts.fanout hp]
    exact (walk_wf hcounts.wf hp).length_le
  | none =>
    -- a path that is not there has no followers
    have hempty : followers (inserted ops) p = ∅ := by
      refine Finset.eq_empty_of_forall_notMem fun c hc => ?_
      have hpath := (hcounts.paths (p ++ [c])).mpr (.inr (Finset.mem_filter.mp hc).2)
      rw [walk_append hcounts.wf, hp] at hpath
      cases hpath
    rw [hempty]
    exact Nat.zero_le _

/-- The trie refines the multiset counter exactly on the runs in which no path is followed by
more than 128 different bytes. -/
theorem refines_iff (ops : List Op) : Refines ops ↔ Narrow ops := by
  constructor
  · rintro ⟨t, hrun, -⟩
    exact narrow_of_run hrun
  · intro hnarrow
    obtain ⟨t, hrun⟩ := Option.ne_none_iff_exists'.mp hnarrow.run_ne_none
    have hcounts := counts_run hrun
    refine ⟨t, hrun, fun w => ?_, fun w => ?_, hcounts.size, hcounts.wf⟩
    · rw [trieSearch_word, hcounts.mark]
      simp
    · rw [trieGetFrequency_word, hcounts.mark]
      by_cases hw : w ∈ counter ops
      · simp [hw]
      · simp [hw]

/-- The one-byte word `i + 1`. -/
def byteWord (i : Fin 129) : Word :=
  ⟨[⟨i + 1, by omega⟩], List.cons_ne_nil _ _, fun h => by
    have := congrArg Fin.val (List.mem_singleton.mp h)
    exact absurd this.symm (Nat.succ_ne_zero i)⟩

theorem inserted_map_insert (words : List Word) : inserted (words.map .insert) = words := by
  induction words with
  | nil => rfl
  | cons w words ih => rw [List.map_cons, inserted, ih]

/-- Inserting the one-byte words 1, 2, ..., 129 writes in front of the root's arrays. -/
theorem wide_not_refines : ¬ Refines (((List.finRange 129).map byteWord).map .insert) := by
  rintro ⟨t, hrun, -⟩
  have hnarrow := narrow_of_run hrun []
  rw [inserted_map_insert] at hnarrow
  have hwide : (Finset.univ.image fun i : Fin 129 => (⟨i + 1, by omega⟩ : Byte)) ⊆
      followers ((List.finRange 129).map byteWord) [] := by
    intro c hc
    obtain ⟨i, -, rfl⟩ := Finset.mem_image.mp hc
    exact Finset.mem_filter.mpr ⟨Finset.mem_univ _, byteWord i,
      List.mem_map_of_mem (List.mem_finRange i), List.prefix_rfl⟩
  have hcard := Finset.card_le_card hwide
  rw [Finset.card_image_of_injective _ fun i j hij => Fin.ext (by simpa [Fin.ext_iff] using hij),
    Finset.card_univ, Fintype.card_fin] at hcard
  omega

end Solidc.Trie
