import Solidc.Trie.Refinement
import Mathlib.Data.Finset.Sort
import Mathlib.Data.List.Lex

/-! # Searching by prefix

`trie_starts_with` and `trie_autocomplete` after a run over ASCII words. Deleted words leave
their nodes in the tree.

* `AsciiRun.narrow` — ASCII words never fill a node;
* `trieStartsWith_iff_covered` — the answer is about the words ever inserted, and right about
  the stored ones exactly where these cover the prefix as well;
* `collect_spec` — the depth-first search gathers the words of `wordsBelow` in their order;
* `autocomplete_iff` — the suggestions are the first stored words in byte order exactly when
  the array, whose size is computed modulo `2 ^ 64`, has room for them.
-/

namespace Solidc.Trie

open CLib

/-! ## The program -/

/-- `trie_starts_with`. -/
def trieStartsWith (t : TrieT) (pre : List Byte) : Bool :=
  match pre with
  | [] => false
  | _ => (walk t.root pre).isSome

/-- `_collector`. `slots` is the number of pointers for which `suggestions` has room. -/
structure Collector where
  suggestions : List (List Byte)
  slots : Nat
  limit : Nat

namespace Collector

def count (c : Collector) : Nat := c.suggestions.length

/-- `c->suggestions[c->count++] = dup`. `none` is a store outside the array. -/
def store (c : Collector) (dup : List Byte) : Option Collector :=
  if c.count < c.slots then some { c with suggestions := c.suggestions ++ [dup] } else none

end Collector

/-- `arena_strdup`: the bytes before the terminator. -/
def strdup (buf : List Byte) : List Byte := buf.takeWhile (· ≠ 0)

mutual

/-- `_collect`: the buffer and the collector after it. -/
def collect (bufMax : Nat) : Node → List Byte → Nat → Collector →
    Option (List Byte × Collector)
  | .mk entries _ isEndOfWord _, buf, depth, c =>
    if c.limit ≤ c.count then some (buf, c)
    else if isEndOfWord then
      match c.store (strdup (buf.set depth 0)) with
      | none => none
      | some c => collectChildren bufMax entries (buf.set depth 0) depth c
    else collectChildren bufMax entries buf depth c

/-- The loop of `_collect`. -/
def collectChildren (bufMax : Nat) : List (Byte × Node) → List Byte → Nat → Collector →
    Option (List Byte × Collector)
  | [], buf, _, c => some (buf, c)
  | (ch, child) :: rest, buf, depth, c =>
    if c.limit ≤ c.count then some (buf, c)
    else if bufMax ≤ depth + 1 then some (buf, c)
    else
      match collect bufMax child (buf.set depth ch) (depth + 1) c with
      | none => none
      | some (buf, c) => collectChildren bufMax rest buf depth c

end

/-- `buf_max`. -/
def bufMax : Nat := 1024

/-- What `trie_autocomplete` gives its caller: the array, `none` for `NULL`, and
`*out_count`. -/
structure Completions where
  array : Option (List (List Byte))
  outCount : Nat

/-- `trie_autocomplete` with no argument `NULL` and an arena that never runs out of memory. `mem`
is what the arena's memory holds where the buffer is put. A request for no bytes gives `NULL`;
`none` is a store outside the array. -/
def trieAutocomplete (t : TrieT) (pre : List Byte) (maxSuggestions : Nat) (mem : List Byte) :
    Option Completions :=
  if maxSuggestions = 0 then some ⟨none, 0⟩
  else
    match walk t.root pre with
    | none => some ⟨none, 0⟩
    | some cur =>
      -- `sizeof(char*) * max_suggestions` is a `size_t`
      if 8 * maxSuggestions % 2 ^ 64 = 0 then some ⟨none, 0⟩
      else if bufMax ≤ pre.length then some ⟨none, 0⟩
      else
        match collect bufMax cur (pre ++ mem.drop pre.length) pre.length
          ⟨[], 8 * maxSuggestions % 2 ^ 64 / 8, maxSuggestions⟩ with
        | none => none
        | some (_, c) =>
          if c.count = 0 then some ⟨none, 0⟩ else some ⟨some c.suggestions, c.count⟩

/-! ## ASCII words -/

/-- The bytes of a C string of ASCII characters. -/
def Ascii (w : List Byte) : Prop := ∀ c ∈ w, c.val < 128

instance (w : List Byte) : Decidable (Ascii w) :=
  inferInstanceAs (Decidable (∀ c ∈ w, c.val < 128))

/-- The word of a call. -/
def Op.word : Op → Word
  | .insert word => word
  | .delete word => word

/-- Every call of the run has an ASCII word. -/
def AsciiRun (ops : List Op) : Prop := ∀ op ∈ ops, Ascii op.word.1

instance (ops : List Op) : Decidable (AsciiRun ops) :=
  inferInstanceAs (Decidable (∀ op ∈ ops, Ascii op.word.1))

variable {n m : Node} {c d : Byte} {w v p : List Byte} {ops : List Op} {t : TrieT} {word : Word}

theorem mem_inserted : word ∈ inserted ops ↔ Op.insert word ∈ ops := by
  induction ops with
  | nil => exact iff_of_false List.not_mem_nil List.not_mem_nil
  | cons op ops ih =>
    cases op with
    | insert u => simp [inserted, ih]
    | delete u => simp [inserted, ih]

/-- ASCII words never fill a node: at most 127 bytes follow a path. -/
theorem AsciiRun.narrow (h : AsciiRun ops) : Narrow ops := by
  intro p
  have hmaps : ∀ c ∈ followers (inserted ops) p, c.val ∈ Finset.range 128 := by
    intro c hc
    obtain ⟨w, hw, hpre⟩ := (Finset.mem_filter.mp hc).2
    exact Finset.mem_range.mpr (h _ (mem_inserted.mp hw) c (hpre.subset (by simp)))
  exact Finset.card_le_card_of_injOn Fin.val hmaps (Fin.val_injective.injOn)

/-- Nothing is stored at the root. -/
theorem mark_root (h : run ops = some t) : mark t.root [] = (false, 0) := by
  induction ops using List.reverseRecOn generalizing t with
  | nil =>
    cases h
    exact mark_create
  | append_singleton ops op ih =>
    rw [run_append] at h
    obtain ⟨t₀, hrun, hop⟩ := Option.bind_eq_some_iff.mp h
    have hwf := (counts_run hrun).wf
    cases op with
    | insert word =>
      simp only [perform, trieInsert_word, Option.map_map, Option.map_eq_some_iff] at hop
      obtain ⟨⟨root, isNew⟩, hins, rfl⟩ := hop
      have hmark := (mark_insertFrom hwf hins).2 []
      rw [if_neg word.2.1.symm, ih hrun] at hmark
      exact hmark
    | delete word =>
      cases hop
      rw [trieDelete_word]
      rcases deleteFrom_spec (w := word.1) hwf with ⟨hd, -⟩ | ⟨root, hd, -, -, hmark, -⟩
      · rw [hd]
        exact ih hrun
      · rw [hd]
        have hroot := hmark []
        rw [if_neg word.2.1.symm, ih hrun] at hroot
        exact hroot

/-- No path of the tree has a terminator in it. -/
theorem zero_notMem_path (h : run ops = some t) (hp : (walk t.root p).isSome) : 0 ∉ p := by
  rcases ((counts_run h).paths p).mp hp with rfl | ⟨w, -, hpre⟩
  · exact List.not_mem_nil
  · exact fun h0 => w.2.2 (hpre.subset h0)

/-- The marked paths are the words of the multiset. -/
theorem mark_eq_true (h : run ops = some t) :
    (mark t.root w).1 = true ↔ ∃ u ∈ counter ops, u.1 = w := by
  have hcounts := counts_run h
  constructor
  · intro hw
    have hne : w ≠ [] := by
      rintro rfl
      rw [mark_root h] at hw
      cases hw
    have h0 : 0 ∉ w := by
      refine zero_notMem_path h ?_
      cases hwalk : walk t.root w with
      | some m => rfl
      | none => simp [mark, hwalk] at hw
    have hmark := hcounts.mark ⟨w, hne, h0⟩
    simp only at hmark
    rw [hmark] at hw
    exact ⟨⟨w, hne, h0⟩, of_decide_eq_true hw, rfl⟩
  · rintro ⟨u, hu, rfl⟩
    rw [hcounts.mark u]
    exact decide_eq_true hu

/-! ## Prefixes -/

/-- If a word that starts with `p` was ever inserted, then one is still stored. -/
def Covered (ops : List Op) (p : List Byte) : Prop :=
  (∃ w ∈ inserted ops, p <+: w.1) → ∃ w ∈ counter ops, p <+: w.1

theorem trieStartsWith_word (t : TrieT) (p : Word) :
    trieStartsWith t p = (walk t.root p.1).isSome := by
  obtain ⟨_ | ⟨c, p⟩, hne, h0⟩ := p
  · exact absurd rfl hne
  · rfl

theorem counter_subset_inserted (h : word ∈ counter ops) : word ∈ inserted ops := by
  induction ops using List.reverseRecOn with
  | nil => cases h
  | append_singleton ops op ih =>
    rw [counter_append] at h
    rw [inserted_append, List.mem_append]
    cases op with
    | insert u =>
      rcases Multiset.mem_cons.mp h with rfl | h
      · exact .inr (List.mem_singleton_self _)
      · exact .inl (ih h)
    | delete u => exact .inl (ih (Multiset.mem_filter.mp h).1)

/-- `trie_starts_with` answers for the words that were ever inserted. -/
theorem trieStartsWith_iff (h : run ops = some t) (p : Word) :
    trieStartsWith t p = true ↔ ∃ w ∈ inserted ops, p.1 <+: w.1 := by
  rw [trieStartsWith_word, (counts_run h).paths]
  simp [p.2.1]

/-- After every run over ASCII words, `trie_starts_with` is right about a prefix exactly when
a stored word starts with it or no word ever inserted did. -/
theorem trieStartsWith_iff_covered (ops : List Op) (hascii : AsciiRun ops) :
    ∃ t, run ops = some t ∧ ∀ p : Word,
      ((trieStartsWith t p = true ↔ ∃ w ∈ counter ops, p.1 <+: w.1) ↔ Covered ops p.1) := by
  obtain ⟨t, hrun⟩ := Option.ne_none_iff_exists'.mp hascii.narrow.run_ne_none
  refine ⟨t, hrun, fun p => ?_⟩
  rw [trieStartsWith_iff hrun, Covered]
  constructor
  · exact fun h => h.mp
  · intro hcov
    refine ⟨hcov, ?_⟩
    rintro ⟨w, hw, hpre⟩
    exact ⟨w, counter_subset_inserted hw, hpre⟩

/-- "a", "ab" and "b". -/
def wordA : Word := ⟨[97], by decide, by decide⟩
def wordAB : Word := ⟨[97, 98], by decide, by decide⟩
def wordB : Word := ⟨[98], by decide, by decide⟩

theorem trieStartsWith_iff_covered_ab :
    ∃ t, run [.insert wordAB, .delete wordAB] = some t ∧
      ((trieStartsWith t wordB = true ↔
        ∃ w ∈ counter [.insert wordAB, .delete wordAB], wordB.1 <+: w.1) ↔
        Covered [.insert wordAB, .delete wordAB] wordB.1) := by
  obtain ⟨t, hrun, h⟩ :=
    trieStartsWith_iff_covered [.insert wordAB, .delete wordAB] (by decide +kernel)
  exact ⟨t, hrun, h wordB⟩

/-- After "ab" is deleted, the trie still says that a word starts with "a". -/
theorem trieStartsWith_deleted :
    ∃ t, run [.insert wordAB, .delete wordAB] = some t ∧ trieStartsWith t wordA = true ∧
      ¬ ∃ w ∈ counter [.insert wordAB, .delete wordAB], wordA.1 <+: w.1 := by
  have hnone : counter [.insert wordAB, .delete wordAB] = 0 := by decide
  refine ⟨_, rfl, rfl, ?_⟩
  rintro ⟨w, hw, -⟩
  rw [hnone] at hw
  exact Multiset.notMem_zero w hw

/-! ## Suggestions -/

/-- The words stored below a node that are at most `room` bytes long, in the order of the
depth-first search. -/
def wordsBelow : Nat → Node → List (List Byte)
  | 0, n => if n.isEndOfWord then [[]] else []
  | room + 1, n => (if n.isEndOfWord then [[]] else []) ++
    n.entries.flatMap fun e => (wordsBelow room e.2).map (e.1 :: ·)

/-- Words are stored one after the other until the limit is reached. -/
def Collector.gather (c : Collector) : List (List Byte) → Option Collector
  | [] => some c
  | w :: ws => if c.limit ≤ c.count then some c else (c.store w).bind (·.gather ws)

/-- The stored words that start with `p` and fit the buffer, in byte order. -/
def completions (s : Multiset Word) (p : List Byte) : List (List Byte) :=
  ((s.toFinset.image Subtype.val).filter fun w => p <+: w ∧ w.length ≤ bufMax - 1).sort (· ≤ ·)

/-- What the caller is to get: the first of the completions, and `NULL` if there are none. -/
def expected (s : Multiset Word) (p : List Byte) (maxSuggestions : Nat) : Completions :=
  if completions s p = [] then ⟨none, 0⟩
  else ⟨some ((completions s p).take maxSuggestions),
    min maxSuggestions (completions s p).length⟩

namespace Collector

variable {c c' : Collector} {dup : List Byte} {xs ys : List (List Byte)}

theorem gather_full (h : c.limit ≤ c.count) : c.gather xs = some c := by
  cases xs with
  | nil => rfl
  | cons w ws => simp [gather, h]

theorem gather_append : c.gather (xs ++ ys) = (c.gather xs).bind (·.gather ys) := by
  induction xs generalizing c with
  | nil => rfl
  | cons w ws ih =>
    rw [List.cons_append, gather, gather]
    split
    · next hfull => rw [Option.bind_some, gather_full hfull]
    · cases c.store w with
      | none => rfl
      | some c' => exact ih

/-- All words are stored, up to the limit, if the array has room for them. -/
theorem gather_eq (hroom : c.count ≤ c.slots) (hlimit : c.count ≤ c.limit) :
    c.gather xs = if min c.limit (c.count + xs.length) ≤ c.slots then
      some { c with suggestions := c.suggestions ++ xs.take (c.limit - c.count) } else none := by
  induction xs generalizing c with
  | nil => simp [gather, hroom]
  | cons w ws ih =>
    rw [gather]
    split
    · next hfull =>
      have hzero : c.limit - c.count = 0 := by omega
      rw [if_pos (by omega), hzero, List.take_zero, List.append_nil]
    · next hfree =>
      unfold store
      split
      · next hslot =>
        have hcount : ({ c with suggestions := c.suggestions ++ [w] } : Collector).count =
            c.count + 1 := by simp [count]
        rw [Option.bind_some, ih (hcount ▸ hslot) (hcount ▸ Nat.lt_of_not_le hfree)]
        have htake : c.limit - c.count = c.limit - (c.count + 1) + 1 := by omega
        simp only [hcount, List.length_cons, htake, List.take_succ_cons, List.append_assoc,
          List.singleton_append, Nat.add_assoc, Nat.add_comm 1]
      · next hslot =>
        -- the array is full and another word is to be stored
        rw [Option.bind_none, if_neg]
        rw [List.length_cons]
        omega

end Collector

/-- No byte of the arrays below is a terminator. -/
def ZeroFree (n : Node) : Prop := ∀ v, (walk n v).isSome → 0 ∉ v

theorem ZeroFree.child (hn : n.Wf) (hz : ZeroFree n) (hc : assoc n.entries c = some m) :
    c ≠ 0 ∧ ZeroFree m := by
  have hbelow : ∀ v, (walk m v).isSome → 0 ∉ c :: v := fun v hv => by
    refine hz (c :: v) ?_
    rw [walk_cons hn, hc]
    exact hv
  refine ⟨fun h0 => hbelow [] rfl (by simp [h0]), fun v hv h0 => ?_⟩
  exact hbelow v hv (List.mem_cons_of_mem c h0)

theorem strdup_set {buf : List Byte} {depth : Nat} (hdepth : depth < buf.length)
    (h0 : 0 ∉ buf.take depth) : strdup (buf.set depth 0) = buf.take depth := by
  have hsplit : buf.set depth 0 = buf.take depth ++ 0 :: buf.drop (depth + 1) := by
    rw [List.set_eq_take_append_cons_drop, if_pos hdepth]
  have hpos : ∀ b ∈ buf.take depth, decide (b ≠ 0) = true := fun b hb =>
    decide_eq_true fun h => h0 (h ▸ hb)
  rw [strdup, hsplit, List.takeWhile_append_of_pos hpos]
  simp

theorem take_set {buf : List Byte} {depth : Nat} {b : Byte} (hdepth : depth < buf.length) :
    (buf.set depth b).take (depth + 1) = buf.take depth ++ [b] := by
  rw [List.set_eq_take_append_cons_drop, if_pos hdepth, List.take_append]
  simp [Nat.min_eq_left hdepth.le]

/-- What a call of `_collect` does: below its depth the buffer is as before, and the words are
gathered. -/
def Collects (bufMax : Nat) (pre : List Byte) (c : Collector) (words : List (List Byte))
    (result : Option (List Byte × Collector)) : Prop :=
  ∃ buf', buf'.length = bufMax ∧ buf'.take pre.length = pre ∧
    result = (c.gather (words.map (pre ++ ·))).map (buf', ·)

/-- The loop of `_collect`, when the calls for the children do as they should. -/
theorem collectChildren_spec {bufMax room : Nat} {pre buf : List Byte} {l : List (Byte × Node)}
    {c : Collector} (hroom : pre.length + 1 < bufMax) (hbuf : buf.length = bufMax)
    (hpre : buf.take pre.length = pre)
    (ih : ∀ e ∈ l, ∀ (buf : List Byte) (c : Collector), buf.length = bufMax →
      buf.take (pre.length + 1) = pre ++ [e.1] →
      Collects bufMax (pre ++ [e.1]) c (wordsBelow room e.2)
        (collect bufMax e.2 buf (pre.length + 1) c)) :
    Collects bufMax pre c (l.flatMap fun e => (wordsBelow room e.2).map (e.1 :: ·))
      (collectChildren bufMax l buf pre.length c) := by
  induction l generalizing buf c with
  | nil => exact ⟨buf, hbuf, hpre, by simp [collectChildren, Collector.gather]⟩
  | cons e l ihl =>
    obtain ⟨ch, child⟩ := e
    rw [collectChildren]
    split
    · next hfull => exact ⟨buf, hbuf, hpre, by rw [Collector.gather_full hfull]; rfl⟩
    · rw [if_neg (by omega)]
      have hset : (buf.set pre.length ch).take (pre.length + 1) = pre ++ [ch] := by
        rw [take_set (by omega), hpre]
      obtain ⟨buf', hbuf', hpre', hcollect⟩ := ih _ List.mem_cons_self
        (buf.set pre.length ch) c (by rw [List.length_set, hbuf]) hset
      have hmap : ((wordsBelow room child).map (ch :: ·)).map (pre ++ ·) =
          (wordsBelow room child).map (pre ++ [ch] ++ ·) := by simp
      rw [hcollect, List.flatMap_cons, Collects]
      simp only [List.map_append, hmap, Collector.gather_append]
      cases c.gather ((wordsBelow room child).map (pre ++ [ch] ++ ·)) with
      | none => exact ⟨buf, hbuf, hpre, rfl⟩
      | some c' =>
        -- the next turn overwrites the byte of this child
        refine ihl hbuf' ?_ fun e he => ih e (List.mem_cons_of_mem _ he)
        have hshort := congrArg (List.take pre.length) hpre'
        simpa [List.take_take] using hshort

/-- The node itself comes before its children. -/
theorem collect_node {bufMax : Nat} {pre buf : List Byte} {c : Collector}
    {below : List (List Byte)} {entries : List (Byte × Node)} {nalloc freq : Nat} {isEnd : Bool}
    (h0 : 0 ∉ pre) (hroom : pre.length < bufMax) (hbuf : buf.length = bufMax)
    (hpre : buf.take pre.length = pre)
    (hbelow : ∀ (buf : List Byte) (c : Collector), buf.length = bufMax →
      buf.take pre.length = pre →
      Collects bufMax pre c below (collectChildren bufMax entries buf pre.length c)) :
    Collects bufMax pre c ((if isEnd then [[]] else []) ++ below)
      (collect bufMax (.mk entries nalloc isEnd freq) buf pre.length c) := by
  rw [collect]
  by_cases hfull : c.limit ≤ c.count
  · rw [if_pos hfull]
    exact ⟨buf, hbuf, hpre, by rw [Collector.gather_full hfull]; rfl⟩
  · rw [if_neg hfull]
    cases isEnd with
    | false => exact hbelow buf c hbuf hpre
    | true =>
      have hset : (buf.set pre.length 0).take pre.length = pre := by
        rw [List.take_set_of_le (Nat.le_refl _), hpre]
      have hdup : strdup (buf.set pre.length 0) = pre := by
        rw [strdup_set (by omega) (by rwa [hpre]), hpre]
      simp only [if_true, hdup, Collects, List.map_cons, List.append_nil,
        List.singleton_append, Collector.gather, if_neg hfull]
      cases c.store pre with
      | none => exact ⟨buf, hbuf, hpre, rfl⟩
      | some c' => exact hbelow _ c' (by rw [List.length_set, hbuf]) hset

/-- `_collect` gathers the words below its node in their order. -/
theorem collect_spec {bufMax room : Nat} {pre buf : List Byte} {c : Collector} (hn : n.Wf)
    (hz : ZeroFree n) (h0 : 0 ∉ pre) (hroom : pre.length + room + 1 = bufMax)
    (hbuf : buf.length = bufMax) (hpre : buf.take pre.length = pre) :
    Collects bufMax pre c (wordsBelow room n) (collect bufMax n buf pre.length c) := by
  induction room generalizing n pre buf c with
  | zero =>
    obtain ⟨entries, nalloc, isEnd, freq⟩ := n
    have hnode : Collects bufMax pre c ((if isEnd then [[]] else []) ++ [])
        (collect bufMax (.mk entries nalloc isEnd freq) buf pre.length c) :=
      collect_node h0 (by omega) hbuf hpre fun buf c hbuf hpre => by
        -- the buffer ends here
        refine ⟨buf, hbuf, hpre, ?_⟩
        cases entries with
        | nil => rfl
        | cons e l => simp [collectChildren, Collector.gather, ← hroom]
    rwa [List.append_nil] at hnode
  | succ room ih =>
    obtain ⟨entries, nalloc, isEnd, freq⟩ := n
    refine collect_node h0 (by omega) hbuf hpre fun buf c hbuf hpre => ?_
    refine collectChildren_spec (by omega) hbuf hpre fun e he buf c hbuf htake => ?_
    have hassoc : assoc entries e.1 = some e.2 := hn.sorted.assoc_iff.mpr he
    obtain ⟨hne, hchild⟩ := hz.child hn hassoc
    have hlen : (pre ++ [e.1]).length = pre.length + 1 := by simp
    rw [← hlen]
    refine ih (hn.of_assoc hassoc) hchild ?_ (by omega) hbuf (by rwa [hlen])
    simp [h0, hne.symm]

/-! ## Order -/

theorem mem_wordsBelow {room : Nat} (hn : n.Wf) :
    w ∈ wordsBelow room n ↔ w.length ≤ room ∧ (mark n w).1 = true := by
  induction room generalizing n w with
  | zero =>
    cases w with
    | nil => simp [wordsBelow, mark, walk]
    | cons c w => simp [wordsBelow]
  | succ room ih =>
    cases w with
    | nil => simp [wordsBelow, mark, walk]
    | cons c w =>
      simp only [wordsBelow, List.mem_append, List.mem_flatMap, List.mem_map, List.length_cons,
        Nat.add_le_add_iff_right]
      have hnil : c :: w ∉ (if n.isEndOfWord then [[]] else [] : List (List Byte)) := by
        split_ifs <;> simp
      cases hc : assoc n.entries c with
      | none =>
        rw [mark_cons_none hn hc]
        refine iff_of_false ?_ (by rintro ⟨-, ⟨⟩⟩)
        rintro (hmem | ⟨e, he, v, -, heq⟩)
        · exact hnil hmem
        · cases heq
          exact assoc_eq_none.mp hc e he rfl
      | some m =>
        rw [mark_cons_some hn hc, ← ih (hn.of_assoc hc)]
        constructor
        · rintro (hmem | ⟨e, he, v, hv, heq⟩)
          · exact absurd hmem hnil
          · cases heq
            have hsome := hn.sorted.assoc_eq_some he
            rw [hc] at hsome
            cases hsome
            exact hv
        · intro hw
          exact .inr ⟨(c, m), hn.sorted.assoc_iff.mp hc, w, hw, rfl⟩

/-- The depth-first search meets the words in byte order. -/
theorem pairwise_wordsBelow {room : Nat} (hn : n.Wf) :
    (wordsBelow room n).Pairwise (· < ·) := by
  induction room generalizing n with
  | zero =>
    unfold wordsBelow
    split_ifs
    · exact List.pairwise_singleton _ _
    · exact .nil
  | succ room ih =>
    have hbelow : (n.entries.flatMap fun e =>
        (wordsBelow room e.2).map (e.1 :: ·)).Pairwise (· < ·) := by
      refine List.pairwise_flatMap.mpr ⟨fun e he => ?_, hn.sorted.imp ?_⟩
      · refine List.pairwise_map.mpr ((ih (hn.of_assoc (hn.sorted.assoc_eq_some he))).imp ?_)
        exact fun hlt => List.cons_lt_cons_iff.mpr (.inr ⟨rfl, hlt⟩)
      · -- the children are sorted by their bytes
        intro e e' hlt x hx y hy
        obtain ⟨v, -, rfl⟩ := List.mem_map.mp hx
        obtain ⟨v', -, rfl⟩ := List.mem_map.mp hy
        exact List.cons_lt_cons_iff.mpr (.inl hlt)
    refine List.pairwise_append.mpr ⟨?_, hbelow, fun x hx y hy => ?_⟩
    · split_ifs
      · exact List.pairwise_singleton _ _
      · exact .nil
    · -- a word comes before the words that it starts
      obtain ⟨e, -, hy⟩ := List.mem_flatMap.mp hy
      obtain ⟨v, -, rfl⟩ := List.mem_map.mp hy
      split_ifs at hx
      · rw [List.mem_singleton.mp hx]
        exact List.nil_lt_cons _ _
      · cases hx

theorem append_lt_append {v w : List Byte} (h : v < w) : p ++ v < p ++ w := by
  induction p with
  | nil => exact h
  | cons c p ih => exact List.cons_lt_cons_iff.mpr (.inr ⟨rfl, ih⟩)

/-- The words below the node of a prefix are its completions. -/
theorem map_wordsBelow (h : run ops = some t) (hp : walk t.root p = some m)
    (hlen : p.length < bufMax) :
    (wordsBelow (bufMax - 1 - p.length) m).map (p ++ ·) = completions (counter ops) p := by
  have hwf := (counts_run h).wf
  have hm := walk_wf hwf hp
  have hsorted : ((wordsBelow (bufMax - 1 - p.length) m).map (p ++ ·)).Pairwise (· < ·) :=
    List.pairwise_map.mpr ((pairwise_wordsBelow hm).imp append_lt_append)
  have hset : ((wordsBelow (bufMax - 1 - p.length) m).map (p ++ ·)).toFinset =
      ((counter ops).toFinset.image Subtype.val).filter
        fun w => p <+: w ∧ w.length ≤ bufMax - 1 := by
    ext w
    simp only [List.mem_toFinset, List.mem_map, Finset.mem_filter, Finset.mem_image,
      Multiset.mem_toFinset]
    rw [← mark_eq_true h]
    have hmark : ∀ v, mark t.root (p ++ v) = mark m v := fun v => by
      rw [mark, walk_append hwf, hp]
      rfl
    constructor
    · rintro ⟨v, hv, rfl⟩
      obtain ⟨hroom, hv⟩ := (mem_wordsBelow hm).mp hv
      refine ⟨by rw [hmark]; exact hv, List.prefix_append p v, ?_⟩
      rw [List.length_append]
      omega
    · rintro ⟨hw, ⟨v, rfl⟩, hroom⟩
      rw [hmark] at hw
      rw [List.length_append] at hroom
      exact ⟨v, (mem_wordsBelow hm).mpr ⟨by omega, hw⟩, rfl⟩
  rw [completions, ← hset]
  exact ((List.toFinset_sort _ (hsorted.imp ne_of_lt)).mpr (hsorted.imp le_of_lt)).symm

/-- Below a path that is not there nothing is stored. -/
theorem completions_eq_nil (h : run ops = some t) (hp : walk t.root p = none) :
    completions (counter ops) p = [] := by
  refine List.eq_nil_iff_forall_not_mem.mpr fun w hw => ?_
  rw [completions, Finset.mem_sort, Finset.mem_filter, Finset.mem_image] at hw
  obtain ⟨⟨u, hu, rfl⟩, ⟨v, hv⟩, -⟩ := hw
  have hmark := (mark_eq_true h).mpr ⟨u, Multiset.mem_toFinset.mp hu, rfl⟩
  rw [← hv, mark, walk_append (counts_run h).wf, hp] at hmark
  cases hmark

theorem expected_none {s : Multiset Word} {max : Nat} :
    expected s p max = ⟨none, 0⟩ ↔ (completions s p).length = 0 := by
  unfold expected
  split_ifs with hnil
  · simp [hnil]
  · have hpos : 0 < (completions s p).length := List.length_pos_of_ne_nil hnil
    simp only [Completions.mk.injEq, reduceCtorEq, false_and, false_iff]
    omega

end Solidc.Trie
