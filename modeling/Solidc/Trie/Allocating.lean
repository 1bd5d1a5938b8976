import Solidc.Trie.Searching

/-! # Insertions that run out of memory

The trie with its allocations: a node has an identity that stands for its address, and its two
arrays are pointers that can be `NULL`, in use, or left behind by a `realloc` whose result was
freed. `none` stands for an access to freed memory or outside an array.

* `child_find_or_create` and the loop of `trie_insert` — `insertLoop`;
* `Cell.toNode` — the trie of the functional model, to which the calls are held by
  `insertLoop_spec`, `find_toNode` and `deleteLoop_toNode`;
* `nodeDestroy_isSome` — a tree is destroyed without fault exactly if no pointer dangles and no
  node is in it twice;
* `failure_harmless_iff` — which failing allocations leave the trie as it was.
-/

namespace Solidc.Trie.Memory

open CLib Solidc.Trie

/-! ## The program -/

/-- A pointer to an array. -/
inductive Pointer where
  | null | live | freed
deriving DecidableEq

/-- A `trie_node` without its children. -/
@[ext]
structure Header where
  id : Nat
  chars : Pointer
  children : Pointer
  nalloc : Nat
  isEndOfWord : Bool
  frequency : Nat

/-- `trie_node`: the entries are what the first `nchildren` places of both arrays hold. -/
inductive Cell where
  | mk (head : Header) (entries : List (Byte × Cell))

namespace Cell

def head : Cell → Header
  | mk head _ => head

def entries : Cell → List (Byte × Cell)
  | mk _ entries => entries

@[simp] theorem head_mk {h : Header} {l : List (Byte × Cell)} : (mk h l).head = h := rfl

@[simp] theorem entries_mk {h : Header} {l : List (Byte × Cell)} : (mk h l).entries = l := rfl

/-- `node_create`. -/
def create (id : Nat) : Cell := mk ⟨id, .null, .null, 0, false, 0⟩ []

end Cell

/-- The allocator during one operation: how many calls succeed before the one that fails, if
one is to fail, and the identity of the next node. -/
structure Allocator where
  failing : Option Nat
  nextId : Nat

/-- The next call of the allocator, and whether it succeeds. -/
def Allocator.call (a : Allocator) : Bool × Allocator :=
  match a.failing with
  | none => (true, a)
  | some 0 => (false, { a with failing := none })
  | some (k + 1) => (true, { a with failing := some k })

/-- The node's pointer after `realloc` has moved the array and the result was freed. -/
def Pointer.afterFree : Pointer → Pointer
  | null => null
  | _ => freed

/-- The growth of the arrays in `child_find_or_create`, if they are full. -/
def makeRoom (n : Cell) (a : Allocator) : Option (Cell × Bool × Allocator) :=
  if n.entries.length = n.head.nalloc then
    if n.head.chars = .freed ∨ n.head.children = .freed then none
    else
      let nc := a.call
      let np := nc.2.call
      if nc.1 ∧ np.1 then
        some (.mk { n.head with
          chars := .live,
          children := .live,
          nalloc := growAlloc n.head.nalloc } n.entries, true, np.2)
      else
        some (.mk { n.head with
          chars := if nc.1 then n.head.chars.afterFree else n.head.chars,
          children := if np.1 then n.head.children.afterFree else n.head.children } n.entries,
          false, np.2)
  else some (n, true, a)

/-- The first `nchildren` entries when the greater ones have moved up: the free place still
holds the entry that moved out of it. -/
def shifted (c : Byte) (l : List (Byte × Cell)) : List (Byte × Cell) :=
  ((shiftRight c l.reverse []).1.reverse ++
    ((shiftRight c l.reverse []).2.take 1 ++ (shiftRight c l.reverse []).2)).take l.length

/-- `child_index`. -/
def Cell.childIndex (n : Cell) (c : Byte) : Option (Option Nat) :=
  if n.entries ≠ [] ∧ n.head.chars ≠ .live then none
  else some (bsearch n.entries c (n.entries.length + 1) 0 (n.entries.length - 1))

/-- `n->children[i]`. -/
def Cell.child (n : Cell) (i : Nat) : Option Cell :=
  if n.head.children = .live then n.entries[i]?.map (·.2) else none

/-- The child at index `i` has changed. -/
def Cell.setChild (n : Cell) (i : Nat) (c : Byte) (child : Cell) : Cell :=
  .mk n.head (n.entries.set i (c, child))

/-- The end of `trie_insert` at the node of the word. -/
def Cell.mark (n : Cell) : Cell :=
  .mk { n.head with isEndOfWord := true, frequency := (n.head.frequency + 1) % 2 ^ 32 } n.entries

/-- The loop of `trie_insert`: the tree after it and, unless an allocation failed, whether the
word is new. -/
def insertLoop (n : Cell) : List Byte → Allocator → Option (Cell × Option Bool × Allocator)
  | [], a => some (n.mark, some !n.head.isEndOfWord, a)
  | c :: w, a =>
    match n.childIndex c with
    | none => none
    | some (some i) =>
      match n.child i with
      | none => none
      | some m => (insertLoop m w a).map fun r => (n.setChild i c r.1, r.2)
    | some none =>
      match makeRoom n a with
      | none => none
      | some (n, false, a) => some (n, none, a)
      | some (n, true, a) =>
        if toInt8 n.entries.length < 0 ∨ n.head.nalloc ≤ n.entries.length then none
        else
          let create := a.call
          if create.1 then
            (insertLoop (.create create.2.nextId) w
              { create.2 with nextId := create.2.nextId + 1 }).map fun r =>
                (.mk n.head (shiftInsert c r.1 n.entries), r.2)
          -- the entries have moved, and `nchildren` is as before
          else some (.mk n.head (shifted c n.entries), none, create.2)

/-- The loop of the look-ups. -/
def find (n : Cell) : List Byte → Option (Option Cell)
  | [] => some (some n)
  | c :: w =>
    match n.childIndex c with
    | none => none
    | some none => some none
    | some (some i) =>
      match n.child i with
      | none => none
      | some m => find m w

/-- `trie_delete`: the change at the node of the word, if the word is there. -/
def deleteLoop (n : Cell) : List Byte → Option (Option Cell)
  | [] =>
    if n.head.isEndOfWord then
      some (some (.mk { n.head with isEndOfWord := false, frequency := 0 } n.entries))
    else some none
  | c :: w =>
    match n.childIndex c with
    | none => none
    | some none => some none
    | some (some i) =>
      match n.child i with
      | none => none
      | some m => (deleteLoop m w).map fun o => o.map (n.setChild i c)

mutual

/-- `node_destroy`: the identities of the nodes freed before and by it. -/
def nodeDestroy : Cell → List Nat → Option (List Nat)
  | .mk head entries, done =>
    if head.id ∈ done then none
    else if entries ≠ [] ∧ head.children ≠ .live then none
    else
      match destroyChildren entries done with
      | none => none
      | some done =>
        if head.id ∈ done ∨ head.chars = .freed ∨ head.children = .freed then none
        else some (head.id :: done)

/-- The loop of `node_destroy`. -/
def destroyChildren : List (Byte × Cell) → List Nat → Option (List Nat)
  | [], done => some done
  | (_, child) :: rest, done =>
    match nodeDestroy child done with
    | none => none
    | some done => destroyChildren rest done

end

/-- `trie_t`, and the identity of the next node. -/
structure MemTrie where
  root : Cell
  wordCount : Nat
  nextId : Nat

/-- What a call of `trie_insert` leaves: the trie, the result, and whether the call of the
allocator that was to fail was made. -/
structure Outcome where
  trie : MemTrie
  returned : Bool
  failed : Bool

def trieCreate : MemTrie := ⟨.create 0, 0, 1⟩

/-- `trie_insert`, with the number of its allocations that succeed before one fails. -/
def trieInsert (t : MemTrie) (word : List Byte) (failing : Option Nat) : Option Outcome :=
  match word with
  | [] => some ⟨t, false, false⟩
  | _ =>
    match insertLoop t.root word ⟨failing, t.nextId⟩ with
    | none => none
    | some (root, none, a) =>
      some ⟨⟨root, t.wordCount, a.nextId⟩, false, failing.isSome && a.failing.isNone⟩
    | some (root, some isNew, a) =>
      some ⟨⟨root, if isNew then t.wordCount + 1 else t.wordCount, a.nextId⟩, true,
        failing.isSome && a.failing.isNone⟩

/-- `trie_delete`. -/
def trieDelete (t : MemTrie) (word : List Byte) : Option (MemTrie × Bool) :=
  match word with
  | [] => some (t, false)
  | _ =>
    match deleteLoop t.root word with
    | none => none
    | some none => some (t, false)
    | some (some root) => some ({ t with root := root, wordCount := t.wordCount - 1 }, true)

/-- `trie_search`. -/
def trieSearch (t : MemTrie) (word : List Byte) : Option Bool :=
  match word with
  | [] => some false
  | _ => (find t.root word).map fun o => o.any (·.head.isEndOfWord)

/-- `trie_get_frequency`. -/
def trieGetFrequency (t : MemTrie) (word : List Byte) : Option Nat :=
  match word with
  | [] => some 0
  | _ => (find t.root word).map fun o =>
    match o with
    | none => 0
    | some n => if n.head.isEndOfWord then n.head.frequency else 0

/-- `trie_destroy`. -/
def trieDestroy (t : MemTrie) : Option (List Nat) := nodeDestroy t.root []

/-! ## Nodes and identities -/

mutual

/-- The node of the functional model. -/
def Cell.toNode : Cell → Node
  | .mk head entries => .mk (toNodes entries) head.nalloc head.isEndOfWord head.frequency

def toNodes : List (Byte × Cell) → List (Byte × Node)
  | [] => []
  | (c, child) :: rest => (c, child.toNode) :: toNodes rest

end

mutual

/-- The identities of a node and of the nodes below it. -/
def Cell.ids : Cell → List Nat
  | .mk head entries => head.id :: idsOf entries

def idsOf : List (Byte × Cell) → List Nat
  | [] => []
  | (_, child) :: rest => child.ids ++ idsOf rest

end

/-- Every node has sorted arrays for ASCII bytes, which are allocated once they have room. -/
inductive Cell.Good : Cell → Prop
  | mk {head : Header} {entries : List (Byte × Cell)} :
    SortedKeys entries → entries.length ≤ head.nalloc → (∀ e ∈ entries, e.1.val < 128) →
    head.chars = (if head.nalloc = 0 then .null else .live) →
    head.children = (if head.nalloc = 0 then .null else .live) →
    (∀ e ∈ entries, e.2.Good) → Cell.Good (.mk head entries)

/-- No pointer of the tree is left behind. -/
inductive Cell.Intact : Cell → Prop
  | mk {head : Header} {entries : List (Byte × Cell)} :
    head.chars ≠ .freed → head.children ≠ .freed → (entries ≠ [] → head.children = .live) →
    (∀ e ∈ entries, e.2.Intact) → Cell.Intact (.mk head entries)

variable {n n' m m' : Cell} {c : Byte} {w v : List Byte} {a a' : Allocator} {i : Nat}
  {l : List (Byte × Cell)}

theorem toNodes_eq (l : List (Byte × Cell)) : toNodes l = l.map fun e => (e.1, e.2.toNode) := by
  induction l with
  | nil => rfl
  | cons e l ih => rw [toNodes, ih, List.map_cons]

theorem toNode_entries : n.toNode.entries = n.entries.map fun e => (e.1, e.2.toNode) := by
  cases n with
  | mk head entries => exact toNodes_eq entries

theorem ids_eq : n.ids = n.head.id :: idsOf n.entries := by
  cases n with
  | mk head entries => rfl

@[simp] theorem idsOf_append {l l' : List (Byte × Cell)} :
    idsOf (l ++ l') = idsOf l ++ idsOf l' := by
  induction l with
  | nil => rfl
  | cons e l ih => simp [idsOf, ih]

@[simp] theorem idsOf_cons {e : Byte × Cell} : idsOf (e :: l) = e.2.ids ++ idsOf l := rfl

theorem head_mem_ids : n.head.id ∈ n.ids := by
  rw [ids_eq]
  exact List.mem_cons_self

/-! ## The shape of a node -/

theorem length_le_of_ascii {keys : List Byte} (hnodup : keys.Nodup)
    (hascii : ∀ d ∈ keys, d.val < 128) : keys.length ≤ 128 := by
  rw [← List.toFinset_card_of_nodup hnodup]
  exact Finset.card_le_card_of_injOn (t := Finset.range 128) Fin.val
    (fun d hd => Finset.mem_coe.mpr (Finset.mem_range.mpr (hascii d (List.mem_toFinset.mp hd))))
    Fin.val_injective.injOn

namespace Cell.Good

theorem sorted (h : n.Good) : SortedKeys n.entries := by
  cases h with
  | mk hs _ _ _ _ _ => exact hs

theorem length_le (h : n.Good) : n.entries.length ≤ n.head.nalloc := by
  cases h with
  | mk _ hl _ _ _ _ => exact hl

theorem ascii (h : n.Good) : ∀ e ∈ n.entries, e.1.val < 128 := by
  cases h with
  | mk _ _ ha _ _ _ => exact ha

theorem chars (h : n.Good) : n.head.chars = if n.head.nalloc = 0 then .null else .live := by
  cases h with
  | mk _ _ _ hp _ _ => exact hp

theorem children (h : n.Good) :
    n.head.children = if n.head.nalloc = 0 then .null else .live := by
  cases h with
  | mk _ _ _ _ hp _ => exact hp

theorem child_good (h : n.Good) : ∀ e ∈ n.entries, e.2.Good := by
  cases h with
  | mk _ _ _ _ _ hw => exact hw

theorem create (id : Nat) : (Cell.create id).Good :=
  .mk .nil (Nat.le_refl 0) nofun rfl rfl nofun

/-- A node with other values beside its arrays is as good. -/
theorem withHead (h : n.Good) {head : Header} (hc : head.chars = n.head.chars)
    (hp : head.children = n.head.children) (ha : head.nalloc = n.head.nalloc) :
    (Cell.mk head n.entries).Good :=
  .mk h.sorted (ha ▸ h.length_le) h.ascii (by rw [hc, ha]; exact h.chars)
    (by rw [hp, ha]; exact h.children) h.child_good

theorem keys_nodup (h : n.Good) : (n.entries.map (·.1)).Nodup :=
  (List.pairwise_map.mpr h.sorted).imp fun hlt => ne_of_lt hlt

theorem keys_ascii (h : n.Good) : ∀ d ∈ n.entries.map (·.1), d.val < 128 := by
  intro d hd
  obtain ⟨e, he, rfl⟩ := List.mem_map.mp hd
  exact h.ascii e he

/-- Different ASCII bytes leave room for one that is not among them. -/
theorem length_lt (h : n.Good) (hc : assoc n.entries c = none) (hascii : c.val < 128) :
    n.entries.length < 128 := by
  have hnew : c ∉ n.entries.map (·.1) := by
    rw [List.mem_map]
    rintro ⟨e, he, rfl⟩
    exact assoc_eq_none.mp hc e he rfl
  have hle := length_le_of_ascii (List.nodup_cons.mpr ⟨hnew, h.keys_nodup⟩)
    (List.forall_mem_cons.mpr ⟨hascii, h.keys_ascii⟩)
  rw [List.length_cons, List.length_map] at hle
  exact hle

theorem toNode_wf (h : n.Good) : n.toNode.Wf := by
  induction h with
  | @mk head entries hs hl ha hc hp hw ih =>
    have hgood : (Cell.mk head entries).Good := .mk hs hl ha hc hp hw
    have hle := length_le_of_ascii hgood.keys_nodup hgood.keys_ascii
    rw [Cell.toNode, toNodes_eq]
    refine .mk (hs.map Cell.toNode) (by rwa [List.length_map]) (by simpa using hle) ?_
    intro e he
    obtain ⟨e, he', rfl⟩ := List.mem_map.mp he
    exact ih e he'

theorem intact (h : n.Good) : n.Intact := by
  induction h with
  | @mk head entries hs hl ha hc hp hw ih =>
    refine .mk ?_ ?_ (fun hne => ?_) ih
    · rw [hc]
      split_ifs <;> nofun
    · rw [hp]
      split_ifs <;> nofun
    · have hpos := List.length_pos_of_ne_nil hne
      rw [hp, if_neg (by omega)]

/-- What `child_index` finds. -/
theorem index_cases (h : n.Good) (c : Byte) :
    (n.childIndex c = some none ∧ assoc n.entries c = none ∧
        Trie.childIndex n.toNode c = none) ∨
      ∃ i m, n.childIndex c = some (some i) ∧ n.entries[i]? = some (c, m) ∧ n.child i = some m ∧
        m.Good ∧ Trie.childIndex n.toNode c = some i ∧
        n.toNode.entries[i]? = some (c, m.toNode) := by
  have hnode : Trie.childIndex n.toNode c =
      bsearch n.entries c (n.entries.length + 1) 0 (n.entries.length - 1) := by
    rw [Trie.childIndex, toNode_entries, bsearch_map, List.length_map]
  have hlive : n.entries ≠ [] → n.head.chars = .live ∧ n.head.children = .live := fun hne => by
    have hpos := List.length_pos_of_ne_nil hne
    have hle := h.length_le
    rw [h.chars, h.children, if_neg (by omega)]
    exact ⟨rfl, rfl⟩
  have hindex : n.childIndex c =
      some (bsearch n.entries c (n.entries.length + 1) 0 (n.entries.length - 1)) := by
    rw [Cell.childIndex, if_neg]
    exact fun hbad => hbad.2 (hlive hbad.1).1
  rcases h.sorted.bsearch_spec with ⟨hb, ha⟩ | ⟨i, m, hb, hi, -⟩
  · left
    rw [hindex, hnode, hb]
    exact ⟨rfl, ha, rfl⟩
  · right
    have hmem := List.mem_of_getElem? hi
    refine ⟨i, m, by rw [hindex, hb], hi, ?_, h.child_good _ hmem, by rw [hnode, hb], ?_⟩
    · rw [Cell.child, if_pos (hlive (List.ne_nil_of_mem hmem)).2, hi]
      rfl
    · rw [toNode_entries, List.getElem?_map, hi]
      rfl

end Cell.Good

/-! ## Changing a child -/

theorem entries_split {e : Byte × Cell} (hi : l[i]? = some e) :
    ∃ l₁ l₂, l = l₁ ++ e :: l₂ ∧ ∀ x, l.set i x = l₁ ++ x :: l₂ := by
  obtain ⟨hlt, rfl⟩ := List.getElem?_eq_some_iff.mp hi
  refine ⟨l.take i, l.drop (i + 1), ?_, fun x => ?_⟩
  · rw [← List.drop_eq_getElem_cons hlt, List.take_append_drop]
  · rw [List.set_eq_take_append_cons_drop, if_pos hlt]

/-- Identities that are new in a child are new in the node. -/
theorem ids_setChild (hi : n.entries[i]? = some (c, m)) {fresh : List Nat}
    (hm : m'.ids.Perm (m.ids ++ fresh)) : (n.setChild i c m').ids.Perm (n.ids ++ fresh) := by
  obtain ⟨l₁, l₂, hl, hset⟩ := entries_split hi
  rw [ids_eq, ids_eq, Cell.setChild, Cell.entries_mk, Cell.head_mk, hset, hl]
  simp only [idsOf_append, idsOf_cons, List.cons_append, List.append_assoc]
  refine .cons _ (.append_left _ ?_)
  refine (hm.append_right _).trans ?_
  rw [List.append_assoc]
  exact .append_left _ List.perm_append_comm

theorem Cell.Good.setChild (h : n.Good) (hi : n.entries[i]? = some (c, m)) (hm : m'.Good) :
    (n.setChild i c m').Good := by
  have hmem := List.mem_of_getElem? hi
  refine .mk (h.sorted.set hi m') ?_ ?_ h.chars h.children ?_
  · rw [List.length_set]
    exact h.length_le
  · intro e he
    rcases List.mem_or_eq_of_mem_set he with he | rfl
    · exact h.ascii e he
    · exact h.ascii (c, m) hmem
  · intro e he
    rcases List.mem_or_eq_of_mem_set he with he | rfl
    · exact h.child_good e he
    · exact hm

theorem toNode_setChild (n : Cell) (i : Nat) (c : Byte) (m' : Cell) :
    (n.setChild i c m').toNode = Trie.setChild n.toNode i c m'.toNode := by
  cases n with
  | mk head entries =>
    rw [Cell.setChild, Cell.toNode, Cell.toNode, Trie.setChild, toNodes_eq, toNodes_eq]
    simp [List.map_set, Node.entries, Node.isEndOfWord, Node.frequency]

/-! ## Looking up and deleting -/

/-- The look-ups are those of the functional model. -/
theorem find_toNode (h : n.Good) :
    ∃ o, find n w = some o ∧ o.map Cell.toNode = walk n.toNode w := by
  induction w generalizing n with
  | nil => exact ⟨some n, rfl, rfl⟩
  | cons c w ih =>
    rcases h.index_cases c with ⟨hi, -, hnode⟩ | ⟨i, m, hi, -, hm, hgood, hnode, hnm⟩
    · exact ⟨none, by simp [find, hi], by simp [walk, hnode]⟩
    · obtain ⟨o, hfind, ho⟩ := ih hgood
      exact ⟨o, by simp [find, hi, hm, hfind], by simp [walk, hnode, hnm, ho]⟩

/-- `trie_delete` is that of the functional model, and keeps every node. -/
theorem deleteLoop_toNode (h : n.Good) :
    ∃ o, deleteLoop n w = some o ∧ o.map Cell.toNode = deleteFrom n.toNode w ∧
      ∀ n' ∈ o, n'.Good ∧ n'.ids.Perm n.ids := by
  induction w generalizing n with
  | nil =>
    obtain ⟨⟨id, chars, children, nalloc, isEnd, freq⟩, entries⟩ := n
    cases isEnd with
    | false => exact ⟨none, rfl, rfl, nofun⟩
    | true =>
      refine ⟨_, rfl, rfl, fun n' hn' => ?_⟩
      cases hn'
      exact ⟨h.withHead rfl rfl rfl, .refl _⟩
  | cons c w ih =>
    rcases h.index_cases c with ⟨hi, -, hnode⟩ | ⟨i, m, hi, he, hm, hgood, hnode, hnm⟩
    · exact ⟨none, by simp [deleteLoop, hi], by simp [deleteFrom, hnode], nofun⟩
    · obtain ⟨o, hdel, ho, hkeep⟩ := ih hgood
      refine ⟨o.map (n.setChild i c), by simp [deleteLoop, hi, hm, hdel], ?_, fun n' hn' => ?_⟩
      · simp only [deleteFrom, hnode, hnm, ← ho, Option.map_map]
        exact congrArg (fun f => Option.map f o) (funext fun m' => toNode_setChild n i c m')
      · obtain ⟨m', hm', rfl⟩ := Option.mem_map.mp hn'
        obtain ⟨hgood', hids⟩ := hkeep m' hm'
        refine ⟨h.setChild he hgood', ?_⟩
        have hfresh : m'.ids.Perm (m.ids ++ []) := by rwa [List.append_nil]
        simpa using ids_setChild he hfresh

/-! ## Harmless failures -/

/-- The call of the allocator that fails for a new child is not a `realloc` of arrays in use,
and not the `calloc` of the child when two entries or more have moved up. -/
structure HarmlessAt (n : Cell) (c : Byte) (failing : Option Nat) : Prop where
  realloc : n.entries.length = n.head.nalloc → failing = some 0 ∨ failing = some 1 →
    n.head.nalloc = 0
  create : failing = some (if n.entries.length = n.head.nalloc then 2 else 0) →
    (n.entries.filter (c < ·.1)).length ≤ 1

/-- The failing call is harmless at the node where the word leaves the tree. Below it there
are only new nodes. -/
def Harmless (n : Cell) : List Byte → Option Nat → Prop
  | [], _ => True
  | c :: w, failing =>
    match n.childIndex c with
    | some (some i) =>
      match n.child i with
      | none => True
      | some m => Harmless m w failing
    | _ => HarmlessAt n c failing

/-- Without a failure there is no harm. -/
theorem harmless_none : Harmless n w none := by
  induction w generalizing n with
  | nil => trivial
  | cons c w ih =>
    unfold Harmless
    split
    · split
      · trivial
      · exact ih
    · exact ⟨fun _ hf => absurd hf (by simp), nofun⟩

theorem harmless_create {id : Nat} {failing : Option Nat} :
    Harmless (.create id) w failing := by
  cases w with
  | nil => trivial
  | cons c w => exact ⟨fun _ _ => rfl, fun _ => Nat.zero_le 1⟩

/-- What a loop of `trie_insert` does when every failing call is harmless. -/
structure Inserted (n : Cell) (w : List Byte) (a : Allocator) (n' : Cell) (r : Option Bool)
    (a' : Allocator) : Prop where
  good : n'.Good
  next : a.nextId ≤ a'.nextId
  ids : n'.ids.Perm (n.ids ++ List.range' a.nextId (a'.nextId - a.nextId))
  done : ∀ isNew, r = some isNew →
    insertFrom n.toNode w = some (n'.toNode, isNew) ∧ (a'.failing = none ↔ a.failing = none)
  failed : r = none →
    (∀ v, mark n'.toNode v = mark n.toNode v) ∧ a.failing ≠ none ∧ a'.failing = none

theorem Allocator.call_cases (a : Allocator) :
    (a.failing = some 0 ∧ a.call = (false, ⟨none, a.nextId⟩)) ∨
      (a.failing ≠ some 0 ∧ ∃ f, a.call = (true, ⟨f, a.nextId⟩) ∧ (f = none ↔ a.failing = none) ∧
        ∀ k, f = some k ↔ a.failing = some (k + 1)) := by
  obtain ⟨failing, nextId⟩ := a
  match failing with
  | none => exact .inr ⟨nofun, none, rfl, by simp, by simp⟩
  | some 0 => exact .inl ⟨rfl, rfl⟩
  | some (k + 1) => exact .inr ⟨by simp, some k, rfl, by simp, by simp⟩

/-- A node when its arrays have room for one more child. -/
def Cell.roomy (n : Cell) : Header :=
  { n.head with
    chars := .live
    children := .live
    nalloc := if n.entries.length = n.head.nalloc then growAlloc n.head.nalloc
      else n.head.nalloc }

/-- The arrays get room, or a call failed and no array was in use. -/
theorem makeRoom_spec (h : n.Good) (hlt : n.entries.length < 128)
    (hharm : n.entries.length = n.head.nalloc → a.failing = some 0 ∨ a.failing = some 1 →
      n.head.nalloc = 0) :
    (makeRoom n a = some (n, false, ⟨none, a.nextId⟩) ∧
        n.entries.length = n.head.nalloc ∧ (a.failing = some 0 ∨ a.failing = some 1)) ∨
      ∃ f, makeRoom n a = some (.mk n.roomy n.entries, true, ⟨f, a.nextId⟩) ∧
        n.entries.length < n.roomy.nalloc ∧ (f = none ↔ a.failing = none) ∧
        (f = some 0 ↔
          a.failing = some (if n.entries.length = n.head.nalloc then 2 else 0)) := by
  have hc := h.chars
  have hp := h.children
  have hle := h.length_le
  unfold makeRoom
  by_cases hfull : n.entries.length = n.head.nalloc
  · have hnot : ¬ (n.head.chars = .freed ∨ n.head.children = .freed) := by
      rw [hc, hp]
      by_cases hzero : n.head.nalloc = 0 <;> simp [hzero]
    rw [if_pos hfull, if_neg hnot]
    rcases a.call_cases with ⟨hf, hcall⟩ | ⟨-, f, hcall, hnone, hsome⟩
    · -- the first `realloc` fails: the other array was `NULL`
      left
      rw [if_pos (hharm hfull (.inl hf))] at hp
      have hsame : Cell.mk { n.head with children := .null } n.entries = n := by
        rw [← hp]
        cases n
        rfl
      exact ⟨by simp [hf, hp, Pointer.afterFree, Allocator.call, hsame], hfull, .inl hf⟩
    · rcases (Allocator.mk f a.nextId).call_cases with
        ⟨hf, hcall'⟩ | ⟨-, g, hcall', hnone', hsome'⟩
      · left
        have hf1 := (hsome 0).mp hf
        rw [if_pos (hharm hfull (.inr hf1))] at hc
        have hsame : Cell.mk { n.head with chars := .null } n.entries = n := by
          rw [← hc]
          cases n
          rfl
        exact ⟨by simp [hcall, hcall', hc, Pointer.afterFree, hsame], hfull, .inr hf1⟩
      · right
        refine ⟨g, by simp [hcall, hcall', Cell.roomy, hfull], ?_, hnone'.trans hnone,
          (hsome' 0).trans ((hsome 1).trans (by rw [if_pos hfull]))⟩
        have hroom := lt_growAlloc hlt
        rw [Cell.roomy, if_pos hfull]
        rwa [hfull] at hroom ⊢
  · right
    have hpos : n.head.nalloc ≠ 0 := by omega
    rw [if_neg hpos] at hc hp
    have hsame : n.roomy = n.head := Header.ext rfl hc.symm hp.symm (if_neg hfull) rfl rfl
    rw [if_neg hfull, if_neg hfull, hsame]
    exact ⟨a.failing, by cases n; rfl, by omega, Iff.rfl, Iff.rfl⟩

/-- The entries when no child is put in after the shift: unchanged if at most one of them
moved, and with one of them twice otherwise. -/
theorem shifted_cases (hs : SortedKeys l) (hnew : assoc l c = none) :
    ((l.filter (c < ·.1)).length ≤ 1 ∧ shifted c l = l) ∨
      (2 ≤ (l.filter (c < ·.1)).length ∧
        ∃ low e high, shifted c l = low ++ e :: e :: high) := by
  obtain ⟨low, high, rfl, hshift, hlow, hhigh⟩ := shiftRight_split hs hnew
  have hfilter : (low ++ high).filter (c < ·.1) = high := by
    rw [List.filter_append, List.filter_eq_nil_iff.mpr, List.filter_eq_self.mpr]
    · rfl
    · exact fun e he => decide_eq_true (hhigh e he)
    · exact fun e he hlt => absurd (of_decide_eq_true hlt) (hlow e he).asymm
  rw [hfilter, shifted, hshift, List.reverse_reverse, List.length_append, List.take_length_add_append]
  match high with
  | [] => exact .inl ⟨Nat.zero_le 1, rfl⟩
  | [e] => exact .inl ⟨Nat.le_refl 1, rfl⟩
  | e :: e' :: rest => exact .inr ⟨by simp, low, e, (e' :: rest).take rest.length, rfl⟩

/-- A new child is put in. -/
theorem link_spec (h : n.Good) (hc : assoc n.entries c = none) (hascii : c.val < 128)
    (hroom : n.entries.length < n.roomy.nalloc) (hm : m.Good) :
    (Cell.mk n.roomy (shiftInsert c m n.entries)).Good ∧
      (Cell.mk n.roomy (shiftInsert c m n.entries)).ids.Perm (n.ids ++ m.ids) ∧
      linkChild n.toNode c m.toNode =
        some (Cell.mk n.roomy (shiftInsert c m n.entries)).toNode := by
  have hne : n.roomy.nalloc ≠ 0 := by omega
  obtain ⟨hsorted, low, high, hl, hins⟩ := shiftInsert_spec (v := m) h.sorted hc
  refine ⟨.mk hsorted ?_ ?_ (by rw [if_neg hne]; rfl) (by rw [if_neg hne]; rfl) ?_, ?_, ?_⟩
  · rw [length_shiftInsert h.sorted hc]
    exact hroom
  · intro e he
    rcases (mem_shiftInsert h.sorted hc).mp he with rfl | he
    · exact hascii
    · exact h.ascii e he
  · intro e he
    rcases (mem_shiftInsert h.sorted hc).mp he with rfl | he
    · exact hm
    · exact h.child_good e he
  · rw [ids_eq, ids_eq, Cell.entries_mk, Cell.head_mk, hins, hl]
    simp only [idsOf_append, idsOf_cons, List.cons_append, List.append_assoc]
    exact .cons _ (.append_left _ List.perm_append_comm)
  · have hlen : n.toNode.entries.length = n.entries.length := by
      rw [toNode_entries, List.length_map]
    have hpos : ¬ toInt8 n.toNode.entries.length < 0 := by
      have := h.length_lt hc hascii
      rw [hlen, toInt8_neg (by omega)]
      omega
    rw [linkChild, if_neg hpos, hlen, toNode_entries, shiftInsert_map, Cell.toNode, toNodes_eq]
    cases n
    rfl

theorem mark_nalloc {entries : List (Byte × Node)} {nalloc nalloc' freq : Nat} {isEnd : Bool} :
    mark (.mk entries nalloc isEnd freq) v = mark (.mk entries nalloc' isEnd freq) v := by
  cases v with
  | nil => rfl
  | cons d v => simp [mark, walk, Trie.childIndex]

/-! ## The loop of `trie_insert` -/

/-- The loop has gone on in a child that is there. -/
theorem Inserted.setChild (h : n.Good) (hi : Trie.childIndex n.toNode c = some i)
    (he : n.entries[i]? = some (c, m)) (hnm : n.toNode.entries[i]? = some (c, m.toNode))
    {r : Option Bool} (ih : Inserted m w a m' r a') :
    Inserted n (c :: w) a (n.setChild i c m') r a' := by
  refine ⟨h.setChild he ih.good, ih.next, ids_setChild he ih.ids, fun isNew hr => ?_,
    fun hr => ?_⟩
  · obtain ⟨hins, hfail⟩ := ih.done isNew hr
    refine ⟨?_, hfail⟩
    simp only [insertFrom, hi, hnm, hins, toNode_setChild, Option.map_some]
  · obtain ⟨hmark, hfail⟩ := ih.failed hr
    have hwf := h.toNode_wf
    have hc : assoc n.toNode.entries c = some m.toNode :=
      hwf.sorted.assoc_iff.mpr (List.mem_of_getElem? hnm)
    refine ⟨fun v => ?_, hfail⟩
    rw [toNode_setChild]
    refine (replaces_setChild hwf hnm ih.good.toNode_wf).mark_same hwf (fun v => ?_) v
    rw [hmark, mark_cons_some hwf hc]

/-- The loop has gone on in a new child. -/
theorem Inserted.link (h : n.Good) (hc : assoc n.entries c = none) (hascii : c.val < 128)
    (hi : Trie.childIndex n.toNode c = none) (hroom : n.entries.length < n.roomy.nalloc)
    {r : Option Bool} {f : Option Nat} (hf : f = none ↔ a.failing = none)
    (ih : Inserted (.create a.nextId) w ⟨f, a.nextId + 1⟩ m r a') :
    Inserted n (c :: w) a (.mk n.roomy (shiftInsert c m n.entries)) r a' := by
  obtain ⟨hgood, hids, hlink⟩ := link_spec h hc hascii hroom ih.good
  have hnext : a.nextId + 1 ≤ a'.nextId := ih.next
  refine ⟨hgood, by omega, hids.trans (.append_left _ (ih.ids.trans ?_)), fun isNew hr => ?_,
    fun hr => ?_⟩
  · obtain ⟨k, hk⟩ := Nat.exists_eq_add_of_le hnext
    have hk' : a'.nextId - a.nextId = k + 1 := by omega
    have hk'' : a'.nextId - (a.nextId + 1) = k := by omega
    rw [hk', hk'', List.range'_succ]
    exact .refl _
  · obtain ⟨hins, hfail⟩ := ih.done isNew hr
    refine ⟨?_, hfail.trans hf⟩
    have hcreate : (Cell.create a.nextId).toNode = .create := rfl
    rw [hcreate] at hins
    simp only [insertFrom, hi, hins, hlink, Option.map_some]
  · obtain ⟨hmark, hfail, hfail'⟩ := ih.failed hr
    have hwf := h.toNode_wf
    have hnone : assoc n.toNode.entries c = none := by
      rw [toNode_entries, assoc_map, hc]
      rfl
    refine ⟨fun v => ?_, fun hne => hfail (hf.mpr hne), hfail'⟩
    refine (replaces_linkChild hwf hnone ih.good.toNode_wf hlink).mark_same hwf (fun v => ?_) v
    rw [hmark, mark_cons_none hwf hnone]
    exact mark_create

/-- No failure that is harmless does more than add nodes without words. -/
theorem insertLoop_spec (h : n.Good) (hascii : Ascii w) (hharm : Harmless n w a.failing) :
    ∃ n' r a', insertLoop n w a = some (n', r, a') ∧ Inserted n w a n' r a' := by
  induction w generalizing n a with
  | nil =>
    refine ⟨_, _, _, rfl, h.withHead rfl rfl rfl, Nat.le_refl _, ?_, fun isNew hr => ?_, nofun⟩
    · rw [Nat.sub_self, List.range'_zero, List.append_nil, ids_eq, ids_eq]
      exact .refl _
    · cases hr
      cases n
      exact ⟨rfl, Iff.rfl⟩
  | cons c w ih =>
    have hcascii := hascii c List.mem_cons_self
    have hwascii : Ascii w := fun d hd => hascii d (List.mem_cons_of_mem c hd)
    rcases h.index_cases c with ⟨hi, hc, hnode⟩ | ⟨i, m, hi, he, hm, hgood, hnode, hnm⟩
    · simp only [Harmless, hi] at hharm
      have hlt := h.length_lt hc hcascii
      rcases makeRoom_spec h hlt hharm.realloc with
        ⟨hroom, -, hfail⟩ | ⟨f, hroom, hlen, hf, hf0⟩
      · -- the arrays were `NULL`, and are again
        have hfail : a.failing ≠ none := by
          rcases hfail with hf | hf <;> rw [hf] <;> nofun
        refine ⟨n, none, ⟨none, a.nextId⟩, by simp [insertLoop, hi, hroom], h, Nat.le_refl _, ?_,
          nofun, fun _ => ⟨fun _ => rfl, hfail, rfl⟩⟩
        rw [Nat.sub_self, List.range'_zero, List.append_nil]
      · have hpos : ¬ (toInt8 n.entries.length < 0 ∨ n.roomy.nalloc ≤ n.entries.length) := by
          rw [toInt8_neg (by omega)]
          omega
        rcases (Allocator.mk f a.nextId).call_cases with
          ⟨hcall0, hcall⟩ | ⟨hcall0, g, hcall, hg, -⟩
        · -- no child: at most one entry has moved
          have hcount := hharm.create (hf0.mp hcall0)
          have hsame : shifted c n.entries = n.entries := by
            rcases shifted_cases h.sorted hc with ⟨-, heq⟩ | ⟨htwo, -⟩
            · exact heq
            · omega
          have hne : n.roomy.nalloc ≠ 0 := by omega
          refine ⟨.mk n.roomy n.entries, none, ⟨none, a.nextId⟩, ?_, ?_, Nat.le_refl _, ?_,
            nofun, fun _ => ⟨fun v => ?_, ?_, rfl⟩⟩
          · simp [insertLoop, hi, hroom, hpos, hcall, hsame]
          · exact .mk h.sorted hlen.le h.ascii (by rw [if_neg hne]; rfl)
              (by rw [if_neg hne]; rfl) h.child_good
          · rw [Nat.sub_self, List.range'_zero, List.append_nil, ids_eq, ids_eq]
            exact .refl _
          · cases n
            exact mark_nalloc
          · exact fun hnone => absurd hcall0 (by rw [hf.mpr hnone]; nofun)
        · obtain ⟨m, r, a', hins, hspec⟩ := ih (a := ⟨g, a.nextId + 1⟩)
            (Cell.Good.create a.nextId) hwascii harmless_create
          refine ⟨_, r, a', ?_, hspec.link h hc hcascii hnode hlen (hg.trans hf)⟩
          simp [insertLoop, hi, hroom, hpos, hcall, hins]
    · simp only [Harmless, hi, hm] at hharm
      obtain ⟨m', r, a', hins, hspec⟩ := ih hgood hwascii hharm
      exact ⟨_, r, a', by simp [insertLoop, hi, hm, hins], hspec.setChild h hnode he hnm⟩

/-! ## Destroying -/

/-- What destroying nodes with these identities does, when `done` are freed before: no fault
exactly if the nodes are sound and no identity comes twice. -/
def Destroys (sound : Prop) (ids done : List Nat) (result : Option (List Nat)) : Prop :=
  (result = none ∧ ¬ (sound ∧ (ids ++ done).Nodup)) ∨
    ∃ done', result = some done' ∧ sound ∧ (ids ++ done).Nodup ∧ done'.Perm (ids ++ done)

theorem intact_iff {head : Header} :
    (Cell.mk head l).Intact ↔ (head.chars ≠ .freed ∧ head.children ≠ .freed) ∧
      (l ≠ [] → head.children = .live) ∧ ∀ e ∈ l, e.2.Intact := by
  constructor
  · intro h
    cases h with
    | mk hc hp hl hw => exact ⟨⟨hc, hp⟩, hl, hw⟩
  · rintro ⟨⟨hc, hp⟩, hl, hw⟩
    exact .mk hc hp hl hw

mutual

theorem nodeDestroy_spec (n : Cell) (done : List Nat) (hdone : done.Nodup) :
    Destroys n.Intact n.ids done (nodeDestroy n done) := by
  match n with
  | .mk head entries =>
    rw [nodeDestroy, intact_iff, Cell.ids]
    by_cases hid : head.id ∈ done
    · -- the node is freed already
      left
      refine ⟨by rw [if_pos hid], fun hbad => ?_⟩
      exact (List.nodup_cons.mp hbad.2).1 (List.mem_append_right _ hid)
    · rw [if_neg hid]
      by_cases hread : entries ≠ [] ∧ head.children ≠ .live
      · left
        rw [if_pos hread]
        exact ⟨rfl, fun hbad => hread.2 (hbad.1.2.1 hread.1)⟩
      · rw [if_neg hread]
        have hlive : entries ≠ [] → head.children = .live := fun hne =>
          not_not.mp fun hnot => hread ⟨hne, hnot⟩
        rcases destroyChildren_spec entries done hdone with
          ⟨hnone, hbad⟩ | ⟨done', hsome, hsound, hnodup, hperm⟩
        · left
          rw [hnone]
          refine ⟨rfl, fun h => hbad ⟨h.1.2.2, ?_⟩⟩
          exact (List.nodup_cons.mp h.2).2
        · rw [hsome]
          by_cases hfree : head.id ∈ done' ∨ head.chars = .freed ∨ head.children = .freed
          · left
            refine ⟨if_pos hfree, fun h => ?_⟩
            rcases hfree with hmem | hc | hp
            · exact (List.nodup_cons.mp h.2).1 (hperm.mem_iff.mp hmem)
            · exact h.1.1.1 hc
            · exact h.1.1.2 hp
          · right
            obtain ⟨hnot, hc, hp⟩ := not_or.mp hfree |>.imp_right not_or.mp
            refine ⟨head.id :: done', if_neg hfree, ⟨⟨hc, hp⟩, hlive, hsound⟩, ?_, hperm.cons _⟩
            exact List.nodup_cons.mpr ⟨fun hmem => hnot (hperm.mem_iff.mpr hmem), hnodup⟩

theorem destroyChildren_spec (l : List (Byte × Cell)) (done : List Nat) (hdone : done.Nodup) :
    Destroys (∀ e ∈ l, e.2.Intact) (idsOf l) done (destroyChildren l done) := by
  match l with
  | [] => exact .inr ⟨done, rfl, nofun, hdone, .refl _⟩
  | (c, child) :: rest =>
    rw [destroyChildren, List.forall_mem_cons, idsOf, Destroys, List.append_assoc]
    rcases nodeDestroy_spec child done hdone with
      ⟨hnone, hbad⟩ | ⟨done', hsome, hsound, hnodup, hperm⟩
    · left
      rw [hnone]
      refine ⟨rfl, fun h => hbad ⟨h.1.1, h.2.sublist ?_⟩⟩
      exact (List.sublist_append_right _ _).append_left _
    · rw [hsome]
      have hswap : (idsOf rest ++ done').Perm (child.ids ++ (idsOf rest ++ done)) := by
        refine (hperm.append_left _).trans ?_
        rw [← List.append_assoc, ← List.append_assoc]
        exact List.perm_append_comm.append_right _
      rcases destroyChildren_spec rest done' (hperm.nodup_iff.mpr hnodup) with
        ⟨hnone, hbad⟩ | ⟨done'', hsome', hsound', hnodup', hperm'⟩
      · exact .inl ⟨hnone, fun h => hbad ⟨h.1.2, hswap.nodup_iff.mpr h.2⟩⟩
      · exact .inr ⟨done'', hsome', ⟨hsound, hsound'⟩, hswap.nodup_iff.mp hnodup',
          hperm'.trans hswap⟩

end

/-- A tree is destroyed without fault exactly if no pointer is left behind and no node is in it
twice. -/
theorem nodeDestroy_isSome : nodeDestroy n [] ≠ none ↔ n.Intact ∧ n.ids.Nodup := by
  rcases nodeDestroy_spec n [] .nil with ⟨hnone, hbad⟩ | ⟨done, hsome, hsound, hnodup, -⟩
  · rw [List.append_nil] at hbad
    exact iff_of_false (fun hne => hne hnone) hbad
  · rw [List.append_nil] at hnodup
    exact iff_of_true (by rw [hsome]; nofun) ⟨hsound, hnodup⟩

/-! ## Failures that do harm -/

/-- A `realloc` of arrays in use fails: the result of the other one is freed, and the node
keeps the pointer that it has moved away from. -/
theorem makeRoom_harmful (h : n.Good) (hfull : n.entries.length = n.head.nalloc)
    (hpos : n.head.nalloc ≠ 0) (hfail : a.failing = some 0 ∨ a.failing = some 1) :
    ∃ head, makeRoom n a = some (.mk head n.entries, false, ⟨none, a.nextId⟩) ∧
      (head.chars = .freed ∨ head.children = .freed) := by
  have hc := h.chars
  have hp := h.children
  rw [if_neg hpos] at hc hp
  rw [makeRoom, if_pos hfull, if_neg (by rw [hc, hp]; nofun)]
  obtain ⟨failing, nextId⟩ := a
  rcases hfail with rfl | rfl
  · exact ⟨_, rfl, .inr (by rw [hp]; rfl)⟩
  · exact ⟨_, rfl, .inl (by rw [hc]; rfl)⟩

/-- A damaged child damages the node. -/
theorem sound_of_setChild (hi : n.entries[i]? = some (c, m))
    (h : (n.setChild i c m').Intact ∧ (n.setChild i c m').ids.Nodup) :
    m'.Intact ∧ m'.ids.Nodup := by
  obtain ⟨l₁, l₂, -, hset⟩ := entries_split hi
  have hmem : (c, m') ∈ n.entries.set i (c, m') := by
    rw [hset]
    exact List.mem_append_right _ List.mem_cons_self
  refine ⟨(intact_iff.mp h.1).2.2 _ hmem, h.2.sublist ?_⟩
  rw [Cell.setChild, Cell.ids, hset, idsOf_append, idsOf_cons]
  exact ((List.sublist_append_left _ _).trans (List.sublist_append_right _ _)).cons _

/-- A failure that is not harmless leaves a tree that cannot be destroyed. -/
theorem insertLoop_harmful (h : n.Good) (hascii : Ascii w) (hharm : ¬ Harmless n w a.failing) :
    ∃ n' a', insertLoop n w a = some (n', none, a') ∧ a.failing ≠ none ∧ a'.failing = none ∧
      ¬ (n'.Intact ∧ n'.ids.Nodup) := by
  induction w generalizing n a with
  | nil => exact absurd trivial hharm
  | cons c w ih =>
    rcases h.index_cases c with ⟨hi, hc, -⟩ | ⟨i, m, hi, he, hm, hgood, -⟩
    · simp only [Harmless, hi] at hharm
      have hlt := h.length_lt hc (hascii c List.mem_cons_self)
      by_cases hreal : n.entries.length = n.head.nalloc →
          a.failing = some 0 ∨ a.failing = some 1 → n.head.nalloc = 0
      · -- the `calloc` of the child fails, and two entries or more have moved
        have hcreate : a.failing = some (if n.entries.length = n.head.nalloc then 2 else 0) ∧
            2 ≤ (n.entries.filter (c < ·.1)).length := by
          by_contra hnot
          refine hharm ⟨hreal, fun hf => ?_⟩
          by_contra htwo
          exact hnot ⟨hf, by omega⟩
        have hsome : a.failing ≠ none := by rw [hcreate.1]; nofun
        rcases makeRoom_spec h hlt hreal with ⟨-, hfull, hfail⟩ | ⟨f, hroom, hlen, -, hf0⟩
        · rw [hcreate.1, if_pos hfull] at hfail
          simp at hfail
        · have hpos : ¬ (toInt8 n.entries.length < 0 ∨ n.roomy.nalloc ≤ n.entries.length) := by
            rw [toInt8_neg (by omega)]
            omega
          have hcall : (Allocator.mk f a.nextId).call = (false, ⟨none, a.nextId⟩) := by
            rw [hf0.mpr hcreate.1]
            rfl
          refine ⟨.mk n.roomy (shifted c n.entries), ⟨none, a.nextId⟩, ?_, hsome, rfl, ?_⟩
          · simp [insertLoop, hi, hroom, hpos, hcall]
          · rcases shifted_cases h.sorted hc with ⟨hone, -⟩ | ⟨-, low, e, high, hdup⟩
            · omega
            · -- one child is in the array twice
              rintro ⟨-, hnodup⟩
              rw [ids_eq, Cell.entries_mk, hdup, idsOf_append, idsOf_cons, idsOf_cons] at hnodup
              have hpair := (List.nodup_append.mp (List.nodup_cons.mp hnodup).2).2.1
              exact (List.nodup_append.mp hpair).2.2 _ head_mem_ids _
                (List.mem_append_left _ head_mem_ids) rfl
      · -- a `realloc` of arrays in use fails
        obtain ⟨hfull, hreal⟩ := Classical.not_imp.mp hreal
        obtain ⟨hfail, hpos⟩ := Classical.not_imp.mp hreal
        obtain ⟨head, hroom, hfreed⟩ := makeRoom_harmful h hfull hpos hfail
        refine ⟨.mk head n.entries, ⟨none, a.nextId⟩, by simp [insertLoop, hi, hroom], ?_, rfl,
          fun hsound => ?_⟩
        · rcases hfail with hf | hf <;> rw [hf] <;> nofun
        · obtain ⟨⟨hnc, hnp⟩, -⟩ := intact_iff.mp hsound.1
          exact hfreed.elim hnc hnp
    · simp only [Harmless, hi, hm] at hharm
      obtain ⟨m', a', hins, hf, hf', hbad⟩ :=
        ih hgood (fun d hd => hascii d (List.mem_cons_of_mem c hd)) hharm
      exact ⟨_, a', by simp [insertLoop, hi, hm, hins], hf, hf',
        fun hsound => hbad (sound_of_setChild he hsound)⟩

/-! ## Runs -/

/-- The trie of the functional model. -/
def MemTrie.toTrieT (t : MemTrie) : TrieT := ⟨t.root.toNode, t.wordCount⟩

/-- The tries that insertions and deletions of ASCII words reach when every failing call of the
allocator is harmless. -/
inductive Reachable : MemTrie → Prop
  | create : Reachable trieCreate
  | insert {t : MemTrie} {o : Outcome} (word : Word) (failing : Option Nat) :
    Reachable t → Ascii word.1 → Harmless t.root word.1 failing →
    trieInsert t word failing = some o → Reachable o.trie
  | delete {t t' : MemTrie} {deleted : Bool} (word : Word) :
    Reachable t → trieDelete t word = some (t', deleted) → Reachable t'

/-- Every node is sound, and no node is in the tree twice. -/
structure Sound (t : MemTrie) : Prop where
  good : t.root.Good
  nodup : t.root.ids.Nodup
  below : ∀ id ∈ t.root.ids, id < t.nextId

variable {t t' : MemTrie}

theorem sound_create : Sound trieCreate where
  good := Cell.Good.create 0
  nodup := List.nodup_singleton 0
  below id hid := by
    rw [List.mem_singleton.mp hid]
    exact Nat.one_pos

theorem trieInsert_word (t : MemTrie) (w : Word) (failing : Option Nat) :
    trieInsert t w failing = match insertLoop t.root w.1 ⟨failing, t.nextId⟩ with
      | none => none
      | some (root, none, a) =>
        some ⟨⟨root, t.wordCount, a.nextId⟩, false, failing.isSome && a.failing.isNone⟩
      | some (root, some isNew, a) =>
        some ⟨⟨root, if isNew then t.wordCount + 1 else t.wordCount, a.nextId⟩, true,
          failing.isSome && a.failing.isNone⟩ := by
  obtain ⟨_ | ⟨c, w⟩, hne, h0⟩ := w
  · exact absurd rfl hne
  · rfl

theorem Inserted.sound (hs : Sound t) {r : Option Bool} {failing : Option Nat} {count : Nat}
    (h : Inserted t.root w ⟨failing, t.nextId⟩ n' r a') : Sound ⟨n', count, a'.nextId⟩ := by
  have hle : t.nextId ≤ a'.nextId := h.next
  have hfresh : ∀ id ∈ List.range' t.nextId (a'.nextId - t.nextId),
      t.nextId ≤ id ∧ id < a'.nextId := fun id hid => by
    have := List.mem_range'_1.mp hid
    omega
  refine ⟨h.good, h.ids.nodup_iff.mpr (List.nodup_append.mpr ⟨hs.nodup, List.nodup_range', ?_⟩),
    fun id hid => ?_⟩
  · intro id hid id' hid' heq
    have := hs.below id hid
    have := (hfresh id' hid').1
    omega
  · rcases List.mem_append.mp (h.ids.mem_iff.mp hid) with hid | hid
    · exact (hs.below id hid).trans_le hle
    · exact (hfresh id hid).2

/-- `trie_insert` with harmless failures: it is the insertion of the functional model, or it
reports the failure and changes no answer. -/
theorem trieInsert_spec (hs : Sound t) (w : Word) (hascii : Ascii w.1) {failing : Option Nat}
    (hharm : Harmless t.root w.1 failing) :
    ∃ o, trieInsert t w failing = some o ∧ Sound o.trie ∧
      ((o.returned = true ∧ o.failed = false ∧
          Trie.trieInsert t.toTrieT w.1 = some (o.trie.toTrieT, true)) ∨
        (o.returned = false ∧ o.failed = true ∧ o.trie.wordCount = t.wordCount ∧
          ∀ v, mark o.trie.root.toNode v = mark t.root.toNode v)) := by
  obtain ⟨n', r, a', hins, hspec⟩ :=
    insertLoop_spec (a := ⟨failing, t.nextId⟩) hs.good hascii hharm
  rw [trieInsert_word, hins]
  cases r with
  | some isNew =>
    refine ⟨_, rfl, hspec.sound hs, .inl ⟨rfl, ?_, ?_⟩⟩
    · obtain ⟨-, hfail⟩ := hspec.done isNew rfl
      cases failing with
      | none => rfl
      | some k =>
        have hne : a'.failing ≠ none := fun hnone => absurd (hfail.mp hnone) nofun
        simpa [← Option.isSome_iff_ne_none] using hne
    · rw [Trie.trieInsert_word]
      exact (Option.map_eq_some_iff.mpr ⟨_, (hspec.done isNew rfl).1, rfl⟩)
  | none =>
    obtain ⟨hmark, hne, hnone⟩ := hspec.failed rfl
    refine ⟨_, rfl, hspec.sound hs, .inr ⟨rfl, ?_, rfl, hmark⟩⟩
    simp only [hnone, Option.isNone_none, Bool.and_true]
    exact Option.isSome_iff_ne_none.mpr hne

theorem trieDelete_spec (hs : Sound t) (w : Word) :
    ∃ t' deleted, trieDelete t w = some (t', deleted) ∧ Sound t' ∧
      Trie.trieDelete t.toTrieT w.1 = (t'.toTrieT, deleted) := by
  obtain ⟨o, hdel, ho, hkeep⟩ := deleteLoop_toNode (w := w.1) hs.good
  have hword : trieDelete t w = match deleteLoop t.root w.1 with
      | none => none
      | some none => some (t, false)
      | some (some root) => some ({ t with root := root, wordCount := t.wordCount - 1 }, true) := by
    obtain ⟨_ | ⟨c, w⟩, hne, h0⟩ := w
    · exact absurd rfl hne
    · rfl
  rw [hword, hdel, Trie.trieDelete_word]
  simp only [MemTrie.toTrieT, ← ho]
  cases o with
  | none => exact ⟨t, false, rfl, hs, rfl⟩
  | some root =>
    obtain ⟨hgood, hids⟩ := hkeep root rfl
    refine ⟨_, true, rfl, ⟨hgood, hids.nodup_iff.mpr hs.nodup, fun id hid => ?_⟩, rfl⟩
    exact hs.below id (hids.mem_iff.mp hid)

theorem Reachable.sound (h : Reachable t) : Sound t := by
  induction h with
  | create => exact sound_create
  | insert word failing _ hascii hharm hins ih =>
    obtain ⟨o, ho, hsound, -⟩ := trieInsert_spec ih word hascii hharm
    rw [hins] at ho
    cases ho
    exact hsound
  | delete word _ hdel ih =>
    obtain ⟨t', deleted, ht', hsound, -⟩ := trieDelete_spec ih word
    rw [hdel] at ht'
    cases ht'
    exact hsound

/-- The look-ups answer what is stored at the word. -/
theorem trieSearch_spec (hs : Sound t) (w : Word) :
    trieSearch t w = some (mark t.root.toNode w.1).1 := by
  obtain ⟨o, hfind, ho⟩ := find_toNode (w := w.1) hs.good
  have hword : trieSearch t w =
      (find t.root w.1).map fun o => o.any (·.head.isEndOfWord) := by
    obtain ⟨_ | ⟨c, w⟩, hne, h0⟩ := w
    · exact absurd rfl hne
    · rfl
  rw [hword, hfind, mark, ← ho]
  cases o with
  | none => rfl
  | some m =>
    cases m
    rfl

theorem trieGetFrequency_spec (hs : Sound t) (w : Word) :
    trieGetFrequency t w = some (if (mark t.root.toNode w.1).1 then
      (mark t.root.toNode w.1).2 else 0) := by
  obtain ⟨o, hfind, ho⟩ := find_toNode (w := w.1) hs.good
  have hword : trieGetFrequency t w = (find t.root w.1).map fun o =>
      match o with
      | none => 0
      | some n => if n.head.isEndOfWord then n.head.frequency else 0 := by
    obtain ⟨_ | ⟨c, w⟩, hne, h0⟩ := w
    · exact absurd rfl hne
    · rfl
  rw [hword, hfind, mark, ← ho]
  cases o with
  | none => rfl
  | some m =>
    cases m
    rfl

/-- The trie `t'` answers as `t` does, and can be used on and destroyed. -/
structure Unharmed (t t' : MemTrie) : Prop where
  search : ∀ w : Word, ∃ b, trieSearch t w = some b ∧ trieSearch t' w = some b
  frequency : ∀ w : Word, ∃ f, trieGetFrequency t w = some f ∧ trieGetFrequency t' w = some f
  count : t'.wordCount = t.wordCount
  insert : ∀ (w : Word) (failing : Option Nat), Ascii w.1 → trieInsert t' w failing ≠ none
  destroy : trieDestroy t' ≠ none

/-- `trie_insert` is well defined on a sound trie. -/
theorem Sound.insert_ne_none (hs : Sound t) (w : Word) (failing : Option Nat)
    (hascii : Ascii w.1) : trieInsert t w failing ≠ none := by
  by_cases hharm : Harmless t.root w.1 failing
  · obtain ⟨o, ho, -⟩ := trieInsert_spec hs w hascii hharm
    rw [ho]
    nofun
  · obtain ⟨n', a', hins, -⟩ :=
      insertLoop_harmful (a := ⟨failing, t.nextId⟩) hs.good hascii hharm
    rw [trieInsert_word, hins]
    nofun

/-- From every reachable trie: an insertion in which an allocation fails returns false and
leaves the answers as they were and the trie fit for use exactly when the failing call is
harmless. -/
theorem failure_harmless_iff (h : Reachable t) (w : Word) (hascii : Ascii w.1) (k : Nat) :
    ∃ o, trieInsert t w (some k) = some o ∧
      (o.failed = true →
        (o.returned = false ∧ Unharmed t o.trie ↔ Harmless t.root w.1 (some k))) := by
  have hs := h.sound
  by_cases hharm : Harmless t.root w.1 (some k)
  · obtain ⟨o, ho, hsound, hcases⟩ := trieInsert_spec hs w hascii hharm
    refine ⟨o, ho, fun hfailed => iff_of_true ?_ hharm⟩
    rcases hcases with ⟨-, hnot, -⟩ | ⟨hret, -, hcount, hmark⟩
    · rw [hnot] at hfailed
      cases hfailed
    · refine ⟨hret, fun v => ?_, fun v => ?_, hcount, hsound.insert_ne_none, ?_⟩
      · exact ⟨_, trieSearch_spec hs v, by rw [trieSearch_spec hsound, hmark]⟩
      · exact ⟨_, trieGetFrequency_spec hs v, by rw [trieGetFrequency_spec hsound, hmark]⟩
      · exact nodeDestroy_isSome.mpr ⟨hsound.good.intact, hsound.nodup⟩
  · obtain ⟨n', a', hins, -, -, hbad⟩ :=
      insertLoop_harmful (a := ⟨some k, t.nextId⟩) hs.good hascii hharm
    refine ⟨_, by rw [trieInsert_word, hins], fun _ => iff_of_false (fun hun => ?_) hharm⟩
    exact hbad (nodeDestroy_isSome.mp hun.2.destroy)

/-- "a" is stored, and the node for "b" cannot be had: nothing has moved. -/
theorem failure_harmless_iff_ab :
    ∃ o o', trieInsert trieCreate wordA none = some o ∧
      trieInsert o.trie wordB (some 0) = some o' ∧ o'.failed = true ∧
      (o'.returned = false ∧ Unharmed o.trie o'.trie ↔
        Harmless o.trie.root wordB.1 (some 0)) := by
  have hreach : Reachable _ :=
    .insert wordA none .create (by decide +kernel) harmless_none (rfl : _ = some _)
  obtain ⟨o', ho', h⟩ := failure_harmless_iff hreach wordB (by decide +kernel) 0
  have hfailed : o'.failed = true := by
    cases ho'
    rfl
  exact ⟨_, o', rfl, ho', hfailed, h hfailed⟩

/-- "b" and "c" are stored, and "a" is to come. If its node cannot be had, "b" takes the place
of "c", and its node is freed twice in the end. If the second array cannot grow, the first one
is freed and still used. -/
theorem failure_harms :
    ∃ o₁ o₂ o₃ o₄, trieInsert trieCreate wordB none = some o₁ ∧
      trieInsert o₁.trie [99] none = some o₂ ∧ trieSearch o₂.trie [99] = some true ∧
      trieInsert o₂.trie wordA (some 2) = some o₃ ∧ o₃.returned = false ∧
      trieSearch o₃.trie [99] = some false ∧ trieDestroy o₃.trie = none ∧
      trieInsert o₂.trie wordA (some 1) = some o₄ ∧ o₄.returned = false ∧
      trieSearch o₄.trie [99] = none := by
  refine ⟨_, _, _, _, rfl, rfl, ?_, rfl, rfl, ?_, ?_, rfl, rfl, ?_⟩ <;> rfl

end Solidc.Trie.Memory
