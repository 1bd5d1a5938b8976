import Solidc.Lib.SortedTable
import Mathlib.Data.Fintype.Card
import Mathlib.Algebra.Ring.Nat

/-! # The trie

A node keeps its children in two parallel arrays, sorted by their bytes, of which the first
`nchildren` entries are in use; here they are the list of these entries. A word is a string
without its terminator. `none` stands for a write outside the arrays.

* `childIndex` — `child_index`;
* `insertFrom`, `deleteFrom`, `walk` — the loops of `trie_insert`, `trie_delete` and the
  look-ups;
* `trieInsert`, `trieDelete`, `trieSearch`, `trieGetFrequency` — the public functions.
-/

namespace Solidc.Trie

open CLib

/-- `uint8_t`. -/
abbrev Byte : Type := Fin 256

instance neZero_byte : NeZero 256 := ⟨by decide⟩

/-- `trie_node`. -/
inductive Node where
  | mk (entries : List (Byte × Node)) (nalloc : Nat) (isEndOfWord : Bool) (frequency : Nat)

namespace Node

def entries : Node → List (Byte × Node)
  | mk entries _ _ _ => entries

def nalloc : Node → Nat
  | mk _ nalloc _ _ => nalloc

def isEndOfWord : Node → Bool
  | mk _ _ isEndOfWord _ => isEndOfWord

def frequency : Node → Nat
  | mk _ _ _ frequency => frequency

/-- `node_create`. -/
def create : Node := mk [] 0 false 0

@[simp] theorem entries_mk {l : List (Byte × Node)} {a f : Nat} {b : Bool} :
    (mk l a b f).entries = l := rfl

@[simp] theorem nalloc_mk {l : List (Byte × Node)} {a f : Nat} {b : Bool} :
    (mk l a b f).nalloc = a := rfl

end Node

/-- `child_index`. -/
def childIndex (n : Node) (c : Byte) : Option Nat :=
  bsearch n.entries c (n.entries.length + 1) 0 (n.entries.length - 1)

/-- The new capacity when the arrays are full. -/
def growAlloc (nalloc : Nat) : Nat :=
  if (if nalloc = 0 then 2 else nalloc * 2 % 256) < nalloc then 255
  else if nalloc = 0 then 2 else nalloc * 2 % 256

/-- `(int8_t)nchildren`. -/
def toInt8 (x : Nat) : Int := (x + 128) % 256 - 128

/-- `child_find_or_create` for a byte that has no child: the arrays grow if they are full, the
greater entries move up, and the child is put in. A negative position is outside the
arrays. -/
def linkChild (n : Node) (c : Byte) (child : Node) : Option Node :=
  if toInt8 n.entries.length < 0 then none
  else some (.mk (shiftInsert c child n.entries)
    (if n.entries.length = n.nalloc then growAlloc n.nalloc else n.nalloc)
    n.isEndOfWord n.frequency)

/-- The child at index `i` has changed. -/
def setChild (n : Node) (i : Nat) (c : Byte) (child : Node) : Node :=
  .mk (n.entries.set i (c, child)) n.nalloc n.isEndOfWord n.frequency

/-- The end of `trie_insert`: the node of the word, and whether it is new. -/
def markWord (n : Node) : Node × Bool :=
  (.mk n.entries n.nalloc true ((n.frequency + 1) % 2 ^ 32), !n.isEndOfWord)

/-- The loop of `trie_insert`. A new child is linked before the loop goes on below it. -/
def insertFrom (n : Node) : List Byte → Option (Node × Bool)
  | [] => some (markWord n)
  | c :: w =>
    match childIndex n c with
    | some i =>
      match n.entries[i]? with
      -- an index that `child_index` has found is in the array
      | none => none
      | some e => (insertFrom e.2 w).map fun r => (setChild n i c r.1, r.2)
    | none =>
      match insertFrom .create w with
      | none => none
      | some (child, isNew) => (linkChild n c child).map (·, isNew)

/-- The loop of the look-ups: the node of a word. -/
def walk (n : Node) : List Byte → Option Node
  | [] => some n
  | c :: w =>
    match childIndex n c with
    | none => none
    | some i =>
      match n.entries[i]? with
      | none => none
      | some e => walk e.2 w

/-- `trie_delete`: the change at the node of the word, if the word is there. -/
def deleteFrom (n : Node) : List Byte → Option Node
  | [] => if n.isEndOfWord then some (.mk n.entries n.nalloc false 0) else none
  | c :: w =>
    match childIndex n c with
    | none => none
    | some i =>
      match n.entries[i]? with
      | none => none
      | some e => (deleteFrom e.2 w).map (setChild n i c)

/-- `trie_t`. -/
structure TrieT where
  root : Node
  wordCount : Nat

def trieCreate : TrieT := ⟨.create, 0⟩

def trieInsert (t : TrieT) (word : List Byte) : Option (TrieT × Bool) :=
  match word with
  | [] => some (t, false)
  | _ => (insertFrom t.root word).map fun r =>
    (⟨r.1, if r.2 then t.wordCount + 1 else t.wordCount⟩, true)

def trieDelete (t : TrieT) (word : List Byte) : TrieT × Bool :=
  match word with
  | [] => (t, false)
  | _ =>
    match deleteFrom t.root word with
    | none => (t, false)
    | some root => (⟨root, t.wordCount - 1⟩, true)

def trieSearch (t : TrieT) (word : List Byte) : Bool :=
  match word with
  | [] => false
  | _ => (walk t.root word).any (·.isEndOfWord)

def trieGetFrequency (t : TrieT) (word : List Byte) : Nat :=
  match word with
  | [] => 0
  | _ =>
    match walk t.root word with
    | none => 0
    | some n => if n.isEndOfWord then n.frequency else 0

end Solidc.Trie
