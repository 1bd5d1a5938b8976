import Mathlib.Data.Nat.Notation
import Mathlib.Logic.Function.Basic
import Mathlib.Tactic.TypeStar

/-! # Descriptors and pipes

Each process has a table of descriptors. An open one refers to a file or to an end of a
pipe, and processes may share what they refer to: a pipe is at its end for its reader once
no process holds its writing end, and breaks for its writer once none holds its reading
end.

* `Fds.close`, `Fds.dup2` — how a process changes its table;
* `Kernel.Read`, `Kernel.Write`, `Kernel.Broken` — what a transfer can do.
-/

namespace CLib

/-- What an open descriptor refers to: a file of the type `F`, or an end of a pipe. -/
inductive File (F : Type*) where
  | plain (f : F)
  | readEnd (j : Nat)
  | writeEnd (j : Nat)
deriving DecidableEq

/-- The table of a process: what each descriptor refers to, if it is open. -/
abbrev Fds (F : Type*) := Nat → Option (File F)

variable {F P : Type*}

namespace Fds

def close (t : Fds F) (fd : Nat) : Fds F := Function.update t fd none

def openAt (t : Fds F) (fd : Nat) (f : File F) : Fds F := Function.update t fd (some f)

/-- `dup2`: the descriptor `new` comes to refer to what `old` does, and nothing happens if
`old` is not open. -/
def dup2 (t : Fds F) (old new : Nat) : Fds F :=
  match t old with
  | none => t
  | some f => t.openAt new f

variable {t : Fds F} {fd fd' old new : Nat} {f : File F}

@[simp] theorem close_self : t.close fd fd = none := Function.update_self _ _ _

theorem close_ne (h : fd' ≠ fd) : t.close fd fd' = t fd' := Function.update_of_ne h _ _

@[simp] theorem openAt_self : t.openAt fd f fd = some f := Function.update_self _ _ _

theorem openAt_ne (h : fd' ≠ fd) : t.openAt fd f fd' = t fd' := Function.update_of_ne h _ _

theorem dup2_of_open (h : t old = some f) : t.dup2 old new = t.openAt new f := by
  unfold dup2
  rw [h]

theorem dup2_self (h : t old = some f) : t.dup2 old new new = some f := by
  rw [dup2_of_open h, openAt_self]

theorem dup2_ne (h : fd ≠ new) : t.dup2 old new fd = t fd := by
  unfold dup2
  cases t old with
  | none => rfl
  | some f => exact openAt_ne h

/-- What is open after a `close` was open before, elsewhere. -/
theorem close_eq_some : t.close fd fd' = some f ↔ fd' ≠ fd ∧ t fd' = some f := by
  by_cases h : fd' = fd
  · subst h
    simp
  · simp [close_ne h, h]

theorem openAt_eq_some {f' : File F} :
    t.openAt fd f fd' = some f' ↔ fd' = fd ∧ f' = f ∨ fd' ≠ fd ∧ t fd' = some f' := by
  by_cases h : fd' = fd
  · subst h
    simp [eq_comm]
  · simp [openAt_ne h, h]

/-- A descriptor that was free is free again once it is closed. -/
theorem close_openAt (h : t fd = none) : (t.openAt fd f).close fd = t := by
  funext fd'
  by_cases hfd : fd' = fd
  · subst hfd
    rw [close_self, h]
  · rw [close_ne hfd, openAt_ne hfd]

theorem openAt_comm {f' : File F} (h : fd ≠ fd') :
    (t.openAt fd f).openAt fd' f' = (t.openAt fd' f').openAt fd f :=
  Function.update_comm h _ _ t

theorem close_openAt_ne (h : fd ≠ fd') : (t.openAt fd f).close fd' = (t.close fd').openAt fd f :=
  Function.update_comm h _ _ t

theorem close_comm (t : Fds F) (fd fd' : Nat) :
    (t.close fd).close fd' = (t.close fd').close fd := by
  by_cases h : fd = fd'
  · rw [h]
  · exact Function.update_comm h _ _ t

/-- `close` and `dup2` open nothing that was not open. -/
theorem close_entry (h : t.close fd fd' = some f) : ∃ fd₀, t fd₀ = some f :=
  ⟨fd', (close_eq_some.mp h).2⟩

theorem dup2_entry (h : t.dup2 old new fd = some f) : ∃ fd₀, t fd₀ = some f := by
  cases hold : t old with
  | none =>
    unfold dup2 at h
    rw [hold] at h
    exact ⟨fd, h⟩
  | some f₀ =>
    rw [dup2_of_open hold, openAt_eq_some] at h
    rcases h with ⟨-, rfl⟩ | ⟨-, h⟩
    · exact ⟨old, hold⟩
    · exact ⟨fd, h⟩

/-- The table of a process that has inherited the files `base`. -/
def inherited (base : Nat → Option F) : Fds F := fun fd => (base fd).map .plain

variable {base : Nat → Option F}

theorem inherited_eq_none : inherited base fd = none ↔ base fd = none := by
  simp [inherited]

theorem inherited_of_some {x : F} (h : base fd = some x) : inherited base fd = some (.plain x) := by
  simp [inherited, h]

theorem plain_of_inherited (h : inherited base fd = some f) : ∃ x, f = .plain x := by
  obtain ⟨x, -, rfl⟩ := Option.map_eq_some_iff.mp h
  exact ⟨x, rfl⟩

end Fds

/-- The tables of the processes, the bytes in each pipe, what is left to read of each file
and what was written to it. -/
structure Kernel (P F : Type*) where
  fds : P → Fds F
  buf : Nat → List UInt8
  input : F → List UInt8
  output : F → List UInt8

namespace Kernel

/-- One process, with the files `base`, before any pipe. -/
def start (base : Nat → Option F) (input output : F → List UInt8) : Kernel (Option Nat) F where
  fds p := if p = none then Fds.inherited base else fun _ => none
  buf _ := []
  input := input
  output := output

variable {k k' : Kernel P F} {p q : P} {fd size capacity : Nat}

section Processes

variable [DecidableEq P]

/-- The process `p` has the table `t` from now on. -/
def setFds (k : Kernel P F) (p : P) (t : Fds F) : Kernel P F :=
  { k with fds := Function.update k.fds p t }

/-- The child `q` gets a copy of its parent's table. -/
def fork (k : Kernel P F) (p q : P) : Kernel P F := k.setFds q (k.fds p)

/-- The end of a process closes its descriptors. -/
def exit (k : Kernel P F) (p : P) : Kernel P F := k.setFds p fun _ => none

@[simp] theorem setFds_self {t : Fds F} : (k.setFds p t).fds p = t := Function.update_self _ _ _

theorem setFds_ne {t : Fds F} (h : q ≠ p) : (k.setFds p t).fds q = k.fds q :=
  Function.update_of_ne h _ _

@[simp] theorem exit_self (fd : Nat) : (k.exit p).fds p fd = none := by
  rw [exit, setFds_self]

theorem exit_ne (h : q ≠ p) : (k.exit p).fds q = k.fds q := setFds_ne h

end Processes

/-- Some process holds the file open. -/
def Open (k : Kernel P F) (f : File F) : Prop := ∃ p fd, k.fds p fd = some f

variable [DecidableEq F]

/-- What `read` of at most `size` bytes can give: some bytes, none at the end of the input, or
failure on a descriptor that cannot be read. It blocks on an empty pipe that somebody may
still write to. -/
inductive Read (k : Kernel P F) (p : P) (fd size : Nat) : Option (List UInt8) → Kernel P F → Prop
  | file {f : F} {c rest : List UInt8} : k.fds p fd = some (.plain f) → k.input f = c ++ rest →
      c ≠ [] → c.length ≤ size →
      Read k p fd size (some c) { k with input := Function.update k.input f rest }
  | fileEnd {f : F} : k.fds p fd = some (.plain f) → k.input f = [] → Read k p fd size (some []) k
  | pipe {j : Nat} {c rest : List UInt8} : k.fds p fd = some (.readEnd j) → k.buf j = c ++ rest →
      c ≠ [] → c.length ≤ size →
      Read k p fd size (some c) { k with buf := Function.update k.buf j rest }
  | pipeEnd {j : Nat} : k.fds p fd = some (.readEnd j) → k.buf j = [] → ¬ k.Open (.writeEnd j) →
      Read k p fd size (some []) k
  | failed : (∀ f, k.fds p fd ≠ some (.plain f)) → (∀ j, k.fds p fd ≠ some (.readEnd j)) →
      Read k p fd size none k

/-- What `write` of the byte `b` can do: a pipe takes it if its reading end is open and it
has room for it, and a file at once. It fails on a descriptor that cannot be written. -/
inductive Write (capacity : Nat) (k : Kernel P F) (p : P) (fd : Nat) (b : UInt8) :
    Bool → Kernel P F → Prop
  | file {f : F} : k.fds p fd = some (.plain f) →
      Write capacity k p fd b true
        { k with output := Function.update k.output f (k.output f ++ [b]) }
  | pipe {j : Nat} : k.fds p fd = some (.writeEnd j) → k.Open (.readEnd j) →
      (k.buf j).length < capacity →
      Write capacity k p fd b true { k with buf := Function.update k.buf j (k.buf j ++ [b]) }
  | failed : (∀ f, k.fds p fd ≠ some (.plain f)) → (∀ j, k.fds p fd ≠ some (.writeEnd j)) →
      Write capacity k p fd b false k

/-- A write to the descriptor would kill the process: nobody reads the pipe any more. -/
def Broken (k : Kernel P F) (p : P) (fd : Nat) : Prop :=
  ∃ j, k.fds p fd = some (.writeEnd j) ∧ ¬ k.Open (.readEnd j)

/-- A transfer leaves every table as it is. -/
theorem Read.fds_eq {r : Option (List UInt8)} (h : k.Read p fd size r k') : k'.fds = k.fds := by
  cases h <;> rfl

theorem Write.fds_eq {b : UInt8} {ok : Bool} (h : k.Write capacity p fd b ok k') :
    k'.fds = k.fds := by
  cases h <;> rfl

end Kernel

end CLib
