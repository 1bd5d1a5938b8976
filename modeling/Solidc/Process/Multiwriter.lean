import Solidc.Lib.Routing
import Solidc.Lib.Transition

/-! # Commands with several outputs

`process_run_with_multiwriter` runs a command whose standard output and standard error are
pipes to two more children, which copy what they read to every descriptor of a list.

* `tee_runs` — what the copying loop does, however the reads cut its input;
* `World.Inv` — the descriptor tables at every program point;
* `multiwriter_delivers` — every interleaving ends, and leaves all that the command wrote in
  each of the files.
-/

namespace Solidc.Multiwriter

open CLib CLib.Fds

/-! ## The copying loop -/

/-- Where a copying child is: before the `read`, before the `write` of the byte `b` of the
`block` to `fd`, with `left` and the other descriptors to come, or before its `exit`. -/
inductive Tee where
  | reading
  | writing (block : List UInt8) (b : UInt8) (left : List UInt8) (fd : Nat) (fds : List Nat)
  | finished

namespace Tee

/-- The block goes to the next descriptor, or the loop reads again. -/
def start (block : List UInt8) : List Nat → Tee
  | [] => .reading
  | fd :: fds =>
    match block with
    | [] => .reading
    | b :: left => .writing block b left fd fds

/-- The next byte of the block goes to the same descriptor. -/
def advance (block : List UInt8) : List UInt8 → Nat → List Nat → Tee
  | [], _, fds => start block fds
  | b :: left, fd, fds => .writing block b left fd fds

/-- The result of the `read`: nothing at the end and none on failure, which end the loop. -/
def got (all : List Nat) : Option (List UInt8) → Tee
  | some (b :: block) => start (b :: block) all
  | _ => .finished

/-- The loop of a copying child. -/
def act (readFd : Nat) (all : List Nat) : Tee → Act UInt8 Tee
  | .reading => .read readFd 4096 (got all)
  | .writing block b left fd fds =>
    .write fd b fun ok => if ok then advance block left fd fds else .finished
  | .finished => .exit

variable {drain : Prop} {readFd k : Nat} {all fds : List Nat} {fd : Nat} {block rest : List UInt8}

/-- What is still to be written to the descriptor `fd'` when the block has been copied to all
but `fds`, and the input to come is `rest`. -/
def toCopy (all : List Nat) (block rest : List UInt8) (fds : List Nat) (fd' : Nat) : List UInt8 :=
  if fd' ∈ fds then block ++ rest else if fd' ∈ all then rest else []

/-- Copying the rest of a block to one descriptor. -/
theorem advance_runs (hfd : fd ∈ all) (hnew : fd ∉ fds)
    (h : Runs (act readFd all) readFd drain k (start block fds) rest
      (Tee.toCopy all block rest fds))
    (left : List UInt8) :
    Runs (act readFd all) readFd drain (k + left.length) (advance block left fd fds) rest
      (Function.update (Tee.toCopy all block rest fds) fd (left ++ rest)) := by
  induction left with
  | nil =>
    have hsame : Function.update (Tee.toCopy all block rest fds) fd ([] ++ rest) =
        Tee.toCopy all block rest fds := by
      refine Function.update_eq_self_iff.mpr ?_
      simp [Tee.toCopy, hnew, hfd]
    rw [hsame]
    exact h
  | cons b left ih =>
    refine .write rfl (by rw [Function.update_self]; rfl) ?_
    rw [Function.update_idem]
    exact ih

variable (fds) in
/-- Copying a block to the descriptors `fds`. -/
theorem start_runs (hne : block ≠ []) (hsub : ∀ fd ∈ fds, fd ∈ all) (hnodup : fds.Nodup)
    (h : Runs (act readFd all) readFd drain k .reading rest (Tee.toCopy all block rest [])) :
    Runs (act readFd all) readFd drain (k + block.length * fds.length) (start block fds) rest
      (Tee.toCopy all block rest fds) := by
  induction fds with
  | nil => exact h
  | cons fd fds ih =>
    obtain ⟨hnew, hnodup⟩ := List.nodup_cons.mp hnodup
    have hrest := ih (fun fd' hfd' => hsub fd' (List.mem_cons_of_mem _ hfd')) hnodup
    obtain ⟨b, left, rfl⟩ := List.exists_cons_of_ne_nil hne
    have hall := advance_runs (hsub fd List.mem_cons_self) hnew hrest (b :: left)
    have houts : Function.update (Tee.toCopy all (b :: left) rest fds) fd (b :: left ++ rest) =
        Tee.toCopy all (b :: left) rest (fd :: fds) := by
      funext fd'
      by_cases hfd' : fd' = fd
      · subst hfd'
        simp [Tee.toCopy]
      · simp [Tee.toCopy, hfd']
    rw [houts] at hall
    have hsteps : k + (b :: left).length * (fds.length + 1) =
        k + (b :: left).length * fds.length + (b :: left).length := by
      rw [Nat.mul_succ, Nat.add_assoc]
    exact hsteps ▸ hall

end Tee

/-- The copying loop writes its whole input to each of the descriptors. -/
theorem tee_runs {drain : Prop} {readFd : Nat} {all : List Nat} (hnodup : all.Nodup)
    (xs : List UInt8) :
    Runs (Tee.act readFd all) readFd drain (xs.length * (all.length + 1) + 2) .reading xs
      fun fd => if fd ∈ all then xs else [] := by
  induction hlen : xs.length using Nat.strong_induction_on generalizing xs with
  | h n ih =>
    subst hlen
    by_cases hxs : xs = []
    · subst hxs
      refine .mono (.eof rfl (by decide) (.exit (k := 0) rfl (fun _ => rfl) ?_)) (by simp)
      intro fd
      exact ite_self _
    · have hpos := List.length_pos_iff.mpr hxs
      rw [show xs.length * (all.length + 1) + 2 = (xs.length * (all.length + 1) + 1) + 1 from rfl]
      refine .read rfl (by decide) hxs ?_
      intro c rest hcut hc hlen
      have hcpos := List.length_pos_iff.mpr hc
      have hlengths : xs.length = c.length + rest.length := by rw [hcut, List.length_append]
      have hrest := ih rest.length (by omega) rest rfl
      have hstart := Tee.start_runs all hc (fun _ h => h) hnodup (by
        have hnil : Tee.toCopy all c rest [] = fun fd => if fd ∈ all then rest else [] := by
          funext fd
          simp [Tee.toCopy]
        rw [hnil]
        exact hrest)
      have houts : Tee.toCopy all c rest all = fun fd => if fd ∈ all then xs else [] := by
        funext fd
        unfold Tee.toCopy
        split_ifs <;> simp [hcut]
      rw [houts] at hstart
      obtain ⟨b, block, rfl⟩ := List.exists_cons_of_ne_nil hc
      refine hstart.mono ?_
      rw [hlengths, Nat.add_mul, Nat.mul_succ (b :: block).length]
      omega

/-! ## The processes -/

/-- The reading and writing ends that `pipe` gives for `stdout_pipe` and `stderr_pipe`. -/
structure Ends where
  out : Nat × Nat
  err : Nat × Nat

/-- A program: that of the command, or the copying loop of a child with the descriptor it
reads and those it writes to. -/
inductive Prog (σ : Type*) where
  | cmd (s : σ)
  | tee (readFd : Nat) (all : List Nat) (s : Tee)

def Prog.act {σ : Type*} (act : σ → Act UInt8 σ) : Prog σ → Act UInt8 (Prog σ)
  | .cmd s => (act s).map .cmd
  | .tee readFd all s => (Tee.act readFd all s).map (.tee readFd all)

/-- What `execv` makes of the command, if it succeeds, its system calls, the two lists of
descriptors, the size of a pipe, and whether `pipe` and `fork` may fail. -/
structure Config (σ : Type*) where
  program : Option σ
  act : σ → Act UInt8 σ
  outputFds : List Nat
  errorFds : List Nat
  capacity : Nat
  faults : Bool

/-- Where `process_run_with_multiwriter` is: before its calls of `pipe` and `fork` and the
`close` of its ends, at the `waitpid` for the command, or at a `wait` with the number of
children that it counts. After a `fork` that failed it waits for `n` children, starting with
`i`. -/
inductive ParentPC where
  | pipeOut
  | pipeErr
  | forkCmd
  | closeOut
  | closeErr
  | forkOutTee
  | forkErrTee
  | closeReadOut
  | closeReadErr
  | waitCmd
  | wait (childCount : Nat)
  | returned
  | abort (i n : Nat)
deriving DecidableEq

/-- Where a child is: the command before the call number `n` that connects its outputs, in
its program, or at its end. -/
inductive ChildPC (σ : Type*) where
  | unborn
  | setup (n : Nat)
  | running (s : Prog σ)
  | ended
  | killed
  | reaped

def ChildPC.after {σ : Type*} : Outcome (Prog σ) → ChildPC σ
  | .running s => .running s
  | .ended => .ended
  | .killed => .killed

/-- The parent is the process `none`; the children are the command and the two copying loops.
`cmdExited` is `WIFEXITED(cmd_status)`. -/
structure World (σ F : Type*) where
  kernel : Kernel (Option Nat) F
  pc : ParentPC
  child : Nat → ChildPC σ
  cmdExited : Bool

variable {σ F : Type*}

def World.initial (base : Nat → Option F) (input output : F → List UInt8) : World σ F where
  kernel := .start base input output
  pc := .pipeOut
  child _ := .unborn
  cmdExited := false

/-- The calls of the command before `execv`. -/
def cmdCall (e : Ends) (t : Fds F) : Nat → Fds F
  | 0 => t.close e.out.1
  | 1 => t.close e.err.1
  | 2 => t.dup2 e.out.2 1
  | 3 => t.dup2 e.err.2 2
  | 4 => t.close e.out.2
  | _ => t.close e.err.2

namespace Config

variable (cfg : Config σ) (e : Ends)

/-- The program of a child that copies. -/
def teeProg (i : Nat) : Prog σ :=
  if i = 1 then .tee e.out.1 cfg.outputFds .reading else .tee e.err.1 cfg.errorFds .reading

/-- A child makes a system call. -/
inductive ChildStep [DecidableEq F] (w : World σ F) (i : Nat) : World σ F → Prop
  | setup {n : Nat} : w.child i = .setup n → n < 6 →
      ChildStep w i { w with
        kernel := w.kernel.setFds (some i) (cmdCall e (w.kernel.fds (some i)) n)
        child := Function.update w.child i (.setup (n + 1)) }
  | exec {n : Nat} {s : σ} : w.child i = .setup n → 6 ≤ n → cfg.program = some s →
      ChildStep w i { w with child := Function.update w.child i (.running (.cmd s)) }
  | execFails {n : Nat} : w.child i = .setup n → 6 ≤ n → cfg.program = none →
      ChildStep w i { w with
        kernel := w.kernel.exit (some i)
        child := Function.update w.child i .ended }
  | call {s : Prog σ} {o : Outcome (Prog σ)} {k : Kernel (Option Nat) F} :
      w.child i = .running s →
      w.kernel.Call (Prog.act cfg.act) cfg.capacity (some i) s o k →
      ChildStep w i { w with kernel := k, child := Function.update w.child i (.after o) }

/-- The parent with another table, at another program point. -/
def goto (w : World σ F) (t : Fds F) (pc : ParentPC) : World σ F :=
  { w with kernel := w.kernel.setFds none t, pc := pc }

/-- The parent forks the child `i`. -/
def forked (w : World σ F) (i : Nat) (pc : ChildPC σ) (next : ParentPC) : World σ F :=
  { w with
    kernel := w.kernel.fork none (some i)
    pc := next
    child := Function.update w.child i pc }

/-- The parent makes a system call; after a failure it closes its ends first. The pipes are at
the descriptors `e`, which have to be free. -/
inductive ParentStep (w : World σ F) : World σ F → Prop
  | pipeOut : w.pc = .pipeOut → w.kernel.fds none e.out.1 = none →
      w.kernel.fds none e.out.2 = none → e.out.1 ≠ e.out.2 →
      ParentStep w (goto w (((w.kernel.fds none).openAt e.out.1 (.readEnd 0)).openAt e.out.2
        (.writeEnd 0)) .pipeErr)
  | pipeOutFails : cfg.faults = true → w.pc = .pipeOut →
      ParentStep w { w with pc := .abort 0 0 }
  | pipeErr : w.pc = .pipeErr → w.kernel.fds none e.err.1 = none →
      w.kernel.fds none e.err.2 = none → e.err.1 ≠ e.err.2 →
      ParentStep w (goto w (((w.kernel.fds none).openAt e.err.1 (.readEnd 1)).openAt e.err.2
        (.writeEnd 1)) .forkCmd)
  | pipeErrFails : cfg.faults = true → w.pc = .pipeErr →
      ParentStep w (goto w (((w.kernel.fds none).close e.out.1).close e.out.2) (.abort 0 0))
  | forkCmd : w.pc = .forkCmd → ParentStep w (forked w 0 (.setup 0) .closeOut)
  | forkCmdFails : cfg.faults = true → w.pc = .forkCmd →
      ParentStep w (goto w (((((w.kernel.fds none).close e.out.1).close e.out.2).close
        e.err.1).close e.err.2) (.abort 0 0))
  | closeOut : w.pc = .closeOut →
      ParentStep w (goto w ((w.kernel.fds none).close e.out.2) .closeErr)
  | closeErr : w.pc = .closeErr →
      ParentStep w (goto w ((w.kernel.fds none).close e.err.2) .forkOutTee)
  | forkOutTee : w.pc = .forkOutTee →
      ParentStep w (forked w 1 (.running (cfg.teeProg e 1)) .forkErrTee)
  | forkOutTeeFails : cfg.faults = true → w.pc = .forkOutTee →
      ParentStep w (goto w (((w.kernel.fds none).close e.out.1).close e.err.1) (.abort 0 1))
  | forkErrTee : w.pc = .forkErrTee →
      ParentStep w (forked w 2 (.running (cfg.teeProg e 2)) .closeReadOut)
  | forkErrTeeFails : cfg.faults = true → w.pc = .forkErrTee →
      ParentStep w (goto w (((w.kernel.fds none).close e.out.1).close e.err.1) (.abort 0 2))
  | closeReadOut : w.pc = .closeReadOut →
      ParentStep w (goto w ((w.kernel.fds none).close e.out.1) .closeReadErr)
  | closeReadErr : w.pc = .closeReadErr →
      ParentStep w (goto w ((w.kernel.fds none).close e.err.1) .waitCmd)
  | waitCmdExited : w.pc = .waitCmd → w.child 0 = .ended →
      ParentStep w { w with
        pc := .wait 3
        child := Function.update w.child 0 .reaped
        cmdExited := true }
  | waitCmdKilled : w.pc = .waitCmd → w.child 0 = .killed →
      ParentStep w { w with pc := .wait 3, child := Function.update w.child 0 .reaped }
  | wait {c i : Nat} : w.pc = .wait (c + 1) → 1 ≤ c → w.child i = .ended ∨ w.child i = .killed →
      ParentStep w { w with pc := .wait c, child := Function.update w.child i .reaped }
  | leave {c : Nat} : w.pc = .wait c → c ≤ 1 → ParentStep w { w with pc := .returned }
  | waitAborted {i n : Nat} : w.pc = .abort i n → i < n →
      w.child i = .ended ∨ w.child i = .killed →
      ParentStep w { w with
        pc := .abort (i + 1) n
        child := Function.update w.child i .reaped }

/-- Calls of `process_run_with_multiwriter` with the files `base` open in the calling
process, which has no other children. -/
def multiwriter [DecidableEq F] (base : Nat → Option F) (input output : F → List UInt8) :
    System (World σ F) (Option Nat) where
  init w := w = .initial base input output
  step w a w' :=
    match a with
    | none => cfg.ParentStep e w w'
    | some i => cfg.ChildStep e w i w'

end Config

/-! ## The descriptor tables -/

/-- The ends of the pipes are at different descriptors that no inherited file has. -/
structure Ends.Free (e : Ends) (base : Nat → Option F) : Prop where
  out_read : base e.out.1 = none
  out_write : base e.out.2 = none
  err_read : base e.err.1 = none
  err_write : base e.err.2 = none
  out_ne : e.out.1 ≠ e.out.2
  err_ne : e.err.1 ≠ e.err.2
  read_ne : e.out.1 ≠ e.err.1
  write_ne : e.out.2 ≠ e.err.2
  cross : e.out.1 ≠ e.err.2
  cross' : e.out.2 ≠ e.err.1

/-- The table with the reading ends, that of the children that copy. -/
def readTable (base : Nat → Option F) (e : Ends) : Fds F :=
  ((inherited base).openAt e.out.1 (.readEnd 0)).openAt e.err.1 (.readEnd 1)

/-- The table with both pipes. -/
def pipesTable (base : Nat → Option F) (e : Ends) : Fds F :=
  ((readTable base e).openAt e.err.2 (.writeEnd 1)).openAt e.out.2 (.writeEnd 0)

/-- The table of the parent at each of its program points. -/
def parentTable (base : Nat → Option F) (e : Ends) : ParentPC → Fds F
  | .pipeErr =>
    ((inherited base).openAt e.out.1 (.readEnd 0)).openAt e.out.2 (.writeEnd 0)
  | .forkCmd | .closeOut => pipesTable base e
  | .closeErr => (readTable base e).openAt e.err.2 (.writeEnd 1)
  | .forkOutTee | .forkErrTee | .closeReadOut => readTable base e
  | .closeReadErr => (inherited base).openAt e.err.1 (.readEnd 1)
  | _ => inherited base

/-- The table of the command before its call number `n`. -/
def cmdTable (base : Nat → Option F) (e : Ends) : Nat → Fds F
  | 0 => pipesTable base e
  | n + 1 => cmdCall e (cmdTable base e n) n

/-- The table of a child at each of its program points. -/
def childTable (base : Nat → Option F) (e : Ends) (i : Nat) : ChildPC σ → Fds F
  | .setup n => cmdTable base e n
  | .running _ => if i = 0 then cmdTable base e 6 else readTable base e
  | _ => fun _ => none

/-- How many children have been forked. -/
def ParentPC.born : ParentPC → Nat
  | .pipeOut | .pipeErr | .forkCmd => 0
  | .closeOut | .closeErr | .forkOutTee => 1
  | .forkErrTee => 2
  | .abort _ n => n
  | _ => 3

def ChildPC.unreaped : ChildPC σ → Bool
  | .reaped => false
  | _ => true

/-- While it waits, the parent knows how many children it has still to wait for. -/
def World.Counted (w : World σ F) : Prop :=
  match w.pc with
  | .wait c => slotCount 3 w.child ChildPC.unreaped + 1 = c
  | .returned => slotCount 3 w.child ChildPC.unreaped = 0
  | .abort _ _ => True
  | _ => ∀ i, w.child i ≠ .reaped

/-- The tables are those of the program points, and the parent counts its children. -/
structure World.Inv (e : Ends) (base : Nat → Option F) (w : World σ F) : Prop where
  parent : w.kernel.fds none = parentTable base e w.pc
  table : ∀ i, w.kernel.fds (some i) = childTable base e i (w.child i)
  born : ∀ i, w.child i = .unborn ↔ w.pc.born ≤ i
  setup : ∀ i n, w.child i = .setup n → i = 0 ∧ n ≤ 6
  counted : w.Counted

variable {cfg : Config σ} {e : Ends} {base : Nat → Option F} {w w' : World σ F} {i : Nat}

theorem readTable_eq_none {fd : Nat} (h1 : fd ≠ e.out.1) (h2 : fd ≠ e.err.1)
    (hfd : base fd = none) : readTable base e fd = none := by
  rw [readTable, Fds.openAt_ne h2, Fds.openAt_ne h1]
  exact inherited_eq_none.mpr hfd

/-- What the parent's calls make of its table. -/
theorem pipesTable_eq (he : e.Free base) :
    ((((inherited base).openAt e.out.1 (.readEnd 0)).openAt e.out.2 (.writeEnd 0)).openAt e.err.1
      (.readEnd 1)).openAt e.err.2 (.writeEnd 1) = pipesTable base e := by
  rw [pipesTable, readTable, Fds.openAt_comm he.cross', Fds.openAt_comm he.write_ne]

theorem close_out (he : e.Free base) :
    (pipesTable base e).close e.out.2 = (readTable base e).openAt e.err.2 (.writeEnd 1) := by
  refine Fds.close_openAt ?_
  rw [Fds.openAt_ne he.write_ne]
  exact readTable_eq_none he.out_ne.symm he.cross' he.out_write

theorem close_err (he : e.Free base) :
    ((readTable base e).openAt e.err.2 (.writeEnd 1)).close e.err.2 = readTable base e :=
  Fds.close_openAt (readTable_eq_none he.cross.symm he.err_ne.symm he.err_write)

theorem close_readOut (he : e.Free base) :
    (readTable base e).close e.out.1 = (inherited base).openAt e.err.1 (.readEnd 1) := by
  rw [readTable, Fds.openAt_comm he.read_ne, Fds.close_openAt]
  rw [Fds.openAt_ne he.read_ne]
  exact inherited_eq_none.mpr he.out_read

theorem close_readErr (he : e.Free base) :
    ((inherited base).openAt e.err.1 (.readEnd 1)).close e.err.1 = inherited base :=
  Fds.close_openAt (inherited_eq_none.mpr he.err_read)

theorem close_first (he : e.Free base) :
    ((((inherited base).openAt e.out.1 (.readEnd 0)).openAt e.out.2 (.writeEnd 0)).close
      e.out.1).close e.out.2 = inherited base := by
  rw [Fds.openAt_comm he.out_ne, Fds.close_openAt, Fds.close_openAt]
  · exact inherited_eq_none.mpr he.out_write
  · rw [Fds.openAt_ne he.out_ne]
    exact inherited_eq_none.mpr he.out_read

theorem close_reads (he : e.Free base) :
    ((readTable base e).close e.out.1).close e.err.1 = inherited base := by
  rw [close_readOut he, close_readErr he]

theorem close_all (he : e.Free base) :
    ((((pipesTable base e).close e.out.1).close e.out.2).close e.err.1).close e.err.2 =
      inherited base := by
  rw [Fds.close_comm _ e.out.1 e.out.2, close_out he, Fds.close_comm _ e.err.1 e.err.2,
    Fds.close_comm _ e.out.1 e.err.2, close_err he, close_reads he]

/-! ## The invariant -/

theorem initial_inv (input output : F → List UInt8) :
    (World.initial base input output : World σ F).Inv e base where
  parent := rfl
  table i := rfl
  born i := by simp [World.initial, ParentPC.born]
  setup i n h := by cases h
  counted i h := by cases h

theorem unreaped_of_ne {pc : ChildPC σ} (h : pc ≠ .reaped) : pc.unreaped = true := by
  cases pc with
  | reaped => exact absurd rfl h
  | _ => rfl

theorem update_ne_reaped {f : Nat → ChildPC σ} {pc : ChildPC σ} (hf : ∀ i, f i ≠ .reaped)
    (hpc : pc ≠ .reaped) (j : Nat) : Function.update f i pc j ≠ .reaped := by
  by_cases hj : j = i
  · subst hj
    rwa [Function.update_self]
  · rw [Function.update_of_ne hj]
    exact hf j

/-- A step of the child `i`, which had not been waited for. -/
theorem World.Inv.child (h : w.Inv e base) {k : Kernel (Option Nat) F} {pc : ChildPC σ}
    (hlive : w.child i ≠ .unborn) (hpc : pc ≠ .unborn) (hset : ∀ n, pc = .setup n → i = 0 ∧ n ≤ 6)
    (hself : k.fds (some i) = childTable base e i pc)
    (hothers : ∀ q, q ≠ some i → k.fds q = w.kernel.fds q)
    (hold : (w.child i).unreaped = true) (hnew : pc.unreaped = true) :
    World.Inv e base { w with kernel := k, child := Function.update w.child i pc } where
  parent := (hothers none (by simp)).trans h.parent
  table j := by
    by_cases hj : j = i
    · subst hj
      simpa using hself
    · have hne : some j ≠ some i := fun he => hj (Option.some.inj he)
      simpa [Function.update_of_ne hj, hothers (some j) hne] using h.table j
  born j := by
    by_cases hj : j = i
    · subst hj
      have hborn : ¬ w.pc.born ≤ j := fun hle => hlive ((h.born j).mpr hle)
      simpa [hpc] using hborn
    · simpa [Function.update_of_ne hj] using h.born j
  setup j n := by
    by_cases hj : j = i
    · subst hj
      simpa using hset n
    · simpa [Function.update_of_ne hj] using h.setup j n
  counted := by
    have hcount : slotCount 3 (Function.update w.child i pc) ChildPC.unreaped =
        slotCount 3 w.child ChildPC.unreaped := by
      refine slotCount_congr fun j _ => ?_
      by_cases hj : j = i
      · subst hj
        rw [Function.update_self, hold, hnew]
      · rw [Function.update_of_ne hj]
    have hnone : (∀ j, w.child j ≠ .reaped) → ∀ j, Function.update w.child i pc j ≠ .reaped :=
      fun hall => update_ne_reaped hall (by rintro rfl; cases hnew)
    have hcounted := h.counted
    unfold World.Counted at hcounted ⊢
    cases hpc' : w.pc <;> rw [hpc'] at hcounted <;> simp only at hcounted ⊢ <;>
      first
        | exact hnone hcounted
        | exact hcount ▸ hcounted

/-- A call of the parent that changes only its own table. -/
theorem World.Inv.goto (h : w.Inv e base) {t : Fds F} {pc : ParentPC}
    (ht : t = parentTable base e pc) (hborn : pc.born = w.pc.born)
    (hcounted : (Config.goto w t pc).Counted) : (Config.goto w t pc).Inv e base where
  parent := Kernel.setFds_self.trans ht
  table i := (Kernel.setFds_ne (by simp)).trans (h.table i)
  born i := by
    show w.child i = .unborn ↔ pc.born ≤ i
    rw [hborn]
    exact h.born i
  setup := h.setup
  counted := hcounted

/-- The parent forks the next child. -/
theorem World.Inv.forked (h : w.Inv e base) {pc : ChildPC σ} {next : ParentPC}
    (hi : w.pc.born = i) (hnext : next.born = i + 1)
    (hparent : parentTable base e next = parentTable base e w.pc)
    (hself : childTable base e i pc = parentTable base e w.pc) (hpc : pc ≠ .unborn)
    (hset : ∀ n, pc = .setup n → i = 0 ∧ n ≤ 6)
    (hcounted : (Config.forked w i pc next).Counted) : (Config.forked w i pc next).Inv e base where
  parent := (Kernel.setFds_ne (by simp)).trans (h.parent.trans hparent.symm)
  table j := by
    show (w.kernel.fork none (some i)).fds (some j) =
      childTable base e j (Function.update w.child i pc j)
    by_cases hj : j = i
    · subst hj
      simp [Kernel.fork, h.parent, hself]
    · have hne : some j ≠ some i := fun he => hj (Option.some.inj he)
      rw [Function.update_of_ne hj, Kernel.fork, Kernel.setFds_ne hne]
      exact h.table j
  born j := by
    show Function.update w.child i pc j = .unborn ↔ next.born ≤ j
    by_cases hj : j = i
    · subst hj
      simp [hpc, hnext]
    · rw [Function.update_of_ne hj, h.born j]
      omega
  setup j n := by
    show Function.update w.child i pc j = .setup n → j = 0 ∧ n ≤ 6
    by_cases hj : j = i
    · subst hj
      simpa using hset n
    · rw [Function.update_of_ne hj]
      exact h.setup j n
  counted := hcounted

theorem World.Inv.childStep [DecidableEq F] (h : w.Inv e base)
    (hstep : cfg.ChildStep e w i w') : w'.Inv e base := by
  have htable := h.table i
  cases hstep with
  | @setup n hs hn =>
    obtain ⟨rfl, -⟩ := h.setup i n hs
    rw [hs] at htable
    refine h.child (by simp [hs]) (by simp) ?_ ?_ (fun q hq => Kernel.setFds_ne hq)
      (by rw [hs]; rfl)
      rfl
    · intro m hm
      cases hm
      exact ⟨rfl, hn⟩
    · rw [Kernel.setFds_self, htable]
      rfl
  | @exec n s hs hn =>
    obtain ⟨rfl, hle⟩ := h.setup i n hs
    obtain rfl : n = 6 := Nat.le_antisymm hle hn
    rw [hs] at htable
    exact h.child (by simp [hs]) (by simp) (by simp) htable (fun _ _ => rfl) (by rw [hs]; rfl) rfl
  | @execFails n hs hn =>
    exact h.child (by simp [hs]) (by simp) (by simp) (funext fun fd => Kernel.exit_self fd)
      (fun q hq => Kernel.exit_ne hq) (by rw [hs]; rfl) rfl
  | @call s o k hs hcall =>
    rw [hs] at htable
    refine h.child (by simp [hs]) (by cases o <;> simp [ChildPC.after])
      (by cases o <;> simp [ChildPC.after]) ?_ (fun q hq => hcall.fds_ne hq) (by rw [hs]; rfl)
      (by cases o <;> rfl)
    cases o with
    | running s' => exact (congrFun hcall.fds_running _).trans htable
    | ended | killed => exact hcall.fds_over rfl

theorem slotCount_unreaped (h : ∀ j, w.child j ≠ .reaped) :
    slotCount 3 w.child ChildPC.unreaped = 3 := by
  refine Nat.le_antisymm slotCount_le (Nat.le_of_not_lt fun hlt => ?_)
  obtain ⟨j, -, hj⟩ := exists_of_slotCount_lt hlt
  rw [unreaped_of_ne (h j)] at hj
  cases hj

/-- A child that the parent waits for is not waited for again. -/
theorem reap_count (hi : i < 3) (hold : (w.child i).unreaped = true) :
    slotCount 3 (Function.update w.child i .reaped) ChildPC.unreaped + 1 =
      slotCount 3 w.child ChildPC.unreaped := by
  have hcount := slotCount_update (f := w.child) (q := ChildPC.unreaped) hi .reaped
  rw [hold] at hcount
  simpa [ChildPC.unreaped] using hcount

/-- The parent waits for the child `i`, and goes on. -/
theorem World.Inv.reap (h : w.Inv e base) {pc : ParentPC} {exited : Bool}
    (hend : w.child i = .ended ∨ w.child i = .killed) (hborn : pc.born = w.pc.born)
    (hparent : parentTable base e pc = parentTable base e w.pc)
    (hcounted : World.Counted { w with
      pc := pc, child := Function.update w.child i .reaped, cmdExited := exited }) :
    World.Inv e base { w with
      pc := pc, child := Function.update w.child i .reaped, cmdExited := exited } where
  parent := h.parent.trans hparent.symm
  table j := by
    by_cases hj : j = i
    · subst hj
      have htable := h.table j
      rcases hend with hs | hs <;> rw [hs] at htable <;> simpa [childTable] using htable
    · simpa [Function.update_of_ne hj] using h.table j
  born j := by
    show Function.update w.child i .reaped j = .unborn ↔ pc.born ≤ j
    rw [hborn]
    by_cases hj : j = i
    · subst hj
      have hold := h.born j
      rcases hend with hs | hs <;> rw [hs] at hold <;> simpa using hold
    · rw [Function.update_of_ne hj]
      exact h.born j
  setup j n := by
    by_cases hj : j = i
    · subst hj
      simp
    · simpa [Function.update_of_ne hj] using h.setup j n
  counted := hcounted

theorem World.Inv.lt_born (h : w.Inv e base) (hs : w.child i ≠ .unborn) : i < w.pc.born := by
  by_contra hle
  exact hs ((h.born i).mpr (by omega))

theorem World.Inv.parentStep (h : w.Inv e base) (he : e.Free base)
    (hstep : cfg.ParentStep e w w') : w'.Inv e base := by
  have hparent := h.parent
  have hcounted := h.counted
  unfold World.Counted at hcounted
  cases hstep with
  | pipeOut hpc | closeOut hpc | closeErr hpc | closeReadOut hpc | closeReadErr hpc
  | pipeErr hpc =>
    rw [hpc] at hparent
    simp only [hpc] at hcounted
    refine h.goto ?_ (by rw [hpc]; rfl) hcounted
    rw [hparent]
    first
      | rfl
      | exact close_out he
      | exact close_err he
      | exact close_readOut he
      | exact close_readErr he
      | exact pipesTable_eq he
  | pipeErrFails _ hpc | forkCmdFails _ hpc | forkOutTeeFails _ hpc | forkErrTeeFails _ hpc =>
    rw [hpc] at hparent
    refine h.goto ?_ (by rw [hpc]; rfl) trivial
    rw [hparent]
    first
      | exact close_first he
      | exact close_all he
      | exact close_reads he
  | pipeOutFails _ hpc =>
    rw [hpc] at hparent
    exact ⟨hparent, h.table, by simpa [hpc, ParentPC.born] using h.born, h.setup, trivial⟩
  | forkCmd hpc | forkOutTee hpc | forkErrTee hpc =>
    simp only [hpc] at hcounted
    refine h.forked (by rw [hpc]; rfl) rfl (by rw [hpc]; rfl) (by rw [hpc]; rfl) (by simp)
      (by simp) ?_
    intro j
    exact update_ne_reaped hcounted (by simp) j
  | waitCmdExited hpc hend | waitCmdKilled hpc hend =>
    have hborn := h.lt_born (i := 0) (by simp [hend])
    refine h.reap (by simp [hend]) (by rw [hpc]; rfl) (by rw [hpc]; rfl) ?_
    have hcount := reap_count (w := w) (i := 0) (by decide) (by rw [hend]; rfl)
    simp only [hpc] at hcounted
    exact hcount.trans (slotCount_unreaped hcounted)
  | @wait c j hpc hc hend =>
    have hborn := h.lt_born (i := j) (by rcases hend with hj | hj <;> simp [hj])
    rw [hpc] at hborn
    refine h.reap hend (by rw [hpc]; rfl) (by rw [hpc]; rfl) ?_
    have hcount := reap_count (w := w) (i := j) hborn
      (by rcases hend with hj | hj <;> rw [hj] <;> rfl)
    simp only [hpc] at hcounted
    show slotCount 3 (Function.update w.child j .reaped) ChildPC.unreaped + 1 = c
    omega
  | @leave c hpc hc =>
    rw [hpc] at hparent
    simp only [hpc] at hcounted
    refine ⟨hparent, h.table, by simpa [hpc, ParentPC.born] using h.born, h.setup, ?_⟩
    show slotCount 3 w.child ChildPC.unreaped = 0
    omega
  | @waitAborted j n hpc hj hend =>
    exact h.reap hend (by rw [hpc]; rfl) (by rw [hpc]; rfl) trivial

theorem reach_inv [DecidableEq F] {input output : F → List UInt8} (he : e.Free base)
    (h : Reach (cfg.multiwriter e base input output) AnyStep w) : w.Inv e base := by
  refine h.invariant _ ?_ ?_
  · rintro w rfl
    exact initial_inv input output
  · intro w a w' hinv _ hstep
    cases a with
    | none => exact hinv.parentStep he hstep
    | some i => exact hinv.childStep hstep

/-! ## The descriptors of the programs -/

/-- The standard input is the file `fin`. The standard outputs are open, and the descriptors
to copy to are open on files of their own. -/
structure Config.Files (cfg : Config σ) (base : Nat → Option F) (fin : F) : Prop where
  stdin : base 0 = some fin
  stdout : base 1 ≠ none
  stderr : base 2 ≠ none
  opened : ∀ fd ∈ cfg.outputFds ++ cfg.errorFds, base fd ≠ none
  distinct : ((cfg.outputFds ++ cfg.errorFds).map base).Nodup

/-- The table of the command, call by call. -/
theorem cmdTable_one (he : e.Free base) : cmdTable base e 1 =
    (((inherited base).openAt e.err.1 (.readEnd 1)).openAt e.err.2 (.writeEnd 1)).openAt e.out.2
      (.writeEnd 0) := by
  show (pipesTable base e).close e.out.1 = _
  rw [pipesTable, Fds.close_openAt_ne he.out_ne.symm, Fds.close_openAt_ne he.cross.symm,
    close_readOut he]

theorem cmdTable_two (he : e.Free base) : cmdTable base e 2 =
    ((inherited base).openAt e.err.2 (.writeEnd 1)).openAt e.out.2 (.writeEnd 0) := by
  show (cmdTable base e 1).close e.err.1 = _
  rw [cmdTable_one he, Fds.close_openAt_ne he.cross', Fds.close_openAt_ne he.err_ne.symm,
    close_readErr he]

theorem cmdTable_three (he : e.Free base) :
    cmdTable base e 3 = (cmdTable base e 2).openAt 1 (.writeEnd 0) := by
  refine Fds.dup2_of_open ?_
  rw [cmdTable_two he]
  exact Fds.openAt_self

theorem cmdTable_four (he : e.Free base) (hout : base 1 ≠ none) : cmdTable base e 4 =
    ((cmdTable base e 2).openAt 1 (.writeEnd 0)).openAt 2 (.writeEnd 1) := by
  have hne : e.err.2 ≠ 1 := fun heq => hout (heq ▸ he.err_write)
  rw [← cmdTable_three he]
  refine Fds.dup2_of_open ?_
  rw [cmdTable_three he, Fds.openAt_ne hne, cmdTable_two he, Fds.openAt_ne he.write_ne.symm]
  exact Fds.openAt_self

theorem cmdTable_five (he : e.Free base) (hout : base 1 ≠ none) (herr : base 2 ≠ none) :
    cmdTable base e 5 = (((inherited base).openAt e.err.2 (.writeEnd 1)).openAt 1
      (.writeEnd 0)).openAt 2 (.writeEnd 1) := by
  have h1 : (1 : Nat) ≠ e.out.2 := fun heq => hout (heq ▸ he.out_write)
  have h2 : (2 : Nat) ≠ e.out.2 := fun heq => herr (heq ▸ he.out_write)
  show (cmdTable base e 4).close e.out.2 = _
  rw [cmdTable_four he hout, Fds.close_openAt_ne h2, Fds.close_openAt_ne h1, cmdTable_two he,
    Fds.close_openAt]
  rw [Fds.openAt_ne he.write_ne]
  exact inherited_eq_none.mpr he.out_write

/-- The command runs with the writing ends of the pipes as its outputs, and no other end. -/
theorem cmdTable_six (he : e.Free base) (hout : base 1 ≠ none) (herr : base 2 ≠ none) :
    cmdTable base e 6 =
      ((inherited base).openAt 1 (.writeEnd 0)).openAt 2 (.writeEnd 1) := by
  have h1 : (1 : Nat) ≠ e.err.2 := fun heq => hout (heq ▸ he.err_write)
  have h2 : (2 : Nat) ≠ e.err.2 := fun heq => herr (heq ▸ he.err_write)
  show (cmdTable base e 5).close e.err.2 = _
  rw [cmdTable_five he hout herr, Fds.close_openAt_ne h2, Fds.close_openAt_ne h1,
    Fds.close_openAt (inherited_eq_none.mpr he.err_write)]

/-- Until it ends, the command holds the writing ends of both pipes. -/
theorem cmdTable_writeEnd (he : e.Free base) (hout : base 1 ≠ none) (herr : base 2 ≠ none)
    {n : Nat} (hn : n ≤ 6) {j : Nat} (hj : j = 0 ∨ j = 1) :
    ∃ fd, cmdTable base e n fd = some (.writeEnd j) := by
  have h21 : (2 : Nat) ≠ 1 := by decide
  have hw1 : e.out.2 ≠ 1 := fun heq => hout (heq ▸ he.out_write)
  have he1 : e.err.2 ≠ 1 := fun heq => hout (heq ▸ he.err_write)
  have hwrites : ∀ t : Fds F, (t.openAt e.err.2 (.writeEnd 1)).openAt e.out.2 (.writeEnd 0)
      e.out.2 = some (.writeEnd 0) ∧ (t.openAt e.err.2 (.writeEnd 1)).openAt e.out.2 (.writeEnd 0)
      e.err.2 = some (.writeEnd 1) :=
    fun t => ⟨Fds.openAt_self, by rw [Fds.openAt_ne he.write_ne.symm, Fds.openAt_self]⟩
  have hstd : ∀ t : Fds F, (t.openAt 1 (.writeEnd 0)).openAt 2 (.writeEnd 1) 1 =
      some (.writeEnd 0) ∧ (t.openAt 1 (.writeEnd 0)).openAt 2 (.writeEnd 1) 2 =
      some (.writeEnd 1) :=
    fun t => ⟨by rw [Fds.openAt_ne h21.symm, Fds.openAt_self], Fds.openAt_self⟩
  have hcases : n = 0 ∨ n = 1 ∨ n = 2 ∨ n = 3 ∨ n = 4 ∨ n = 5 ∨ n = 6 := by omega
  rcases hcases with rfl | rfl | rfl | rfl | rfl | rfl | rfl
  · rcases hj with rfl | rfl
    · exact ⟨_, (hwrites _).1⟩
    · exact ⟨_, (hwrites _).2⟩
  · rw [cmdTable_one he]
    rcases hj with rfl | rfl
    · exact ⟨_, (hwrites _).1⟩
    · exact ⟨_, (hwrites _).2⟩
  · rw [cmdTable_two he]
    rcases hj with rfl | rfl
    · exact ⟨_, (hwrites _).1⟩
    · exact ⟨_, (hwrites _).2⟩
  · rw [cmdTable_three he]
    rcases hj with rfl | rfl
    · exact ⟨1, Fds.openAt_self⟩
    · refine ⟨e.err.2, ?_⟩
      rw [Fds.openAt_ne he1, cmdTable_two he]
      exact (hwrites _).2
  · rw [cmdTable_four he hout]
    rcases hj with rfl | rfl
    · exact ⟨_, (hstd _).1⟩
    · exact ⟨_, (hstd _).2⟩
  · rw [cmdTable_five he hout herr]
    rcases hj with rfl | rfl
    · exact ⟨_, (hstd _).1⟩
    · exact ⟨_, (hstd _).2⟩
  · rw [cmdTable_six he hout herr]
    rcases hj with rfl | rfl
    · exact ⟨_, (hstd _).1⟩
    · exact ⟨_, (hstd _).2⟩

/-! ## The network -/

/-- The standard output of the command feeds the first child that copies, and the standard
error the second. -/
def dest (p fd : Nat) : Option Nat := if p = 0 ∧ (fd = 1 ∨ fd = 2) then some fd else none

theorem dest_eq_some {p fd q : Nat} : dest p fd = some q ↔ p = 0 ∧ fd = q ∧ (q = 1 ∨ q = 2) := by
  unfold dest
  split_ifs with h
  · simp only [Option.some.injEq]
    constructor
    · rintro rfl
      exact ⟨h.1, rfl, h.2⟩
    · exact fun hq => hq.2.1
  · simp only [false_iff]
    rintro ⟨hp, rfl, hq⟩
    exact h ⟨hp, hq⟩

theorem dest_later {p fd q : Nat} (h : dest p fd = some q) : p < q ∧ q < 3 := by
  obtain ⟨rfl, -, hq⟩ := dest_eq_some.mp h
  omega

theorem dest_single {p fd p' fd' q : Nat} (h : dest p fd = some q) (h' : dest p' fd' = some q) :
    p = p' ∧ fd = fd' := by
  obtain ⟨hp, hfd, -⟩ := dest_eq_some.mp h
  obtain ⟨hp', hfd', -⟩ := dest_eq_some.mp h'
  omega

/-- The descriptor that a process reads. -/
def stdin (e : Ends) (p : Nat) : Nat := if p = 0 then 0 else if p = 1 then e.out.1 else e.err.1

def Config.teeFds (cfg : Config σ) (p : Nat) : List Nat :=
  if p = 1 then cfg.outputFds else cfg.errorFds

def Config.net (cfg : Config σ) (e : Ends) : Net UInt8 (Prog σ) where
  act := Prog.act cfg.act
  count := 3
  stdin := stdin e
  dest := dest
  dest_lt := dest_later
  dest_inj := dest_single

/-- The command reads the file `fin`, and a child that copies its pipe. -/
def routeIn (fin : F) (p : Nat) : File F := if p = 0 then .plain fin else .readEnd (p - 1)

def Config.routeOut (cfg : Config σ) (base : Nat → Option F) (p fd : Nat) : Option (File F) :=
  if p = 0 then if fd = 1 ∨ fd = 2 then some (.writeEnd (fd - 1)) else none
  else if fd ∈ cfg.teeFds p then (base fd).map .plain else none

/-- The descriptors of the two children that copy. -/
def Config.copies (cfg : Config σ) : List (Nat × Nat) :=
  cfg.outputFds.map (Prod.mk 1) ++ cfg.errorFds.map (Prod.mk 2)

def Config.owner [DecidableEq F] (cfg : Config σ) (base : Nat → Option F) (f : F) :
    Option (Nat × Nat) :=
  cfg.copies.find? fun c => base c.2 = some f

theorem mem_copies {p fd : Nat} :
    (p, fd) ∈ cfg.copies ↔ p = 1 ∧ fd ∈ cfg.outputFds ∨ p = 2 ∧ fd ∈ cfg.errorFds := by
  simp only [Config.copies, List.mem_append, List.mem_map, Prod.mk.injEq]
  constructor
  · rintro (⟨fd', hfd', rfl, rfl⟩ | ⟨fd', hfd', rfl, rfl⟩)
    · exact .inl ⟨rfl, hfd'⟩
    · exact .inr ⟨rfl, hfd'⟩
  · rintro (⟨rfl, hfd⟩ | ⟨rfl, hfd⟩)
    · exact .inl ⟨fd, hfd, rfl, rfl⟩
    · exact .inr ⟨fd, hfd, rfl, rfl⟩

variable {fin : F}

/-- Copies to one file are one copy. -/
theorem Config.Files.copies_inj (h : cfg.Files base fin) {c c' : Nat × Nat} (hc : c ∈ cfg.copies)
    (hc' : c' ∈ cfg.copies) (heq : base c.2 = base c'.2) : c = c' := by
  have hnodup : (cfg.copies.map fun c => base c.2).Nodup := by
    have hdistinct := h.distinct
    simpa [Config.copies, List.map_append, Function.comp_def] using hdistinct
  exact List.inj_on_of_nodup_map hnodup hc hc' heq

theorem owner_eq_some [DecidableEq F] (h : cfg.Files base fin) {f : F} {c : Nat × Nat} :
    cfg.owner base f = some c ↔ c ∈ cfg.copies ∧ base c.2 = some f := by
  constructor
  · intro hown
    exact ⟨List.mem_of_find?_eq_some hown, by simpa using List.find?_some hown⟩
  · rintro ⟨hc, hbase⟩
    cases hown : cfg.owner base f with
    | none =>
      have hno := List.find?_eq_none.mp hown c hc
      simp [hbase] at hno
    | some c' =>
      have hbase' : base c'.2 = some f := by simpa using List.find?_some hown
      rw [h.copies_inj (List.mem_of_find?_eq_some hown) hc (hbase'.trans hbase.symm)]

theorem routeIn_inj {p q : Nat} (h : routeIn fin p = routeIn fin q) : p = q := by
  unfold routeIn at h
  split_ifs at h with hp hq hq
  · omega
  · have hpred : p - 1 = q - 1 := File.readEnd.inj h
    omega

theorem routeIn_ne (p j : Nat) : routeIn fin p ≠ .writeEnd j := by
  unfold routeIn
  split_ifs <;> simp

theorem route_pipe {p fd q : Nat} (h : dest p fd = some q) :
    ∃ j, cfg.routeOut base p fd = some (.writeEnd j) ∧ routeIn fin q = .readEnd j := by
  obtain ⟨rfl, rfl, hq⟩ := dest_eq_some.mp h
  have hne : fd ≠ 0 := by omega
  exact ⟨fd - 1, by simp [Config.routeOut, hq], by simp [routeIn, hne]⟩

theorem route_file {p : Nat} (fd : Nat) {f : File F} (h : dest p fd = none)
    (hf : cfg.routeOut base p fd = some f) : ∃ x, f = .plain x := by
  unfold Config.routeOut at hf
  by_cases hp : p = 0
  · rw [if_pos hp] at hf
    split_ifs at hf with hfd
    unfold dest at h
    rw [if_pos ⟨hp, hfd⟩] at h
    cases h
  · rw [if_neg hp] at hf
    split_ifs at hf
    obtain ⟨x, -, rfl⟩ := Option.map_eq_some_iff.mp hf
    exact ⟨x, rfl⟩

theorem routeOut_eq_plain {p fd : Nat} {f : F} (hp : p < 3) :
    cfg.routeOut base p fd = some (.plain f) ↔ (p, fd) ∈ cfg.copies ∧ base fd = some f := by
  have hcases : p = 0 ∨ p = 1 ∨ p = 2 := by omega
  rcases hcases with rfl | rfl | rfl
  · have hno : (0, fd) ∉ cfg.copies := by simp [mem_copies]
    simp only [Config.routeOut, if_pos, hno, false_and, iff_false]
    split_ifs <;> simp
  · simp [Config.routeOut, Config.teeFds, mem_copies]
  · simp [Config.routeOut, Config.teeFds, mem_copies]

theorem copies_lt {p fd : Nat} (h : (p, fd) ∈ cfg.copies) : p < 3 := by
  rcases mem_copies.mp h with ⟨rfl, -⟩ | ⟨rfl, -⟩ <;> decide

theorem owner_output [DecidableEq F] (h : cfg.Files base fin) {f : F} {p fd : Nat}
    (hown : cfg.owner base f = some (p, fd)) : cfg.routeOut base p fd = some (.plain f) := by
  obtain ⟨hc, hbase⟩ := (owner_eq_some h).mp hown
  exact (routeOut_eq_plain (copies_lt hc)).mpr ⟨hc, hbase⟩

theorem owner_only [DecidableEq F] (h : cfg.Files base fin) {f : F} {p fd p' fd' : Nat}
    (hown : cfg.owner base f = some (p, fd)) (hp : p' < 3)
    (hout : cfg.routeOut base p' fd' = some (.plain f)) : p' = p ∧ fd' = fd := by
  obtain ⟨hc, hbase⟩ := (owner_eq_some h).mp hown
  obtain ⟨hc', hbase'⟩ := (routeOut_eq_plain hp).mp hout
  exact Prod.mk.inj (h.copies_inj hc' hc (hbase'.trans hbase.symm))

/-- The pipes and files of the children. -/
def Config.routing [DecidableEq F] (cfg : Config σ) (e : Ends) (h : cfg.Files base fin) :
    Routing (cfg.net e) F where
  input := routeIn fin
  output := cfg.routeOut base
  own := cfg.owner base
  input_inj _ _ := routeIn_inj
  input_read := routeIn_ne
  pipe := route_pipe
  file := route_file _
  own_output := owner_output h
  own_only := owner_only h

/-- The program of a child, which is where it starts as long as it does not run, and nothing
once it has ended. -/
def World.procOf (cfg : Config σ) (e : Ends) (w : World σ F) (i : Nat) : Option (Prog σ) :=
  match w.child i with
  | .running s => some s
  | .ended | .killed | .reaped => none
  | _ => if i = 0 then cfg.program.map .cmd else some (cfg.teeProg e i)

/-! ## Open ends -/

theorem readTable_ends (he : e.Free base) : readTable base e e.out.1 = some (.readEnd 0) ∧
    readTable base e e.err.1 = some (.readEnd 1) := by
  unfold readTable
  exact ⟨by rw [Fds.openAt_ne he.read_ne, Fds.openAt_self], Fds.openAt_self⟩

theorem readTable_no_writeEnd {fd j : Nat} : readTable base e fd ≠ some (.writeEnd j) := by
  intro h
  rcases Fds.openAt_eq_some.mp h with ⟨-, hx⟩ | ⟨-, h⟩
  · cases hx
  · rcases Fds.openAt_eq_some.mp h with ⟨-, hx⟩ | ⟨-, h⟩
    · cases hx
    · obtain ⟨x, hx⟩ := plain_of_inherited h
      cases hx

/-- Until it has forked both children that copy, the parent holds the reading ends. -/
theorem parentTable_ends (he : e.Free base) {pc : ParentPC}
    (hpc : pc = .closeOut ∨ pc = .closeErr ∨ pc = .forkOutTee ∨ pc = .forkErrTee) :
    parentTable base e pc e.out.1 = some (.readEnd 0) ∧
      parentTable base e pc e.err.1 = some (.readEnd 1) := by
  obtain ⟨hout, herr⟩ := readTable_ends he
  rcases hpc with rfl | rfl | rfl | rfl
  · show pipesTable base e _ = _ ∧ pipesTable base e _ = _
    unfold pipesTable
    rw [Fds.openAt_ne he.out_ne, Fds.openAt_ne he.cross, Fds.openAt_ne he.cross'.symm,
      Fds.openAt_ne he.err_ne]
    exact ⟨hout, herr⟩
  · show (readTable base e).openAt _ _ _ = _ ∧ (readTable base e).openAt _ _ _ = _
    rw [Fds.openAt_ne he.cross, Fds.openAt_ne he.err_ne]
    exact ⟨hout, herr⟩
  · exact ⟨hout, herr⟩
  · exact ⟨hout, herr⟩

/-- Once a child that copies has been forked, the parent cannot write to the pipes. -/
theorem parentTable_no_writeEnd {pc : ParentPC} (hpc : 2 ≤ pc.born) {fd j : Nat} :
    parentTable base e pc fd ≠ some (.writeEnd j) := by
  have hplain : ∀ {fd}, inherited base fd ≠ some (.writeEnd j) := by
    intro fd h
    obtain ⟨x, hx⟩ := plain_of_inherited h
    cases hx
  cases pc with
  | pipeOut | pipeErr | forkCmd | closeOut | closeErr | forkOutTee =>
    simp [ParentPC.born] at hpc
  | forkErrTee | closeReadOut => exact readTable_no_writeEnd
  | closeReadErr =>
    intro h
    rcases Fds.openAt_eq_some.mp h with ⟨-, hx⟩ | ⟨-, h⟩
    · cases hx
    · exact hplain h
  | waitCmd | wait c | returned | abort i n => exact hplain

/-- The pipes can be written to exactly until the command ends. -/
theorem World.Inv.open_iff (h : w.Inv e base) (he : e.Free base) (hfiles : cfg.Files base fin)
    (hprog : cfg.program ≠ none) {j : Nat} (hj : j = 0 ∨ j = 1) (hborn : 2 ≤ w.pc.born) :
    ¬ w.kernel.Open (.writeEnd j) ↔ w.procOf cfg e 0 = none := by
  have hcmd : w.child 0 ≠ .unborn := fun hun => absurd ((h.born 0).mp hun) (by omega)
  have hlive : ∀ {n}, n ≤ 6 → w.kernel.fds (some 0) = cmdTable base e n →
      w.kernel.Open (.writeEnd j) := by
    intro n hn htable
    obtain ⟨fd, hfd⟩ := cmdTable_writeEnd he hfiles.stdout hfiles.stderr hn hj
    exact ⟨some 0, fd, by rw [htable, hfd]⟩
  have htable := h.table 0
  unfold World.procOf
  cases hc : w.child 0 with
  | unborn => exact absurd hc hcmd
  | setup n =>
    rw [hc] at htable
    have hopen := hlive (h.setup 0 n hc).2 htable
    constructor
    · exact fun hno => absurd hopen hno
    · intro hnone
      exact absurd (Option.map_eq_none_iff.mp hnone) hprog
  | running s =>
    rw [hc] at htable
    have hopen := hlive (Nat.le_refl 6) htable
    constructor
    · exact fun hno => absurd hopen hno
    · exact fun hnone => absurd hnone (Option.some_ne_none s)
  | ended | killed | reaped =>
    refine ⟨fun _ => rfl, fun _ => ?_⟩
    rintro ⟨q, fd, hq⟩
    cases q with
    | none => exact parentTable_no_writeEnd hborn (h.parent ▸ hq)
    | some q =>
      rw [h.table q] at hq
      cases hcq : w.child q with
      | unborn | ended | killed | reaped =>
        rw [hcq] at hq
        cases hq
      | setup n =>
        rw [(h.setup q n hcq).1, hc] at hcq
        cases hcq
      | running s =>
        have hq0 : q ≠ 0 := by
          rintro rfl
          rw [hc] at hcq
          cases hcq
        rw [hcq] at hq
        simp only [childTable, if_neg hq0] at hq
        exact readTable_no_writeEnd hq

/-- The pipe to a child that copies can be read until that child ends. -/
theorem World.Inv.readEnd_open (h : w.Inv e base) (he : e.Free base)
    (hpc : ∀ i n, w.pc ≠ .abort i n) (hcmd : w.child 0 ≠ .unborn) {q : Nat} (hq : q = 1 ∨ q = 2)
    (hproc : w.procOf cfg e q ≠ none) : w.kernel.Open (.readEnd (q - 1)) := by
  have hborn := h.lt_born hcmd
  have hread : ∀ t : Fds F, t e.out.1 = some (.readEnd 0) → t e.err.1 = some (.readEnd 1) →
      ∃ fd, t fd = some (.readEnd (q - 1)) := by
    intro t hout herr
    rcases hq with rfl | rfl
    · exact ⟨_, hout⟩
    · exact ⟨_, herr⟩
  cases hc : w.child q with
  | unborn =>
    -- the parent has not forked it yet
    have hle := (h.born q).mp hc
    have hbefore : w.pc = .closeOut ∨ w.pc = .closeErr ∨ w.pc = .forkOutTee ∨
        w.pc = .forkErrTee := by
      cases hpc' : w.pc with
      | abort i n => exact absurd hpc' (hpc i n)
      | closeOut | closeErr | forkOutTee | forkErrTee => simp
      | pipeOut | pipeErr | forkCmd =>
        rw [hpc'] at hborn
        simp [ParentPC.born] at hborn
      | closeReadOut | closeReadErr | waitCmd | wait c | returned =>
        rw [hpc'] at hle
        simp only [ParentPC.born] at hle
        omega
    obtain ⟨hout, herr⟩ := parentTable_ends he hbefore
    obtain ⟨fd, hfd⟩ := hread _ hout herr
    exact ⟨none, fd, by rw [h.parent, hfd]⟩
  | setup n =>
    have hzero := (h.setup q n hc).1
    omega
  | running s =>
    obtain ⟨hout, herr⟩ := readTable_ends he
    obtain ⟨fd, hfd⟩ := hread _ hout herr
    refine ⟨some q, fd, ?_⟩
    have hq0 : q ≠ 0 := by omega
    rw [h.table q, hc]
    simp only [childTable, if_neg hq0]
    exact hfd
  | ended | killed | reaped =>
    unfold World.procOf at hproc
    rw [hc] at hproc
    exact absurd rfl hproc

/-! ## What the call delivers -/

/-- How many calls a child has still to make, apart from those of its program. -/
def ChildPC.weight : ChildPC σ → Nat
  | .unborn => 10
  | .setup n => 9 - n
  | .running _ | .ended | .killed => 1
  | .reaped => 0

/-- How many calls the parent has still to make, apart from those that wait. -/
def ParentPC.weight : ParentPC → Nat
  | .pipeOut => 11
  | .pipeErr => 10
  | .forkCmd => 9
  | .closeOut => 8
  | .closeErr => 7
  | .forkOutTee => 6
  | .forkErrTee => 5
  | .closeReadOut => 4
  | .closeReadErr => 3
  | .waitCmd => 2
  | .wait _ => 1
  | .returned | .abort _ _ => 0

def World.weight (w : World σ F) : Nat :=
  ∑ p ∈ Finset.range 3, (w.child p).weight + w.pc.weight

/-- With the input `xs`, of which it need not read all, the command writes `y 1` to its
standard output and `y 2` to its standard error, and nothing else. -/
def Config.Writes (cfg : Config σ) (xs : List UInt8) (y : Nat → List UInt8) : Prop :=
  ∃ s k, cfg.program = some s ∧
    Runs cfg.act 0 False k s xs fun fd => if fd = 1 ∨ fd = 2 then y fd else []

/-- What process `p` writes to its descriptor `fd` in the end. -/
def Config.result (cfg : Config σ) (y : Nat → List UInt8) (p fd : Nat) : List UInt8 :=
  if p = 0 then if fd = 1 ∨ fd = 2 then y fd else []
  else if fd ∈ cfg.teeFds p then y p else []

/-- With the bytes on their way, the state still delivers what the command writes. Nobody is
killed, and no call has failed. -/
structure World.Delivers [DecidableEq F] (cfg : Config σ) (e : Ends)
    (hfiles : cfg.Files base fin) (old : F → List UInt8) (y : Nat → List UInt8) (w : World σ F)
    (m : Nat) : Prop where
  inv : w.Inv e base
  alive : ∀ i, w.child i ≠ .killed
  noAbort : ∀ i n, w.pc ≠ .abort i n
  exited : (∃ c, w.pc = .wait c) ∨ w.pc = .returned → w.cmdExited = true
  flows : ∃ a m₀, a.proc = w.procOf cfg e ∧ (cfg.routing e hfiles).Carries old w.kernel a ∧
    (cfg.net e).Flows (cfg.result y) a m₀ ∧ m = m₀ + w.weight

variable {hfiles : cfg.Files base fin} {old : F → List UInt8} {y : Nat → List UInt8} {m : Nat}
  {a : NetState UInt8 (Prog σ)} {k : Nat → Nat} {outs : Nat → Nat → List UInt8}
  {rest : Nat → List UInt8}

/-- A program writes only to the descriptors that the routing knows. -/
theorem outs_known (h : (cfg.net e).Flow (cfg.result y) a rest outs k) (hi : i < 3) {fd : Nat}
    (hne : outs i fd ≠ []) : i = 0 ∧ (fd = 1 ∨ fd = 2) ∨ (i, fd) ∈ cfg.copies := by
  by_contra hno
  have hresult : cfg.result y i fd = [] ∧ dest i fd = none := by
    unfold Config.result dest
    by_cases hzero : i = 0
    · subst hzero
      have hfd : ¬ (fd = 1 ∨ fd = 2) := fun hfd => hno (.inl ⟨rfl, hfd⟩)
      simp [hfd]
    · have hcases : i = 1 ∨ i = 2 := by omega
      have hfd : fd ∉ cfg.teeFds i := by
        intro hmem
        refine hno (.inr (mem_copies.mpr ?_))
        rcases hcases with rfl | rfl
        · exact .inl ⟨rfl, hmem⟩
        · exact .inr ⟨rfl, hmem⟩
      simp [hzero, hfd]
  have hsink := h.sink i hi fd hresult.2
  rw [hresult.1] at hsink
  exact hne (List.append_eq_nil_iff.mp hsink).2

/-- The program of a child has the descriptors that the routing says. -/
theorem World.Inv.connected [DecidableEq F] (h : w.Inv e base) (hfiles : cfg.Files base fin)
    (he : e.Free base)
    (hprog : cfg.program ≠ none) (hpc : ∀ i n, w.pc ≠ .abort i n)
    (ha : a.proc = w.procOf cfg e) (hflow : (cfg.net e).Flow (cfg.result y) a rest outs k)
    (hi : i < 3) {s : Prog σ} (hrun : w.child i = .running s) :
    (cfg.routing e hfiles).Connected w.kernel a i (outs i) := by
  have hborn := h.lt_born (i := i) (by simp [hrun])
  have htable := h.table i
  rw [hrun] at htable
  obtain ⟨hreadOut, hreadErr⟩ := readTable_ends he
  refine ⟨?_, ?_, ?_, ?_⟩
  · show w.kernel.fds (some i) (stdin e i) = some (routeIn fin i)
    rw [htable]
    have hcases : i = 0 ∨ i = 1 ∨ i = 2 := by omega
    rcases hcases with rfl | rfl | rfl
    · show cmdTable base e 6 0 = some (.plain fin)
      rw [cmdTable_six he hfiles.stdout hfiles.stderr, Fds.openAt_ne (by decide),
        Fds.openAt_ne (by decide)]
      exact inherited_of_some hfiles.stdin
    · exact hreadOut
    · exact hreadErr
  · intro j hj
    change routeIn fin i = _ at hj
    unfold routeIn at hj
    split_ifs at hj with hzero
    have hji : i - 1 = j := File.readEnd.inj hj
    rw [h.open_iff he hfiles hprog (by omega) (by omega)]
    constructor
    · intro hnone p fd hdest
      obtain ⟨rfl, -, -⟩ := dest_eq_some.mp hdest
      exact (congrFun ha 0).trans hnone
    · intro hclosed
      exact (congrFun ha 0).symm.trans
        (hclosed 0 i (dest_eq_some.mpr ⟨rfl, rfl, by omega⟩))
  · intro fd hne
    rcases outs_known hflow hi hne with ⟨rfl, hfd⟩ | hcopy
    · refine ⟨.writeEnd (fd - 1), by simp [Config.routing, Config.routeOut, hfd], ?_⟩
      rw [htable]
      show cmdTable base e 6 fd = _
      rw [cmdTable_six he hfiles.stdout hfiles.stderr]
      rcases hfd with rfl | rfl
      · rw [Fds.openAt_ne (by decide)]
        exact Fds.openAt_self
      · exact Fds.openAt_self
    · have hmem := mem_copies.mp hcopy
      have hzero : i ≠ 0 := by omega
      have hopen : base fd ≠ none := by
        refine hfiles.opened fd (List.mem_append.mpr ?_)
        exact hmem.imp And.right And.right
      obtain ⟨f, hf⟩ := Option.ne_none_iff_exists'.mp hopen
      refine ⟨.plain f, (routeOut_eq_plain hi).mpr ⟨hcopy, hf⟩, ?_⟩
      rw [htable]
      simp only [childTable, if_neg hzero]
      have hne1 : fd ≠ e.out.1 := fun heq => hopen (heq ▸ he.out_read)
      have hne2 : fd ≠ e.err.1 := fun heq => hopen (heq ▸ he.err_read)
      rw [readTable, Fds.openAt_ne hne2, Fds.openAt_ne hne1]
      exact inherited_of_some hf
  · intro fd j hne hj
    rcases outs_known hflow hi hne with ⟨rfl, hfd⟩ | hcopy
    · have hdest : dest 0 fd = some fd := dest_eq_some.mpr ⟨rfl, rfl, hfd⟩
      have hj' : fd - 1 = j := by
        have hroute : cfg.routeOut base 0 fd = some (.writeEnd (fd - 1)) := by
          simp [Config.routeOut, hfd]
        exact File.writeEnd.inj (Option.some.inj (hroute.symm.trans hj))
      -- the child that copies still waits for what the command writes
      have hproc : w.procOf cfg e fd ≠ none := by
        intro hnone
        have hended := (hflow.ended (p := fd) (dest_later hdest).2
          ((congrFun ha fd).trans hnone)).1 ⟨0, fd, hdest⟩
        rw [hflow.fed 0 fd fd hdest] at hended
        exact hne (List.append_eq_nil_iff.mp hended).2
      rw [← hj']
      exact h.readEnd_open he hpc (by simp [hrun]) hfd hproc
    · obtain ⟨x, hx⟩ := route_file (p := i) fd (by
        unfold dest
        have hmem := mem_copies.mp hcopy
        rw [if_neg (by omega)]) hj
      cases hx

theorem procOf_update {k : Kernel (Option Nat) F} {pc : ChildPC σ} {o : Option (Prog σ)}
    (h : ∀ p, p = i → World.procOf cfg e
      { w with kernel := k, child := Function.update w.child i pc } p = o) :
    World.procOf cfg e { w with kernel := k, child := Function.update w.child i pc } =
      Function.update (w.procOf cfg e) i o := by
  funext p
  by_cases hp : p = i
  · rw [h p hp, hp, Function.update_self]
  · simp [World.procOf, Function.update_of_ne hp]

theorem weight_child (hi : i < 3) (k : Kernel (Option Nat) F) (pc : ChildPC σ) :
    World.weight { w with kernel := k, child := Function.update w.child i pc } +
      (w.child i).weight = w.weight + pc.weight := by
  have hsum := sum_update (Finset.mem_range.mpr hi) ChildPC.weight w.child pc
  simp only [World.weight]
  omega

theorem World.Inv.lt_three (h : w.Inv e base) (hpc : ∀ i n, w.pc ≠ .abort i n)
    (hborn : w.child i ≠ .unborn) : i < 3 := by
  have hlt := h.lt_born hborn
  cases hc : w.pc with
  | abort i n => exact absurd hc (hpc i n)
  | _ =>
    rw [hc] at hlt
    simp only [ParentPC.born] at hlt
    omega

/-- A call of a child keeps the results, and leaves less to do. -/
theorem World.Delivers.childStep [DecidableEq F] (he : e.Free base) (hprog : cfg.program ≠ none)
    (h : w.Delivers cfg e hfiles old y m) (hstep : cfg.ChildStep e w i w') :
    ∃ m' < m, w'.Delivers cfg e hfiles old y m' := by
  obtain ⟨a, m₀, ha, hcarries, hflows, rfl⟩ := h.flows
  have hinv := h.inv
  have hinv' := hinv.childStep hstep
  have halive : ∀ {pc : ChildPC σ}, pc ≠ .killed →
      ∀ j, Function.update w.child i pc j ≠ .killed := by
    intro pc hpc j
    by_cases hj : j = i
    · subst hj
      rwa [Function.update_self]
    · rw [Function.update_of_ne hj]
      exact h.alive j
  cases hstep with
  | @setup n hs hn =>
    have hi := hinv.lt_three h.noAbort (i := i) (by simp [hs])
    have hweight := weight_child (w := w) hi (w.kernel.setFds (some i)
      (cmdCall e (w.kernel.fds (some i)) n)) (.setup (n + 1))
    simp only [hs, ChildPC.weight] at hweight
    refine ⟨m₀ + World.weight _, ?_, hinv', halive (by simp), h.noAbort, h.exited, a, m₀, ?_,
      hcarries.congr rfl rfl rfl rfl rfl, hflows, rfl⟩
    · omega
    · rw [ha]
      funext p
      by_cases hp : p = i
      · subst hp
        simp [World.procOf, hs]
      · simp [World.procOf, Function.update_of_ne hp]
  | @exec n s hs hn hsome =>
    obtain ⟨rfl, hle⟩ := hinv.setup i n hs
    have hweight := weight_child (w := w) (i := 0) (by decide) w.kernel
      (.running (.cmd s))
    simp only [hs, ChildPC.weight] at hweight
    refine ⟨m₀ + World.weight _, ?_, hinv', halive (by simp), h.noAbort, h.exited, a, m₀, ?_,
      hcarries, hflows, rfl⟩
    · omega
    · rw [ha]
      funext p
      by_cases hp : p = 0
      · subst hp
        simp [World.procOf, hs, hsome]
      · simp [World.procOf, Function.update_of_ne hp]
  | execFails _ _ hnone => exact absurd hnone hprog
  | @call s o k' hrun hcall =>
    have hi := hinv.lt_three h.noAbort (i := i) (by simp [hrun])
    have hs : a.proc i = some s := by
      rw [ha]
      simp [World.procOf, hrun]
    obtain ⟨rest, outs, k, hflow, -⟩ := id hflows
    have hconn := hinv.connected hfiles he hprog h.noAbort ha hflow hi hrun
    obtain ⟨a', hnet, hproc, hcarries', ho⟩ :=
      hcarries.call hi hs (hflow.remaining hi hs) hconn hcall
    obtain ⟨m₁, hlt, hflows'⟩ := hflows.step hi hnet
    have hweight := weight_child (w := w) hi k' (.after o)
    have hone : (w.child i).weight = 1 ∧ (ChildPC.after o).weight = 1 := by
      rw [hrun]
      cases o <;> exact ⟨rfl, rfl⟩
    refine ⟨m₁ + World.weight _, by omega, hinv', ?_, h.noAbort, h.exited, a', m₁, ?_, hcarries',
      hflows', rfl⟩
    · refine halive ?_
      cases o with
      | killed => exact absurd rfl ho
      | running s' | ended => simp [ChildPC.after]
    · rw [hproc, ha]
      refine (procOf_update ?_).symm
      rintro p rfl
      cases o <;> simp [World.procOf, ChildPC.after, Outcome.state]

variable (cfg) in
theorem forked_same (hinv : w.Inv e base) (j : Nat) (pc : ChildPC σ) (next : ParentPC)
    (hj : w.pc.born = j) (hlt : j < 3) (hpc : pc.weight < 10) (hnext : next.weight ≤ w.pc.weight)
    (hproc : World.procOf cfg e (Config.forked w j pc next) j =
      if j = 0 then cfg.program.map .cmd else some (cfg.teeProg e j)) :
    World.procOf cfg e (Config.forked w j pc next) = w.procOf cfg e ∧
      World.weight (Config.forked w j pc next) < w.weight := by
  have hunborn : w.child j = .unborn := (hinv.born j).mpr (Nat.le_of_eq hj)
  constructor
  · funext p
    by_cases hp : p = j
    · rw [hp, hproc]
      simp [World.procOf, hunborn]
    · simp [World.procOf, Config.forked, Function.update_of_ne hp]
  · have hsum := sum_update (Finset.mem_range.mpr hlt) ChildPC.weight w.child pc
    have hten : (w.child j).weight = 10 := by rw [hunborn]; rfl
    simp only [World.weight, Config.forked]
    omega

variable (cfg e) in
theorem reaped_same (j : Nat) (pc : ParentPC) (exited : Bool) (hj : j < 3)
    (hend : w.child j = .ended ∨ w.child j = .killed) (hpc : pc.weight ≤ w.pc.weight) :
    World.procOf cfg e { w with
      pc := pc, child := Function.update w.child j .reaped, cmdExited := exited } =
      w.procOf cfg e ∧
    World.weight { w with
      pc := pc, child := Function.update w.child j .reaped, cmdExited := exited } < w.weight := by
  constructor
  · funext p
    by_cases hp : p = j
    · subst hp
      rcases hend with hs | hs <;> simp [World.procOf, hs]
    · simp [World.procOf, Function.update_of_ne hp]
  · have hsum := sum_update (Finset.mem_range.mpr hj) ChildPC.weight w.child .reaped
    have hone : (w.child j).weight = 1 := by rcases hend with hs | hs <;> rw [hs] <;> rfl
    have hzero : (ChildPC.reaped : ChildPC σ).weight = 0 := rfl
    simp only [World.weight]
    omega

/-- A step of the parent changes nothing that the programs see. -/
theorem parentStep_same (hinv : w.Inv e base) (hok : cfg.faults = false)
    (hpc : ∀ i n, w.pc ≠ .abort i n) (hstep : cfg.ParentStep e w w') :
    w'.procOf cfg e = w.procOf cfg e ∧ w'.kernel.buf = w.kernel.buf ∧
      w'.kernel.input = w.kernel.input ∧ w'.kernel.output = w.kernel.output ∧
      w'.weight < w.weight := by
  cases hstep with
  | pipeOut hpc | pipeErr hpc | closeOut hpc | closeErr hpc | closeReadOut hpc
  | closeReadErr hpc | leave hpc =>
    refine ⟨rfl, rfl, rfl, rfl, ?_⟩
    simp only [World.weight, Config.goto, hpc, ParentPC.weight]
    omega
  | pipeOutFails hf | pipeErrFails hf | forkCmdFails hf | forkOutTeeFails hf
  | forkErrTeeFails hf =>
    rw [hok] at hf
    cases hf
  | forkCmd hpc =>
    obtain ⟨hproc, hweight⟩ := forked_same cfg hinv 0 (.setup 0) .closeOut
      (by rw [hpc]; rfl) (by decide) (by simp [ChildPC.weight]) (by rw [hpc]; decide)
      (by simp [World.procOf, Config.forked])
    exact ⟨hproc, rfl, rfl, rfl, hweight⟩
  | forkOutTee hpc =>
    obtain ⟨hproc, hweight⟩ := forked_same cfg hinv 1 (.running (cfg.teeProg e 1))
      .forkErrTee (by rw [hpc]; rfl) (by decide) (by simp [ChildPC.weight])
      (by rw [hpc]; decide) (by simp [World.procOf, Config.forked])
    exact ⟨hproc, rfl, rfl, rfl, hweight⟩
  | forkErrTee hpc =>
    obtain ⟨hproc, hweight⟩ := forked_same cfg hinv 2 (.running (cfg.teeProg e 2))
      .closeReadOut (by rw [hpc]; rfl) (by decide) (by simp [ChildPC.weight])
      (by rw [hpc]; decide) (by simp [World.procOf, Config.forked])
    exact ⟨hproc, rfl, rfl, rfl, hweight⟩
  | waitCmdExited hpc hend =>
    obtain ⟨hproc, hweight⟩ := reaped_same cfg e (w := w) 0 (.wait 3) true
      (by decide) (.inl hend) (by rw [hpc]; decide)
    exact ⟨hproc, rfl, rfl, rfl, hweight⟩
  | waitCmdKilled hpc hend =>
    obtain ⟨hproc, hweight⟩ := reaped_same cfg e (w := w) 0 (.wait 3) w.cmdExited
      (by decide) (.inr hend) (by rw [hpc]; decide)
    exact ⟨hproc, rfl, rfl, rfl, hweight⟩
  | @wait c j hpc hc hend =>
    have hj := hinv.lt_born (i := j) (by rcases hend with hs | hs <;> simp [hs])
    rw [hpc] at hj
    obtain ⟨hproc, hweight⟩ := reaped_same cfg e (w := w) j (.wait c) w.cmdExited
      hj hend (by rw [hpc]; exact Nat.le_refl _)
    exact ⟨hproc, rfl, rfl, rfl, hweight⟩
  | waitAborted habort => exact absurd habort (hpc _ _)

theorem World.Delivers.parentStep [DecidableEq F] (he : e.Free base) (hok : cfg.faults = false)
    (h : w.Delivers cfg e hfiles old y m) (hstep : cfg.ParentStep e w w') :
    ∃ m' < m, w'.Delivers cfg e hfiles old y m' := by
  obtain ⟨a, m₀, ha, hcarries, hflows, rfl⟩ := h.flows
  obtain ⟨hproc, hbuf, hin, hout, hweight⟩ := parentStep_same h.inv hok h.noAbort hstep
  have hinv' := h.inv.parentStep he hstep
  have hstill : (∀ i, w'.child i ≠ .killed) ∧ (∀ i n, w'.pc ≠ .abort i n) ∧
      ((∃ c, w'.pc = .wait c) ∨ w'.pc = .returned → w'.cmdExited = true) := by
    have halive : ∀ {j : Nat} {pc : ChildPC σ}, pc ≠ .killed →
        ∀ i, Function.update w.child j pc i ≠ .killed := by
      intro j pc hpc i
      by_cases hi : i = j
      · subst hi
        rwa [Function.update_self]
      · rw [Function.update_of_ne hi]
        exact h.alive i
    cases hstep with
    | pipeOut | pipeErr | closeOut | closeErr | closeReadOut | closeReadErr =>
      exact ⟨h.alive, by simp [Config.goto], by simp [Config.goto]⟩
    | pipeOutFails hf | pipeErrFails hf | forkCmdFails hf | forkOutTeeFails hf
    | forkErrTeeFails hf =>
      rw [hok] at hf
      cases hf
    | forkCmd | forkOutTee | forkErrTee =>
      exact ⟨halive (by simp), by simp [Config.forked], by simp [Config.forked]⟩
    | waitCmdExited => exact ⟨halive (by simp), by simp, fun _ => rfl⟩
    | waitCmdKilled _ hend => exact absurd hend (h.alive 0)
    | wait hpc => exact ⟨halive (by simp), by simp, fun _ => h.exited (.inl ⟨_, hpc⟩)⟩
    | leave hpc => exact ⟨h.alive, by simp, fun _ => h.exited (.inl ⟨_, hpc⟩)⟩
    | waitAborted habort => exact absurd habort (h.noAbort _ _)
  exact ⟨m₀ + w'.weight, by omega, hinv', hstill.1, hstill.2.1, hstill.2.2, a, m₀,
    ha.trans hproc.symm, hcarries.congr hbuf hin hout rfl rfl, hflows, rfl⟩

variable (e hfiles) in
theorem initial_delivers [DecidableEq F] {input : F → List UInt8} (output : F → List UInt8)
    (hwrites : cfg.Writes (input fin) y) : ∃ N,
      (World.initial base input output).Delivers cfg e hfiles output y N := by
  obtain ⟨s, k, hprog, hruns⟩ := hwrites
  have hnodup := List.Nodup.of_map _ hfiles.distinct
  have htee : ∀ p, (cfg.teeFds p).Nodup := by
    intro p
    unfold Config.teeFds
    split_ifs
    · exact (List.nodup_append.mp hnodup).1
    · exact (List.nodup_append.mp hnodup).2.1
  let steps : Nat → Nat := fun p =>
    if p = 0 then k else (y p).length * ((cfg.teeFds p).length + 1) + 2
  let rest : Nat → List UInt8 := fun p => if p = 0 then input fin else y p
  refine ⟨_, initial_inv input output, by simp [World.initial], by simp [World.initial],
    by simp [World.initial], ⟨World.procOf cfg e (World.initial base input output),
    fun p => if p = 0 then input fin else [], fun _ _ => []⟩, _, rfl, ⟨?_, ?_⟩,
    ⟨rest, cfg.result y, steps, ⟨?_, ?_, ?_, ?_⟩, rfl⟩, rfl⟩
  · intro p _
    cases p with
    | zero => rfl
    | succ p => rfl
  · intro f p fd _
    exact (List.append_nil _).symm
  · intro p hp
    have hcases : p = 0 ∨ p = 1 ∨ p = 2 := by
      have hp' : p < 3 := hp
      omega
    rcases hcases with rfl | rfl | rfl
    · show (cfg.net e).Remaining 0 k (input fin) (cfg.result y 0) (cfg.program.map .cmd)
      rw [hprog]
      refine (hruns.map Prog.cmd fun _ => rfl).of_imp ?_
      rintro ⟨q, fd, hdest⟩
      exact absurd (dest_later hdest).1 (Nat.not_lt_zero q)
    · exact (tee_runs (htee 1) (y 1)).map (Prog.tee e.out.1 cfg.outputFds) fun _ => rfl
    · exact (tee_runs (htee 2) (y 2)).map (Prog.tee e.err.1 cfg.errorFds) fun _ => rfl
  · intro p fd q hdest
    obtain ⟨rfl, rfl, hfd⟩ := dest_eq_some.mp hdest
    have hne : fd ≠ 0 := by omega
    simp [rest, Config.result, hfd, hne]
  · intro q hq hno
    have hzero : q = 0 := by
      by_contra hne
      have hq' : q < 3 := hq
      exact hno ⟨0, q, dest_eq_some.mpr ⟨rfl, rfl, by omega⟩⟩
    subst hzero
    rfl
  · intro p _ fd _
    exact List.nil_append _

/-- Until the call returns, a process can go on: the parent, or, while it waits, a child. -/
theorem World.Delivers.progress [DecidableEq F] {input output : F → List UInt8} (he : e.Free base)
    (hprog : cfg.program ≠ none) (hcap : 0 < cfg.capacity)
    (h : w.Delivers cfg e hfiles old y m) (hpc : w.pc ≠ .returned) :
    ∃ a w', (cfg.multiwriter e base input output).step w a w' := by
  have hinv := h.inv
  have hparent := hinv.parent
  -- a child that has not ended can make its next call, or waits for another one that can
  have hchild : (∀ j < 3, w.child j ≠ .unborn) → (∃ j < 3, w.child j ≠ .ended ∧
      w.child j ≠ .killed ∧ w.child j ≠ .reaped) →
      ∃ a w', (cfg.multiwriter e base input output).step w a w' := by
    rintro hborn ⟨j, hj, hend, hkill, hreap⟩
    obtain ⟨a, m₀, ha, hcarries, ⟨rest, outs, k, hflow, -⟩, -⟩ := h.flows
    have hproc : w.procOf cfg e j ≠ none := by
      unfold World.procOf
      cases hc : w.child j with
      | ended => exact absurd hc hend
      | killed => exact absurd hc hkill
      | reaped => exact absurd hc hreap
      | running s => exact Option.some_ne_none s
      | unborn => exact absurd hc (hborn j hj)
      | setup n =>
        rw [(hinv.setup j n hc).1]
        simpa using hprog
    obtain ⟨p, hp, s, hs, hready⟩ := hflow.not_stuck hcap ⟨j, hj, by rw [ha]; exact hproc⟩
    have hruns := hflow.remaining hp hs
    rw [ha] at hs
    cases hc : w.child p with
    | unborn => exact absurd hc (hborn p hp)
    | setup n =>
      by_cases hn : n < 6
      · exact ⟨some p, _, .setup hc hn⟩
      · obtain ⟨s₀, hs₀⟩ := Option.ne_none_iff_exists'.mp hprog
        exact ⟨some p, _, .exec hc (by omega) hs₀⟩
    | running s' =>
      unfold World.procOf at hs
      rw [hc] at hs
      cases hs
      have hconn := hinv.connected hfiles he hprog h.noAbort ha hflow hp hc
      obtain ⟨o, k', hcall⟩ := hcarries.ready hp hruns hready hconn
      exact ⟨some p, _, .call hc hcall⟩
    | ended | killed | reaped =>
      unfold World.procOf at hs
      rw [hc] at hs
      cases hs
  have hall : w.pc.born = 3 → ∀ j < 3, w.child j ≠ .unborn := by
    intro hthree j hj hun
    have hle := (hinv.born j).mp hun
    omega
  cases hpc' : w.pc with
  | returned => exact absurd hpc' hpc
  | abort i n => exact absurd hpc' (h.noAbort i n)
  | pipeOut =>
    rw [hpc'] at hparent
    refine ⟨none, _, .pipeOut hpc' ?_ ?_ he.out_ne⟩
    · rw [hparent]
      exact inherited_eq_none.mpr he.out_read
    · rw [hparent]
      exact inherited_eq_none.mpr he.out_write
  | pipeErr =>
    rw [hpc'] at hparent
    refine ⟨none, _, .pipeErr hpc' ?_ ?_ he.err_ne⟩
    · rw [hparent]
      show (((inherited base).openAt e.out.1 _).openAt e.out.2 _) e.err.1 = none
      rw [Fds.openAt_ne he.cross'.symm, Fds.openAt_ne he.read_ne.symm]
      exact inherited_eq_none.mpr he.err_read
    · rw [hparent]
      show (((inherited base).openAt e.out.1 _).openAt e.out.2 _) e.err.2 = none
      rw [Fds.openAt_ne he.write_ne.symm, Fds.openAt_ne he.cross.symm]
      exact inherited_eq_none.mpr he.err_write
  | forkCmd => exact ⟨none, _, .forkCmd hpc'⟩
  | closeOut => exact ⟨none, _, .closeOut hpc'⟩
  | closeErr => exact ⟨none, _, .closeErr hpc'⟩
  | forkOutTee => exact ⟨none, _, .forkOutTee hpc'⟩
  | forkErrTee => exact ⟨none, _, .forkErrTee hpc'⟩
  | closeReadOut => exact ⟨none, _, .closeReadOut hpc'⟩
  | closeReadErr => exact ⟨none, _, .closeReadErr hpc'⟩
  | waitCmd =>
    have hcounted := hinv.counted
    simp only [World.Counted, hpc'] at hcounted
    by_cases hend : w.child 0 = .ended
    · exact ⟨none, _, .waitCmdExited hpc' hend⟩
    · exact hchild (hall (by rw [hpc']; rfl)) ⟨0, by decide, hend, h.alive 0, hcounted 0⟩
  | wait c =>
    by_cases hc : c ≤ 1
    · exact ⟨none, _, .leave hpc' hc⟩
    have hcounted := hinv.counted
    simp only [World.Counted, hpc'] at hcounted
    obtain ⟨j, hj, hunreaped⟩ := exists_of_slotCount_pos
      (show 0 < slotCount 3 w.child ChildPC.unreaped by omega)
    have hreap : w.child j ≠ .reaped := by
      intro he'
      rw [he'] at hunreaped
      cases hunreaped
    by_cases hend : w.child j = .ended
    · obtain ⟨c, rfl⟩ : ∃ d, c = d + 1 := ⟨c - 1, by omega⟩
      exact ⟨none, _, .wait hpc' (by omega) (.inl hend)⟩
    · exact hchild (hall (by rw [hpc']; rfl)) ⟨j, hj, hend, h.alive j, hreap⟩

/-- A command that writes one byte to its standard output and one to its standard error. -/
def report : Nat → Act UInt8 Nat
  | 0 => .write 1 1 fun _ => 1
  | 1 => .write 2 2 fun _ => 2
  | _ => .exit

/-- Its outputs are copied to the descriptors 3 and 4. -/
def reporting : Config Nat where
  program := some 0
  act := report
  outputFds := [3]
  errorFds := [4]
  capacity := 1
  faults := false

def fiveFiles (fd : Nat) : Option Nat := if fd < 5 then some fd else none

theorem reporting_free : (⟨(5, 6), (7, 8)⟩ : Ends).Free fiveFiles := by
  constructor <;> decide

theorem reporting_files : reporting.Files fiveFiles 0 where
  stdin := rfl
  stdout := by decide
  stderr := by decide
  opened := by decide
  distinct := by decide

theorem reporting_writes (xs : List UInt8) :
    reporting.Writes xs fun fd => if fd = 1 then [1] else [2] := by
  refine ⟨0, 3, rfl, ?_⟩
  refine .write rfl rfl ?_
  have herr : ∀ outs : Nat → List UInt8, outs 2 = [2] → Function.update outs 1 [] 2 = 2 :: [] :=
    fun outs h => (Function.update_of_ne (by decide) _ _).trans h
  refine .write rfl (herr _ rfl) ?_
  refine .exit rfl (fun h => absurd h id) ?_
  intro fd
  by_cases h2 : fd = 2
  · rw [h2, Function.update_self]
  · rw [Function.update_of_ne h2]
    by_cases h1 : fd = 1
    · rw [h1, Function.update_self]
    · rw [Function.update_of_ne h1]
      simp [h1, h2]

end Solidc.Multiwriter
