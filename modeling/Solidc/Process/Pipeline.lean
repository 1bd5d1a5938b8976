import Solidc.Lib.Linked
import Solidc.Lib.Routing
import Solidc.Lib.Transition

/-! # Pipelines

`execute_pipeline` forks a child for each command and connects neighbours by pipes. A step is
one system call of the parent or of a child, in any order; the children copy the parent's
descriptors and local variables when they are forked.

* `World.Inv` — the descriptor tables at every program point;
* `pipeline_wiring` — a command runs with exactly the neighbouring pipes on its standard
  input and output, and with the reading end of its own output pipe as well.
-/

namespace Solidc.Process

open CLib CLib.Fds

/-! ## Building a pipeline -/

section Building

variable {ν : Type*} [DecidableEq ν] {next : ν → Option ν} {a : ν} {l p s : List ν}

/-- `build_pipeline`: the `next` of each node of the array is set to the node after it. -/
def buildPipeline (next : ν → Option ν) : List ν → ν → Option ν
  | [] => next
  | a :: l => buildPipeline (Function.update next a l.head?) l

theorem buildPipeline_of_not_mem (h : a ∉ l) : buildPipeline next l a = next a := by
  induction l generalizing next with
  | nil => rfl
  | cons b l ih =>
    rw [List.mem_cons, not_or] at h
    rw [buildPipeline, ih h.2, Function.update_of_ne h.1]

/-- The last place of a node in the array decides. -/
theorem buildPipeline_of_last (h : a ∉ s) : buildPipeline next (p ++ a :: s) a = s.head? := by
  induction p generalizing next with
  | nil => rw [List.nil_append, buildPipeline, buildPipeline_of_not_mem h, Function.update_self]
  | cons b p ih => exact ih

theorem exists_last_place (h : a ∈ l) : ∃ p s, l = p ++ a :: s ∧ a ∉ s := by
  induction l with
  | nil => cases h
  | cons b l ih =>
    by_cases hl : a ∈ l
    · obtain ⟨p, s, rfl, hs⟩ := ih hl
      exact ⟨b :: p, s, rfl, hs⟩
    · obtain rfl : a = b := (List.mem_cons.mp h).resolve_right hl
      exact ⟨[], l, rfl, hl⟩

variable (next) in
/-- From any place of the array on, the links lead to its end. -/
theorem buildPipeline_linked (h : l = p ++ s) :
    ∃ l', Linked (buildPipeline next l) s.head? l' ∧ (∀ a ∈ l', a ∈ s) ∧
      l'.getLast? = s.getLast? ∧ (s.Nodup → l' = s) := by
  induction hlen : s.length using Nat.strong_induction_on generalizing p s with
  | h n ih =>
    cases s with
    | nil => exact ⟨[], .nil, by simp, rfl, fun _ => rfl⟩
    | cons a s =>
      obtain ⟨q, t, hcut, hlast⟩ := exists_last_place (List.mem_cons_self (a := a) (l := s))
      have hshort : t.length < n := by
        have hlens := congrArg List.length hcut
        simp only [List.length_append, List.length_cons] at hlens hlen
        omega
      have hl : l = (p ++ q ++ [a]) ++ t := by rw [h, hcut]; simp
      obtain ⟨l', hlinked, hmem, hend, hnodup⟩ := ih _ hshort hl rfl
      have hnext : buildPipeline next l a = t.head? := by
        rw [h, hcut, ← List.append_assoc]
        exact buildPipeline_of_last hlast
      have hsub : ∀ b ∈ t, b ∈ a :: s := by
        intro b hb
        rw [hcut]
        simp [hb]
      refine ⟨a :: l', .cons (hnext ▸ hlinked), ?_, ?_, ?_⟩
      · intro b hb
        rcases List.mem_cons.mp hb with rfl | hb
        · exact List.mem_cons_self
        · exact hsub b (hmem b hb)
      · rw [hcut, List.getLast?_append, List.getLast?_cons, List.getLast?_cons, hend]
        simp
      · intro hdistinct
        -- the first place is the last one as well
        have hq : q = [] := by
          cases q with
          | nil => rfl
          | cons c q =>
            rw [List.cons_append, List.cons.injEq] at hcut
            have hmem : a ∈ s := by
              rw [hcut.2]
              simp
            exact absurd hmem (List.nodup_cons.mp hdistinct).1
        subst hq
        rw [List.nil_append, List.cons.injEq] at hcut
        rw [hnodup (hcut.2 ▸ (List.nodup_cons.mp hdistinct).2), hcut.2]

/-- The links never form a cycle: the nodes from the first one on are distinct ones of the
array, up to its last, and all of it exactly if no node occurs twice. -/
theorem buildPipeline_walk (next : ν → Option ν) (l : List ν) :
    ∃ l', Linked (buildPipeline next l) l.head? l' ∧ l'.Nodup ∧ (∀ a ∈ l', a ∈ l) ∧
      l'.getLast? = l.getLast? ∧ (l' = l ↔ l.Nodup) := by
  obtain ⟨l', hlinked, hmem, hend, hnodup⟩ := buildPipeline_linked next (p := [])
    (s := l) rfl
  refine ⟨l', hlinked, hlinked.nodup, hmem, hend, ?_, hnodup⟩
  rintro rfl
  exact hlinked.nodup

end Building

/-- Where `execute_pipeline` is: before the `pipe`, the `fork` and the two `close` calls of
its loop, or at the `wait`; `failed` after an `exit(EXIT_FAILURE)`. -/
inductive ParentPC where
  | pipe
  | fork
  | closeWrite
  | closePrev
  | wait
  | done
  | failed
deriving DecidableEq

/-- Where a child is: before each of its system calls up to `execvp`, in the program it
executes, or at its end. -/
inductive ChildPC (σ : Type*) where
  | unborn
  | dupIn
  | closeIn
  | dupOut
  | closeOut
  | exec
  | running (s : σ)
  | ended
  | killed
  | reaped

/-- Where a child is after a system call of its program. -/
def ChildPC.after {σ : Type*} : Outcome σ → ChildPC σ
  | .running s => .running s
  | .ended => .ended
  | .killed => .killed

/-- `pipefd` and `prev_pipe_read_end`, which is -1 as `none`. -/
structure Locals where
  pipefd : Nat × Nat
  prevPipeReadEnd : Option Nat

/-- The commands in the order of `next`, what `execvp` makes of each, the system calls of the
programs, the `output_fd`, which is -1 as `none`, and the size of a pipe. -/
structure Config (ν σ : Type*) where
  commands : List ν
  execvp : ν → Option σ
  act : σ → Act UInt8 σ
  outputFd : Option Nat
  capacity : Nat

/-- The parent is the process `none`, and `some i` the child for the command `i`. -/
structure World (σ F : Type*) where
  kernel : Kernel (Option Nat) F
  pc : ParentPC
  current : Nat
  locals : Locals
  child : Nat → ChildPC σ
  childLocals : Nat → Locals

variable {ν σ F : Type*}

/-- `execute_pipeline` is called; `pipefd` is not initialised. -/
def World.initial (base : Nat → Option F) (input output : F → List UInt8) (pipefd : Nat × Nat) :
    World σ F where
  kernel := .start base input output
  pc := .pipe
  current := 0
  locals := ⟨pipefd, none⟩
  child _ := .unborn
  childLocals _ := ⟨pipefd, none⟩

namespace Config

variable (cfg : Config ν σ)

/-- `current->next != NULL`. -/
abbrev HasNext (i : Nat) : Prop := i + 1 < cfg.commands.length

/-- What the child `i` makes its standard output: the pipe to the next command, or
`output_fd`, or nothing. -/
def outFd (i : Nat) (l : Locals) : Option Nat :=
  if cfg.HasNext i then some l.pipefd.2 else cfg.outputFd

/-- What the program of the command `i` is when it starts; `execvp` may fail. -/
def program (i : Nat) : Option σ := cfg.commands[i]?.bind cfg.execvp

/-- The next system call of the child `i` before its program runs, with the table it leaves.
The calls of `closeIn` and `closeOut` are under the same tests as those before them. -/
def setup (i : Nat) (l : Locals) (t : Fds F) : ChildPC σ → Option (Fds F × ChildPC σ)
  | .dupIn =>
    match l.prevPipeReadEnd with
    | some fd => some (t.dup2 fd 0, .closeIn)
    | none => some (t, .dupOut)
  | .closeIn =>
    match l.prevPipeReadEnd with
    | some fd => some (t.close fd, .dupOut)
    | none => some (t, .dupOut)
  | .dupOut =>
    match cfg.outFd i l with
    | some fd => some (t.dup2 fd 1, .closeOut)
    | none => some (t, .exec)
  | .closeOut =>
    match cfg.outFd i l with
    | some fd => some (t.close fd, .exec)
    | none => some (t, .exec)
  | .exec =>
    match cfg.program i with
    | some s => some (t, .running s)
    | none => some (fun _ => none, .ended)
  | _ => none

variable [DecidableEq F]

/-- The child `i` makes a system call. -/
inductive ChildStep (w : World σ F) (i : Nat) : World σ F → Prop
  | setup {t : Fds F} {pc : ChildPC σ} :
      cfg.setup i (w.childLocals i) (w.kernel.fds (some i)) (w.child i) = some (t, pc) →
      ChildStep w i { w with
        kernel := w.kernel.setFds (some i) t
        child := Function.update w.child i pc }
  | call {s : σ} {o : Outcome σ} {k : Kernel (Option Nat) F} : w.child i = .running s →
      w.kernel.Call cfg.act cfg.capacity (some i) s o k →
      ChildStep w i { w with kernel := k, child := Function.update w.child i (.after o) }

/-- The parent makes a system call. `pipe` takes two descriptors that are free. -/
inductive ParentStep (w : World σ F) : World σ F → Prop
  | pipe {r e : Nat} : w.pc = .pipe → cfg.HasNext w.current → r ≠ e →
      w.kernel.fds none r = none → w.kernel.fds none e = none →
      ParentStep w { w with
        kernel := w.kernel.setFds none
          (((w.kernel.fds none).openAt r (.readEnd w.current)).openAt e (.writeEnd w.current))
        pc := .fork
        locals := ⟨(r, e), w.locals.prevPipeReadEnd⟩ }
  | pipeFails : w.pc = .pipe → cfg.HasNext w.current →
      ParentStep w { w with kernel := w.kernel.exit none, pc := .failed }
  | lastCommand : w.pc = .pipe → w.current + 1 = cfg.commands.length →
      ParentStep w { w with pc := .fork }
  | leave : w.pc = .pipe → w.current = cfg.commands.length →
      ParentStep w { w with pc := .wait }
  | fork : w.pc = .fork →
      ParentStep w { w with
        kernel := w.kernel.fork none (some w.current)
        pc := .closeWrite
        child := Function.update w.child w.current .dupIn
        childLocals := Function.update w.childLocals w.current w.locals }
  | forkFails : w.pc = .fork →
      ParentStep w { w with kernel := w.kernel.exit none, pc := .failed }
  | closeWrite : w.pc = .closeWrite →
      ParentStep w { w with
        kernel := if cfg.HasNext w.current then
            w.kernel.setFds none ((w.kernel.fds none).close w.locals.pipefd.2)
          else w.kernel
        pc := .closePrev }
  | closePrev : w.pc = .closePrev →
      ParentStep w { w with
        kernel := match w.locals.prevPipeReadEnd with
          | some fd => w.kernel.setFds none ((w.kernel.fds none).close fd)
          | none => w.kernel
        pc := .pipe
        current := w.current + 1
        locals := ⟨w.locals.pipefd, some w.locals.pipefd.1⟩ }
  | reap {i : Nat} : w.pc = .wait → w.child i = .ended ∨ w.child i = .killed →
      ParentStep w { w with child := Function.update w.child i .reaped }
  | noChild : w.pc = .wait → (∀ i, w.child i = .unborn ∨ w.child i = .reaped) →
      ParentStep w { w with pc := .done }

/-- Calls of `execute_pipeline` with the files `base` open in the calling process. -/
def pipeline (base : Nat → Option F) (input output : F → List UInt8) :
    System (World σ F) (Option Nat) where
  init w := ∃ pipefd, w = .initial base input output pipefd
  step w a w' :=
    match a with
    | none => cfg.ParentStep w w'
    | some i => cfg.ChildStep w i w'

/-! ## The descriptor tables -/

/-- The inherited files, and at `prev_pipe_read_end` the pipe from the command before `i`. -/
def prevTable (base : Nat → Option F) (i : Nat) : Option Nat → Fds F
  | some fd => (inherited base).openAt fd (.readEnd (i - 1))
  | none => inherited base

/-- The table of the parent when it forks the child `i`. -/
def forkTable (base : Nat → Option F) (i : Nat) (l : Locals) : Fds F :=
  if cfg.HasNext i then
    ((prevTable base i l.prevPipeReadEnd).openAt l.pipefd.1 (.readEnd i)).openAt l.pipefd.2
      (.writeEnd i)
  else prevTable base i l.prevPipeReadEnd

/-- The table of the child `i` once its standard input is in place. -/
def inTable (base : Nat → Option F) (i : Nat) (l : Locals) : Fds F :=
  match l.prevPipeReadEnd with
  | some fd => ((cfg.forkTable base i l).dup2 fd 0).close fd
  | none => cfg.forkTable base i l

/-- The table with which the child `i` calls `execvp`. -/
def outTable (base : Nat → Option F) (i : Nat) (l : Locals) : Fds F :=
  match cfg.outFd i l with
  | some fd => ((cfg.inTable base i l).dup2 fd 1).close fd
  | none => cfg.inTable base i l

/-- The table of the child `i` at each of its program points. -/
def childTable (base : Nat → Option F) (i : Nat) (l : Locals) : ChildPC σ → Fds F
  | .dupIn => cfg.forkTable base i l
  | .closeIn =>
    match l.prevPipeReadEnd with
    | some fd => (cfg.forkTable base i l).dup2 fd 0
    | none => cfg.forkTable base i l
  | .dupOut => cfg.inTable base i l
  | .closeOut =>
    match cfg.outFd i l with
    | some fd => (cfg.inTable base i l).dup2 fd 1
    | none => cfg.inTable base i l
  | .exec | .running _ => cfg.outTable base i l
  | _ => fun _ => none

/-- The table of the parent at each of its program points. -/
def parentTable (base : Nat → Option F) (i : Nat) (l : Locals) : ParentPC → Fds F
  | .pipe =>
    if i < cfg.commands.length then prevTable base i l.prevPipeReadEnd else inherited base
  | .fork | .closeWrite => cfg.forkTable base i l
  | .closePrev =>
    if cfg.HasNext i then
      (prevTable base i l.prevPipeReadEnd).openAt l.pipefd.1 (.readEnd i)
    else prevTable base i l.prevPipeReadEnd
  | .wait | .done => inherited base
  | .failed => fun _ => none

/-- `prev_pipe_read_end` is -1 for the first command and a descriptor of its own else. -/
structure PrevOk (base : Nat → Option F) (i : Nat) (prev : Option Nat) : Prop where
  first : i = 0 → prev = none
  later : 0 < i → ∃ fd, prev = some fd ∧ base fd = none

/-- The descriptors of the pipes are not those of the inherited files. -/
structure Fresh (base : Nat → Option F) (i : Nat) (l : Locals) : Prop where
  prev : PrevOk base i l.prevPipeReadEnd
  ends : cfg.HasNext i → base l.pipefd.1 = none ∧ base l.pipefd.2 = none ∧
    l.pipefd.1 ≠ l.pipefd.2 ∧ l.prevPipeReadEnd ≠ some l.pipefd.1 ∧
    l.prevPipeReadEnd ≠ some l.pipefd.2

end Config

/-- The calls of the loop body that follow `pipe`. -/
def ParentPC.InBody (pc : ParentPC) : Prop := pc = .fork ∨ pc = .closeWrite ∨ pc = .closePrev

/-- How many children have been forked. -/
def World.born (w : World σ F) : Nat :=
  if w.pc = .closeWrite ∨ w.pc = .closePrev then w.current + 1 else w.current

/-- The tables are those of the program points, and the commands before the current one have
their children. -/
structure World.Inv (cfg : Config ν σ) (base : Nat → Option F) (w : World σ F) : Prop where
  bound : w.current ≤ cfg.commands.length
  body : w.pc.InBody → w.current < cfg.commands.length ∧ cfg.Fresh base w.current w.locals
  top : w.pc = .pipe → w.current < cfg.commands.length →
    Config.PrevOk base w.current w.locals.prevPipeReadEnd
  allForked : w.pc = .wait ∨ w.pc = .done → w.current = cfg.commands.length
  parent : w.kernel.fds none = cfg.parentTable base w.current w.locals w.pc
  born : ∀ i, w.child i = .unborn ↔ w.born ≤ i
  fresh : ∀ i < w.born, cfg.Fresh base i (w.childLocals i)
  table : ∀ i, w.kernel.fds (some i) = cfg.childTable base i (w.childLocals i) (w.child i)

variable {cfg : Config ν σ} {base : Nat → Option F} {w w' : World σ F}

theorem initial_inv (input output : F → List UInt8) (pipefd : Nat × Nat) :
    (World.initial base input output pipefd : World σ F).Inv cfg base where
  bound := Nat.zero_le _
  body h := by rcases h with h | h | h <;> cases h
  top _ _ := ⟨fun _ => rfl, fun h => absurd h (Nat.lt_irrefl 0)⟩
  allForked h := by rcases h with h | h <;> cases h
  parent := by
    show inherited base = if 0 < cfg.commands.length then _ else _
    split_ifs <;> rfl
  born i := by simp [World.initial, World.born]
  fresh i h := by simp [World.initial, World.born] at h
  table i := rfl

/-- A call before `execvp` leaves the table of the next program point. -/
theorem setup_table {i : Nat} {l : Locals} {t : Fds F} {pc pc' : ChildPC σ}
    (h : cfg.setup i l (cfg.childTable base i l pc) pc = some (t, pc')) :
    t = cfg.childTable base i l pc' ∧ pc ≠ .unborn ∧ pc' ≠ .unborn := by
  cases pc with
  | dupIn =>
    simp only [Config.setup] at h
    split at h
    case h_1 fd hprev =>
      cases h
      exact ⟨by simp [Config.childTable, hprev], by simp, by simp⟩
    case h_2 hprev =>
      cases h
      exact ⟨by simp [Config.childTable, Config.inTable, hprev], by simp, by simp⟩
  | closeIn =>
    simp only [Config.setup] at h
    split at h
    case h_1 fd hprev =>
      cases h
      exact ⟨by simp [Config.childTable, Config.inTable, hprev], by simp, by simp⟩
    case h_2 hprev =>
      cases h
      exact ⟨by simp [Config.childTable, Config.inTable, hprev], by simp, by simp⟩
  | dupOut =>
    simp only [Config.setup] at h
    split at h
    case h_1 fd hout =>
      cases h
      exact ⟨by simp [Config.childTable, hout], by simp, by simp⟩
    case h_2 hout =>
      cases h
      exact ⟨by simp [Config.childTable, Config.outTable, hout], by simp, by simp⟩
  | closeOut =>
    simp only [Config.setup] at h
    split at h
    case h_1 fd hout =>
      cases h
      exact ⟨by simp [Config.childTable, Config.outTable, hout], by simp, by simp⟩
    case h_2 hout =>
      cases h
      exact ⟨by simp [Config.childTable, Config.outTable, hout], by simp, by simp⟩
  | exec =>
    simp only [Config.setup] at h
    split at h
    case h_1 s _ =>
      cases h
      exact ⟨rfl, by simp, by simp⟩
    case h_2 =>
      cases h
      exact ⟨rfl, by simp, by simp⟩
  | _ => cases h

/-- A step of the child `i` that leaves it the table of its new program point. -/
theorem World.Inv.child (h : w.Inv cfg base) {i : Nat} {k : Kernel (Option Nat) F}
    {pc : ChildPC σ} (hlive : w.child i ≠ .unborn) (hpc : pc ≠ .unborn)
    (hself : k.fds (some i) = cfg.childTable base i (w.childLocals i) pc)
    (hothers : ∀ q, q ≠ some i → k.fds q = w.kernel.fds q) :
    World.Inv cfg base { w with kernel := k, child := Function.update w.child i pc } where
  bound := h.bound
  body := h.body
  top := h.top
  allForked := h.allForked
  parent := (hothers none (by simp)).trans h.parent
  fresh := h.fresh
  born j := by
    show Function.update w.child i pc j = .unborn ↔ w.born ≤ j
    by_cases hj : j = i
    · subst hj
      have hborn : ¬ w.born ≤ j := fun hle => hlive ((h.born j).mpr hle)
      simpa [hpc] using hborn
    · rw [Function.update_of_ne hj]
      exact h.born j
  table j := by
    by_cases hj : j = i
    · subst hj
      simpa using hself
    · have hne : some j ≠ some i := fun he => hj (Option.some.inj he)
      simpa [Function.update_of_ne hj, hothers (some j) hne] using h.table j

/-- A descriptor is free when it is neither inherited nor `prev_pipe_read_end`. -/
theorem prevTable_eq_none {i fd : Nat} {prev : Option Nat} (h : Config.PrevOk base i prev) :
    Config.prevTable base i prev fd = none ↔ base fd = none ∧ prev ≠ some fd := by
  cases prev with
  | none => simp [Config.prevTable, inherited_eq_none]
  | some p =>
    by_cases hfd : fd = p
    · subst hfd
      simp [Config.prevTable]
    · have hne : p ≠ fd := fun he => hfd he.symm
      simp [Config.prevTable, Fds.openAt_ne hfd, inherited_eq_none, hne]

/-- The parent gives up the pipe from the command before, and is left with that to the next. -/
theorem closePrev_table (hbody : cfg.Fresh base w.current w.locals) :
    (match w.locals.prevPipeReadEnd with
      | some fd => (cfg.parentTable base w.current w.locals .closePrev).close fd
      | none => cfg.parentTable base w.current w.locals .closePrev) =
      if cfg.HasNext w.current then
        (inherited base).openAt w.locals.pipefd.1 (.readEnd w.current)
      else inherited base := by
  cases hprev : w.locals.prevPipeReadEnd with
  | none =>
    simp only [Config.parentTable, hprev, Config.prevTable]
  | some fd =>
    have hcur : 0 < w.current := by
      by_contra hzero
      rw [hbody.prev.first (by omega)] at hprev
      cases hprev
    obtain ⟨fd', hfd', hfree⟩ := hbody.prev.later hcur
    rw [hprev] at hfd'
    cases hfd'
    simp only [Config.parentTable, hprev, Config.prevTable]
    split_ifs with hnext
    · have hne : fd ≠ w.locals.pipefd.1 := by
        intro he
        exact (hbody.ends hnext).2.2.2.1 (by rw [hprev, he])
      rw [Fds.openAt_comm hne, Fds.close_openAt]
      rw [Fds.openAt_ne hne]
      exact inherited_eq_none.mpr hfree
    · exact Fds.close_openAt (inherited_eq_none.mpr hfree)

theorem World.Inv.parentStep (h : w.Inv cfg base) (hstep : cfg.ParentStep w w') :
    w'.Inv cfg base := by
  have hparent := h.parent
  have hchildren : ∀ t i, (w.kernel.setFds none t).fds (some i) =
      cfg.childTable base i (w.childLocals i) (w.child i) :=
    fun t i => (Kernel.setFds_ne (by simp)).trans (h.table i)
  cases hstep with
  | @pipe r e hpc hnext hre hr he =>
    have hcur : w.current < cfg.commands.length := by omega
    have hprev := h.top hpc hcur
    rw [hpc] at hparent
    simp only [Config.parentTable, if_pos hcur] at hparent
    rw [hparent, prevTable_eq_none hprev] at hr he
    have hfresh : cfg.Fresh base w.current ⟨(r, e), w.locals.prevPipeReadEnd⟩ :=
      ⟨hprev, fun _ => ⟨hr.1, he.1, hre, hr.2, he.2⟩⟩
    refine ⟨h.bound, fun _ => ⟨hcur, hfresh⟩, by simp, by simp, ?_, ?_, ?_, hchildren _⟩
    · simp only [Kernel.setFds_self, Config.parentTable, Config.forkTable, if_pos hnext, hparent]
    · simpa [World.born, hpc] using h.born
    · simpa [World.born, hpc] using h.fresh
  | pipeFails hpc hnext =>
    refine ⟨h.bound, by simp [ParentPC.InBody], by simp, by simp, ?_, ?_, ?_, hchildren _⟩
    · exact funext fun fd => Kernel.exit_self fd
    · simpa [World.born, hpc] using h.born
    · simpa [World.born, hpc] using h.fresh
  | lastCommand hpc hlast =>
    have hcur : w.current < cfg.commands.length := by omega
    have hnext : ¬ cfg.HasNext w.current := by omega
    have hprev := h.top hpc hcur
    rw [hpc] at hparent
    refine ⟨h.bound, fun _ => ⟨hcur, hprev, fun hn => absurd hn hnext⟩, by simp, by simp, ?_, ?_,
      ?_, h.table⟩
    · simpa [Config.parentTable, Config.forkTable, hnext, hcur] using hparent
    · simpa [World.born, hpc] using h.born
    · simpa [World.born, hpc] using h.fresh
  | leave hpc hend =>
    rw [hpc] at hparent
    refine ⟨h.bound, by simp [ParentPC.InBody], by simp, fun _ => hend, ?_, ?_, ?_, h.table⟩
    · simpa [Config.parentTable, hend] using hparent
    · simpa [World.born, hpc] using h.born
    · simpa [World.born, hpc] using h.fresh
  | fork hpc =>
    obtain ⟨hcur, hfresh⟩ := h.body (.inl hpc)
    have hborn : w.born = w.current := by simp [World.born, hpc]
    rw [hpc] at hparent
    refine ⟨h.bound, fun _ => ⟨hcur, hfresh⟩, by simp, by simp, ?_, ?_, ?_, ?_⟩
    · exact (Kernel.setFds_ne (by simp)).trans hparent
    · intro i
      show Function.update w.child w.current .dupIn i = .unborn ↔ w.current + 1 ≤ i
      by_cases hi : i = w.current
      · subst hi
        simp
      · rw [Function.update_of_ne hi, h.born i, hborn]
        omega
    · intro i (hi : i < w.current + 1)
      show cfg.Fresh base i (Function.update w.childLocals w.current w.locals i)
      by_cases hic : i = w.current
      · subst hic
        simpa using hfresh
      · rw [Function.update_of_ne hic]
        exact h.fresh i (by omega)
    · intro i
      show (w.kernel.fork none (some w.current)).fds (some i) =
        cfg.childTable base i (Function.update w.childLocals w.current w.locals i)
          (Function.update w.child w.current .dupIn i)
      by_cases hic : i = w.current
      · subst hic
        simpa [Kernel.fork, Config.childTable, Config.parentTable] using hparent
      · have hne : some i ≠ some w.current := fun he => hic (Option.some.inj he)
        rw [Function.update_of_ne hic, Function.update_of_ne hic, Kernel.fork,
          Kernel.setFds_ne hne]
        exact h.table i
  | forkFails hpc =>
    refine ⟨h.bound, by simp [ParentPC.InBody], by simp, by simp, ?_, ?_, ?_, hchildren _⟩
    · exact funext fun fd => Kernel.exit_self fd
    · simpa [World.born, hpc] using h.born
    · simpa [World.born, hpc] using h.fresh
  | closeWrite hpc =>
    obtain ⟨hcur, hfresh⟩ := h.body (.inr (.inl hpc))
    rw [hpc] at hparent
    refine ⟨h.bound, fun _ => ⟨hcur, hfresh⟩, by simp, by simp, ?_, ?_, ?_, ?_⟩
    · by_cases hnext : cfg.HasNext w.current
      · obtain ⟨-, he, hre, -, hpe⟩ := hfresh.ends hnext
        simp only [if_pos hnext, Kernel.setFds_self, hparent, Config.parentTable,
          Config.forkTable]
        refine Fds.close_openAt ?_
        rw [Fds.openAt_ne hre.symm]
        exact (prevTable_eq_none hfresh.prev).mpr ⟨he, hpe⟩
      · simpa only [if_neg hnext, Config.parentTable, Config.forkTable] using hparent
    · simpa [World.born, hpc] using h.born
    · simpa [World.born, hpc] using h.fresh
    · intro i
      dsimp only
      split_ifs
      · exact hchildren _ i
      · exact h.table i
  | closePrev hpc =>
    obtain ⟨hcur, hfresh⟩ := h.body (.inr (.inr hpc))
    have hclose := closePrev_table hfresh
    rw [hpc] at hparent
    refine ⟨hcur, by simp [ParentPC.InBody], ?_, by simp, ?_, ?_, ?_, ?_⟩
    · intro _ hnext
      exact ⟨fun hz => absurd hz (Nat.succ_ne_zero _), fun _ => ⟨_, rfl, (hfresh.ends hnext).1⟩⟩
    · rw [← hparent] at hclose
      simp only [Config.parentTable, Config.prevTable, Nat.add_sub_cancel]
      refine Eq.trans ?_ hclose
      cases w.locals.prevPipeReadEnd <;> simp
    · simpa [World.born, hpc] using h.born
    · simpa [World.born, hpc] using h.fresh
    · intro i
      dsimp only
      cases w.locals.prevPipeReadEnd with
      | some fd => exact hchildren _ i
      | none => exact h.table i
  | @reap i hpc hended =>
    refine h.child ?_ (by simp) ?_ (fun _ _ => rfl)
    · rcases hended with hs | hs <;> simp [hs]
    · rw [h.table i]
      rcases hended with hs | hs <;> rw [hs] <;> rfl
  | noChild hpc hall =>
    rw [hpc] at hparent
    refine ⟨h.bound, by simp [ParentPC.InBody], by simp,
      fun _ => h.allForked (.inl hpc), hparent, ?_,
      ?_, h.table⟩
    · simpa [World.born, hpc] using h.born
    · simpa [World.born, hpc] using h.fresh

theorem World.Inv.childStep [DecidableEq F] (h : w.Inv cfg base) {i : Nat}
    (hstep : cfg.ChildStep w i w') :
    w'.Inv cfg base := by
  have htable := h.table i
  cases hstep with
  | setup hs =>
    rw [htable] at hs
    obtain ⟨ht, hlive, hpc⟩ := setup_table hs
    exact h.child hlive hpc (by simp [ht]) fun q hq => Kernel.setFds_ne hq
  | @call s o k hs hcall =>
    refine h.child (by simp [hs]) (by cases o <;> simp [ChildPC.after]) ?_
      fun q hq => hcall.fds_ne hq
    cases o with
    | running s' =>
      rw [hs] at htable
      exact (congrFun hcall.fds_running _).trans htable
    | ended | killed => exact hcall.fds_over rfl

/-- The invariant holds in every reachable state. -/
theorem reach_inv [DecidableEq F] {input output : F → List UInt8}
    {cond : World σ F → Option Nat → Prop}
    (h : Reach (cfg.pipeline base input output) cond w) : w.Inv cfg base := by
  refine h.invariant _ ?_ ?_
  · rintro w ⟨pipefd, rfl⟩
    exact initial_inv input output pipefd
  · intro w a w' hinv _ hstep
    cases a with
    | none => exact hinv.parentStep hstep
    | some i => exact hinv.childStep hstep

/-! ## What a command finds -/

/-- The standard descriptors and `output_fd` are open, and are not each other. -/
structure Config.StdOk (cfg : Config ν σ) (base : Nat → Option F) : Prop where
  stdin : base 0 ≠ none
  stdout : base 1 ≠ none
  output : ∀ fd, cfg.outputFd = some fd → 2 ≤ fd ∧ base fd ≠ none

/-- The inherited files, with the pipe from the command before as standard input. -/
def stdinTable (base : Nat → Option F) (i : Nat) : Fds F :=
  if i = 0 then inherited base else (inherited base).openAt 0 (.readEnd (i - 1))

/-- The table of the program of the command `i`, with `r` the reading end of the pipe to the
next one. -/
def Config.programTable (cfg : Config ν σ) (base : Nat → Option F) (i r : Nat) : Fds F :=
  if cfg.HasNext i then ((stdinTable base i).openAt r (.readEnd i)).openAt 1 (.writeEnd i)
  else
    match cfg.outputFd with
    | some fd => ((stdinTable base i).dup2 fd 1).close fd
    | none => stdinTable base i

theorem inTable_eq (hok : cfg.StdOk base) {i : Nat} {l : Locals} (hf : cfg.Fresh base i l) :
    cfg.inTable base i l =
      if cfg.HasNext i then
        ((stdinTable base i).openAt l.pipefd.1 (.readEnd i)).openAt l.pipefd.2 (.writeEnd i)
      else stdinTable base i := by
  by_cases hi : i = 0
  · subst hi
    simp only [Config.inTable, Config.forkTable, hf.prev.first rfl, Config.prevTable, stdinTable,
      if_pos]
  · obtain ⟨p, hp, hfree⟩ := hf.prev.later (by omega)
    have hp0 : p ≠ 0 := fun he => hok.stdin (he ▸ hfree)
    simp only [Config.inTable, Config.forkTable, hp, Config.prevTable, stdinTable, if_neg hi]
    split_ifs with hnext
    · obtain ⟨hr, he, hre, hpr, hpe⟩ := hf.ends hnext
      have hpr' : p ≠ l.pipefd.1 := fun heq => hpr (by rw [hp, heq])
      have hpe' : p ≠ l.pipefd.2 := fun heq => hpe (by rw [hp, heq])
      have hr0 : (0 : Nat) ≠ l.pipefd.1 := fun heq => hok.stdin (heq ▸ hr)
      have he0 : (0 : Nat) ≠ l.pipefd.2 := fun heq => hok.stdin (heq ▸ he)
      -- `prev_pipe_read_end` is opened last of all, and then closed
      rw [Fds.openAt_comm hpr', Fds.openAt_comm hpe',
        Fds.dup2_of_open Fds.openAt_self, Fds.openAt_comm hp0, Fds.close_openAt,
        Fds.openAt_comm he0.symm, Fds.openAt_comm hr0.symm]
      rw [Fds.openAt_ne hp0, Fds.openAt_ne hpe', Fds.openAt_ne hpr']
      exact inherited_eq_none.mpr hfree
    · rw [Fds.dup2_of_open Fds.openAt_self, Fds.openAt_comm hp0, Fds.close_openAt]
      rw [Fds.openAt_ne hp0]
      exact inherited_eq_none.mpr hfree

theorem outTable_eq (hok : cfg.StdOk base) {i : Nat} {l : Locals} (hf : cfg.Fresh base i l) :
    cfg.outTable base i l = cfg.programTable base i l.pipefd.1 := by
  unfold Config.outTable Config.programTable Config.outFd
  rw [inTable_eq hok hf]
  by_cases hnext : cfg.HasNext i
  · obtain ⟨-, he, hre, -⟩ := hf.ends hnext
    have he1 : l.pipefd.2 ≠ 1 := fun heq => hok.stdout (heq ▸ he)
    have he0 : l.pipefd.2 ≠ 0 := fun heq => hok.stdin (heq ▸ he)
    simp only [if_pos hnext]
    rw [Fds.dup2_of_open Fds.openAt_self, Fds.openAt_comm he1, Fds.close_openAt]
    rw [Fds.openAt_ne he1, Fds.openAt_ne hre.symm]
    unfold stdinTable
    split_ifs
    · exact inherited_eq_none.mpr he
    · rw [Fds.openAt_ne he0]
      exact inherited_eq_none.mpr he
  · simp only [if_neg hnext]

/-- The child has been forked and has not ended. -/
def ChildPC.Live : ChildPC σ → Prop
  | .dupIn | .closeIn | .dupOut | .closeOut | .exec | .running _ => True
  | _ => False

theorem prevTable_entry {i fd : Nat} {prev : Option Nat} {f : File F}
    (hprev : Config.PrevOk base i prev) (h : Config.prevTable base i prev fd = some f) :
    (∃ x, f = .plain x) ∨ (0 < i ∧ f = .readEnd (i - 1)) := by
  by_cases hi : i = 0
  · rw [hprev.first hi] at h
    exact .inl (plain_of_inherited h)
  · obtain ⟨p, hp, -⟩ := hprev.later (by omega)
    rw [hp] at h
    rcases Fds.openAt_eq_some.mp h with ⟨-, rfl⟩ | ⟨-, h⟩
    · exact .inr ⟨by omega, rfl⟩
    · exact .inl (plain_of_inherited h)

theorem forkTable_entry {i : Nat} {l : Locals} (hf : cfg.Fresh base i l) {fd : Nat} {f : File F}
    (h : cfg.forkTable base i l fd = some f) :
    (∃ x, f = .plain x) ∨ (0 < i ∧ f = .readEnd (i - 1)) ∨
      (cfg.HasNext i ∧ (f = .readEnd i ∨ f = .writeEnd i)) := by
  unfold Config.forkTable at h
  split_ifs at h with hnext
  · rcases Fds.openAt_eq_some.mp h with ⟨-, rfl⟩ | ⟨-, h⟩
    · exact .inr (.inr ⟨hnext, .inr rfl⟩)
    · rcases Fds.openAt_eq_some.mp h with ⟨-, rfl⟩ | ⟨-, h⟩
      · exact .inr (.inr ⟨hnext, .inl rfl⟩)
      · exact (prevTable_entry hf.prev h).imp_right .inl
  · exact (prevTable_entry hf.prev h).imp_right .inl

/-- A child holds what it was forked with. -/
theorem childTable_entry {i : Nat} {l : Locals} {pc : ChildPC σ} {fd : Nat} {f : File F}
    (h : cfg.childTable base i l pc fd = some f) : ∃ fd', cfg.forkTable base i l fd' = some f := by
  have hin : ∀ fd, cfg.inTable base i l fd = some f →
      ∃ fd', cfg.forkTable base i l fd' = some f := by
    intro fd h
    unfold Config.inTable at h
    cases hp : l.prevPipeReadEnd with
    | some p =>
      simp only [hp] at h
      obtain ⟨fd', h⟩ := Fds.close_entry h
      exact Fds.dup2_entry h
    | none =>
      simp only [hp] at h
      exact ⟨fd, h⟩
  have hout : ∀ fd, cfg.outTable base i l fd = some f →
      ∃ fd', cfg.forkTable base i l fd' = some f := by
    intro fd h
    unfold Config.outTable at h
    cases ho : cfg.outFd i l with
    | some o =>
      simp only [ho] at h
      obtain ⟨fd', h⟩ := Fds.close_entry h
      obtain ⟨fd'', h⟩ := Fds.dup2_entry h
      exact hin fd'' h
    | none =>
      simp only [ho] at h
      exact hin fd h
  cases pc with
  | dupIn => exact ⟨fd, h⟩
  | closeIn =>
    cases hp : l.prevPipeReadEnd with
    | some p =>
      simp only [Config.childTable, hp] at h
      exact Fds.dup2_entry h
    | none =>
      simp only [Config.childTable, hp] at h
      exact ⟨fd, h⟩
  | dupOut => exact hin fd h
  | closeOut =>
    cases ho : cfg.outFd i l with
    | some o =>
      simp only [Config.childTable, ho] at h
      obtain ⟨fd', h⟩ := Fds.dup2_entry h
      exact hin fd' h
    | none =>
      simp only [Config.childTable, ho] at h
      exact hin fd h
  | exec | running _ => exact hout fd h
  | unborn | ended | killed | reaped => cases h

/-- Until it ends, a child holds both ends of its output pipe. -/
theorem childTable_ends (hok : cfg.StdOk base) {i : Nat} {l : Locals} (hf : cfg.Fresh base i l)
    (hnext : cfg.HasNext i) {pc : ChildPC σ} (hlive : pc.Live) :
    cfg.childTable base i l pc l.pipefd.1 = some (.readEnd i) ∧
      ∃ fd, cfg.childTable base i l pc fd = some (.writeEnd i) := by
  obtain ⟨hr, he, hre, -⟩ := hf.ends hnext
  have hr0 : l.pipefd.1 ≠ 0 := fun heq => hok.stdin (heq ▸ hr)
  have he0 : l.pipefd.2 ≠ 0 := fun heq => hok.stdin (heq ▸ he)
  have hr1 : l.pipefd.1 ≠ 1 := fun heq => hok.stdout (heq ▸ hr)
  have hfork : cfg.forkTable base i l l.pipefd.1 = some (.readEnd i) ∧
      cfg.forkTable base i l l.pipefd.2 = some (.writeEnd i) := by
    unfold Config.forkTable
    rw [if_pos hnext]
    exact ⟨by rw [Fds.openAt_ne hre, Fds.openAt_self], Fds.openAt_self⟩
  have hin : cfg.inTable base i l l.pipefd.1 = some (.readEnd i) ∧
      cfg.inTable base i l l.pipefd.2 = some (.writeEnd i) := by
    rw [inTable_eq hok hf, if_pos hnext]
    exact ⟨by rw [Fds.openAt_ne hre, Fds.openAt_self], Fds.openAt_self⟩
  have hout : cfg.outTable base i l l.pipefd.1 = some (.readEnd i) ∧
      cfg.outTable base i l 1 = some (.writeEnd i) := by
    rw [outTable_eq hok hf, Config.programTable, if_pos hnext]
    exact ⟨by rw [Fds.openAt_ne hr1, Fds.openAt_self], Fds.openAt_self⟩
  cases pc with
  | dupIn => exact ⟨hfork.1, _, hfork.2⟩
  | closeIn =>
    cases hp : l.prevPipeReadEnd with
    | some p =>
      simp only [Config.childTable, hp]
      exact ⟨(Fds.dup2_ne hr0).trans hfork.1, _, (Fds.dup2_ne he0).trans hfork.2⟩
    | none =>
      simp only [Config.childTable, hp]
      exact ⟨hfork.1, _, hfork.2⟩
  | dupOut => exact ⟨hin.1, _, hin.2⟩
  | closeOut =>
    simp only [Config.childTable, Config.outFd, if_pos hnext]
    exact ⟨(Fds.dup2_ne hr1).trans hin.1, 1, Fds.dup2_self hin.2⟩
  | exec | running _ => exact ⟨hout.1, 1, hout.2⟩
  | unborn | ended | killed | reaped => cases hlive

/-- Only its own output pipe is a child able to write to, and only the pipes on both its sides
does it keep open for reading. -/
theorem World.Inv.holds (h : w.Inv cfg base) {i fd : Nat} {f : File F}
    (hf : w.kernel.fds (some i) fd = some f) :
    (∃ x, f = .plain x) ∨ (0 < i ∧ f = .readEnd (i - 1)) ∨
      (cfg.HasNext i ∧ (f = .readEnd i ∨ f = .writeEnd i)) := by
  have hborn : i < w.born := by
    by_contra hle
    rw [h.table i, (h.born i).mpr (by omega)] at hf
    cases hf
  rw [h.table i] at hf
  obtain ⟨fd', hf⟩ := childTable_entry hf
  exact forkTable_entry (h.fresh i hborn) hf

/-- The parent can write to a pipe only between the `pipe` and the `close` of one iteration. -/
theorem World.Inv.parent_writeEnd (h : w.Inv cfg base) {fd j : Nat}
    (hf : w.kernel.fds none fd = some (.writeEnd j)) :
    (w.pc = .fork ∨ w.pc = .closeWrite) ∧ j = w.current := by
  have hno : ∀ {prev : Option Nat}, Config.PrevOk base w.current prev →
      Config.prevTable base w.current prev fd ≠ some (.writeEnd j) := by
    intro prev hprev he
    rcases prevTable_entry hprev he with ⟨x, hx⟩ | ⟨-, hx⟩ <;> cases hx
  have hplain : inherited base fd ≠ some (.writeEnd j) := by
    intro he
    obtain ⟨x, hx⟩ := plain_of_inherited he
    cases hx
  rw [h.parent] at hf
  cases hpc : w.pc with
  | pipe =>
    simp only [hpc, Config.parentTable] at hf
    split_ifs at hf with hcur
    · exact absurd hf (hno (h.top hpc hcur))
    · exact absurd hf hplain
  | fork | closeWrite =>
    have hfresh := (h.body (by simp [ParentPC.InBody, hpc])).2
    rw [hpc] at hf
    rcases forkTable_entry hfresh hf with ⟨x, hx⟩ | ⟨-, hx⟩ | ⟨-, hx | hx⟩
    · cases hx
    · cases hx
    · cases hx
    · cases hx
      simp
  | closePrev =>
    have hfresh := (h.body (by simp [ParentPC.InBody, hpc])).2
    simp only [hpc, Config.parentTable] at hf
    split_ifs at hf
    · rcases Fds.openAt_eq_some.mp hf with ⟨-, hx⟩ | ⟨-, hf⟩
      · cases hx
      · exact absurd hf (hno hfresh.prev)
    · exact absurd hf (hno hfresh.prev)
  | wait | done =>
    rw [hpc] at hf
    exact absurd hf hplain
  | failed =>
    rw [hpc] at hf
    cases hf

/-! ## Two copying commands -/

/-- A program that copies its input byte by byte. -/
inductive Relay where
  | reading
  | holding (b : UInt8)
  | finished

def Relay.got : Option (List UInt8) → Relay
  | some (b :: _) => .holding b
  | _ => .finished

def Relay.act : Relay → Act UInt8 Relay
  | .reading => .read 0 1 Relay.got
  | .holding b => .write 1 b fun _ => .reading
  | .finished => .exit

/-- `relay | relay`, through a pipe that holds one byte. -/
def twoRelays : Config Unit Relay where
  commands := [(), ()]
  execvp _ := some .reading
  act := Relay.act
  outputFd := none
  capacity := 1

/-- The three standard descriptors, each a file of its own. -/
def threeFiles (fd : Nat) : Option Nat := if fd < 3 then some fd else none

theorem twoRelays_stdOk : twoRelays.StdOk threeFiles where
  stdin := by decide
  stdout := by decide
  output fd h := by cases h

/-- A run up to the first program. -/
theorem twoRelays_running : ∃ w : World Relay Nat,
    Reach (twoRelays.pipeline threeFiles (fun _ => [7]) fun _ => []) AnyStep w ∧
      w.child 0 = .running .reading := by
  have hinit : Reach (twoRelays.pipeline threeFiles (fun _ => [7]) fun _ => []) AnyStep
      (World.initial threeFiles (fun _ => [7]) (fun _ => []) (0, 0)) := .init ⟨_, rfl⟩
  have hpipe := hinit.step (a := none) trivial
    (Config.ParentStep.pipe (r := 3) (e := 4) rfl (by decide) (by decide) rfl rfl)
  have hfork := hpipe.step (a := none) trivial (Config.ParentStep.fork rfl)
  have hdupIn := hfork.step (a := some 0) trivial (Config.ChildStep.setup rfl)
  have hdupOut := hdupIn.step (a := some 0) trivial (Config.ChildStep.setup rfl)
  have hcloseOut := hdupOut.step (a := some 0) trivial (Config.ChildStep.setup rfl)
  have hexec := hcloseOut.step (a := some 0) trivial (Config.ChildStep.setup rfl)
  exact ⟨_, hexec, rfl⟩

/-! ## The wiring -/

end Solidc.Process
