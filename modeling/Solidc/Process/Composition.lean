import Solidc.Process.Pipeline

/-! # What a pipeline computes

* `pipeline_waits` — no command is ever killed for writing to a pipe that nobody reads, so
  `execute_pipeline` returns only after each has ended by itself;
* `pipeline_composes` — if the commands read all of their input, every interleaving ends, and
  leaves the output of the last command on the output of the command before, and so on.
-/

namespace Solidc.Process

open CLib CLib.Fds

variable {ν σ F : Type*} {cfg : Config ν σ} {base : Nat → Option F}
  {input output : F → List UInt8} {w w' : World σ F} {i : Nat}

/-! ## Broken pipes -/

theorem World.Inv.lt_born (h : w.Inv cfg base) (hs : w.child i ≠ .unborn) : i < w.born := by
  by_contra hle
  exact hs ((h.born i).mpr (by omega))

/-- A child reads its own output pipe as well, which therefore never breaks. -/
theorem World.Inv.not_broken (h : w.Inv cfg base) (hok : cfg.StdOk base) {s : σ}
    (hs : w.child i = .running s) (fd : Nat) : ¬ w.kernel.Broken (some i) fd := by
  rintro ⟨j, hj, hno⟩
  have hfresh := h.fresh i (h.lt_born (by simp [hs]))
  rcases h.holds hj with ⟨x, hx⟩ | ⟨-, hx⟩ | ⟨hnext, hx | hx⟩ <;> cases hx
  have hlive : (w.child i).Live := by simp [hs, ChildPC.Live]
  have hends := (childTable_ends hok hfresh hnext hlive).1
  rw [← h.table i] at hends
  exact hno ⟨some i, _, hends⟩

/-- A command that never exits, whatever its system calls return. -/
structure Config.Endless (cfg : Config ν σ) (P : σ → Prop) : Prop where
  exit : ∀ s, P s → cfg.act s ≠ .exit
  read : ∀ s fd size next, P s → cfg.act s = .read fd size next → ∀ r, P (next r)
  write : ∀ s fd b next, P s → cfg.act s = .write fd b next → ∀ ok, P (next ok)

theorem update_ne_of {α : Type*} {f : Nat → α} {x y : α} {j : Nat} (hf : ∀ i, f i ≠ y)
    (hx : x ≠ y) (i : Nat) : Function.update f j x i ≠ y := by
  by_cases hi : i = j
  · subst hi
    rwa [Function.update_self]
  · rw [Function.update_of_ne hi]
    exact hf i

theorem setup_ne_killed {l : Locals} {t t' : Fds F} {pc : ChildPC σ} :
    cfg.setup i l t pc ≠ some (t', .killed) := by
  intro h
  cases pc with
  | dupIn | closeIn | dupOut | closeOut | exec =>
    simp only [Config.setup] at h
    split at h <;> cases h
  | unborn | running _ | ended | killed | reaped => cases h

/-- The child has not ended, and its program is still in `P`. -/
def ChildPC.StillIn (P : σ → Prop) : ChildPC σ → Prop
  | .running s => P s
  | .ended | .killed | .reaped => False
  | _ => True

theorem setup_stillIn {P : σ → Prop} {s : σ} (hprog : cfg.program i = some s) (hs : P s)
    {l : Locals} {t t' : Fds F} {pc pc' : ChildPC σ} (h : cfg.setup i l t pc = some (t', pc')) :
    pc'.StillIn P := by
  cases pc with
  | exec =>
    simp only [Config.setup, hprog] at h
    cases h
    exact hs
  | dupIn | closeIn | dupOut | closeOut =>
    simp only [Config.setup] at h
    split at h <;> cases h <;> trivial
  | unborn | running _ | ended | killed | reaped => cases h

theorem childStep_stillIn [DecidableEq F] {P : σ → Prop} (hP : cfg.Endless P)
    (hinv : w.Inv cfg base)
    (hok : cfg.StdOk base) {s : σ} (hprog : cfg.program i = some s) (hs : P s)
    (h : (w.child i).StillIn P) {j : Nat} (hstep : cfg.ChildStep w j w') :
    (w'.child i).StillIn P := by
  by_cases hj : i = j
  · subst hj
    cases hstep with
    | setup hset => simpa using setup_stillIn hprog hs hset
    | call hrun hcall =>
      rw [hrun] at h
      cases hcall with
      | read hact => simpa [ChildPC.after, ChildPC.StillIn] using hP.read _ _ _ _ h hact _
      | write hact => simpa [ChildPC.after, ChildPC.StillIn] using hP.write _ _ _ _ h hact _
      | broken _ hbroken => exact absurd hbroken (hinv.not_broken hok hrun _)
      | exit hact => exact absurd hact (hP.exit _ h)
  · cases hstep <;> simpa [Function.update_of_ne hj] using h

/-- The standard output of the command `p` feeds the next one. -/
def Config.dest (cfg : Config ν σ) (p fd : Nat) : Option Nat :=
  if fd = 1 ∧ cfg.HasNext p then some (p + 1) else none

theorem dest_eq_some {p fd q : Nat} :
    cfg.dest p fd = some q ↔ fd = 1 ∧ q = p + 1 ∧ cfg.HasNext p := by
  unfold Config.dest
  split_ifs with h
  · simp [h.1, h.2, eq_comm]
  · simp only [false_iff]
    intro hq
    exact h ⟨hq.1, hq.2.2⟩

theorem dest_later {p fd q : Nat} (h : cfg.dest p fd = some q) :
    p < q ∧ q < cfg.commands.length := by
  obtain ⟨-, rfl, hnext⟩ := dest_eq_some.mp h
  exact ⟨Nat.lt_succ_self p, hnext⟩

theorem dest_single {p fd p' fd' q : Nat} (h : cfg.dest p fd = some q)
    (h' : cfg.dest p' fd' = some q) : p = p' ∧ fd = fd' := by
  obtain ⟨hfd, hq, -⟩ := dest_eq_some.mp h
  obtain ⟨hfd', hq', -⟩ := dest_eq_some.mp h'
  omega

/-- The commands read their standard inputs, and feed each the next one. -/
def Config.net (cfg : Config ν σ) : Net UInt8 σ where
  act := cfg.act
  count := cfg.commands.length
  stdin _ := 0
  dest := cfg.dest
  dest_lt := dest_later
  dest_inj := dest_single

/-- The program of the command `p`: where it starts as long as the child has not called
`execvp`, and nothing once it has ended. -/
def World.procOf (cfg : Config ν σ) (w : World σ F) (p : Nat) : Option σ :=
  match w.child p with
  | .running s => some s
  | .ended | .killed | .reaped => none
  | _ => cfg.program p

/-- How many calls a child has still to make, apart from those of its program. -/
def ChildPC.weight : ChildPC σ → Nat
  | .unborn => 7
  | .dupIn => 6
  | .closeIn => 5
  | .dupOut => 4
  | .closeOut => 3
  | .exec => 2
  | .running _ | .ended | .killed => 1
  | .reaped => 0

/-- How many calls the parent has still to make before it waits. -/
def ParentPC.weight (left : Nat) : ParentPC → Nat
  | .pipe => 4 * left + 2
  | .fork => 4 * left + 1
  | .closeWrite => 4 * left
  | .closePrev => 4 * left - 1
  | .wait => 1
  | .done | .failed => 0

def World.weight (cfg : Config ν σ) (w : World σ F) : Nat :=
  ∑ p ∈ Finset.range cfg.commands.length, (w.child p).weight +
    w.pc.weight (cfg.commands.length - w.current)

/-- Every command after the first reads all of the output of the one before it, `x i`, and all
write only to their standard output and standard error. -/
def Config.Filters (cfg : Config ν σ) (x : Nat → List UInt8) : Prop :=
  ∀ i < cfg.commands.length, ∃ k outs,
    (∃ s, cfg.program i = some s ∧ Runs cfg.act 0 (0 < i) k s (x i) outs) ∧
    outs 1 = x (i + 1) ∧ ∀ fd, fd ≠ 1 → fd ≠ 2 → outs fd = []

/-- The standard input is the file `fin`, the output of the last command goes to `fout`, and
the standard error to another file. -/
structure Config.Files (cfg : Config ν σ) (base : Nat → Option F) (fin fout ferr : F) : Prop where
  stdin : base 0 = some fin
  stdout : base 1 ≠ none
  stderr : base 2 = some ferr
  output : base (cfg.outputFd.getD 1) = some fout
  outputFd : ∀ fd, cfg.outputFd = some fd → 3 ≤ fd
  ne : ferr ≠ fout

variable {fin fout ferr : F} {x : Nat → List UInt8}

theorem Config.Files.stdOk (h : cfg.Files base fin fout ferr) : cfg.StdOk base where
  stdin := by simp [h.stdin]
  stdout := h.stdout
  output fd hfd := by
    have hout := h.output
    rw [hfd] at hout
    exact ⟨(h.outputFd fd hfd).trans' (by omega), by simpa using hout ▸ Option.some_ne_none _⟩

/-- The command `p` reads the file `fin` or the pipe from the command before. It writes to the
pipe to the next one or the file `fout`, and to the file `ferr`. -/
def Config.routeIn (fin : F) (p : Nat) : File F := if p = 0 then .plain fin else .readEnd (p - 1)

def Config.routeOut (cfg : Config ν σ) (fout ferr : F) (p fd : Nat) : Option (File F) :=
  if fd = 1 then some (if cfg.HasNext p then .writeEnd p else .plain fout)
  else if fd = 2 then some (.plain ferr) else none

/-- Only the standard output of the last command goes to the file `fout`. -/
def Config.owner [DecidableEq F] (cfg : Config ν σ) (fout f : F) : Option (Nat × Nat) :=
  if f = fout then some (cfg.commands.length - 1, 1) else none

theorem routeIn_inj {p q : Nat} (h : Config.routeIn fin p = Config.routeIn fin q) : p = q := by
  unfold Config.routeIn at h
  split_ifs at h with hp hq hq
  · omega
  · have hpred : p - 1 = q - 1 := File.readEnd.inj h
    omega

theorem routeIn_ne (p j : Nat) : Config.routeIn fin p ≠ .writeEnd j := by
  unfold Config.routeIn
  split_ifs <;> simp

theorem route_pipe {p fd q : Nat} (h : cfg.dest p fd = some q) :
    ∃ j, cfg.routeOut fout ferr p fd = some (.writeEnd j) ∧ Config.routeIn fin q = .readEnd j := by
  obtain ⟨rfl, rfl, hnext⟩ := dest_eq_some.mp h
  exact ⟨p, by simp [Config.routeOut, hnext], by simp [Config.routeIn]⟩

theorem route_file {p fd : Nat} {f : File F} (h : cfg.dest p fd = none)
    (hf : cfg.routeOut fout ferr p fd = some f) : ∃ x, f = .plain x := by
  unfold Config.routeOut at hf
  by_cases h1 : fd = 1
  · subst h1
    have hlast : ¬ cfg.HasNext p := by
      intro hnext
      rw [dest_eq_some.mpr ⟨rfl, rfl, hnext⟩] at h
      cases h
    rw [if_pos rfl, if_neg hlast] at hf
    exact ⟨fout, (Option.some.inj hf).symm⟩
  · rw [if_neg h1] at hf
    split_ifs at hf
    exact ⟨ferr, (Option.some.inj hf).symm⟩

theorem owner_eq_some [DecidableEq F] {f : F} {p fd : Nat} :
    cfg.owner fout f = some (p, fd) ↔ f = fout ∧ p = cfg.commands.length - 1 ∧ fd = 1 := by
  unfold Config.owner
  split_ifs with h
  · simp [h, eq_comm]
  · simp [h]

theorem owner_output [DecidableEq F] {f : F} {p fd : Nat} (h : cfg.owner fout f = some (p, fd)) :
    cfg.routeOut fout ferr p fd = some (.plain f) := by
  obtain ⟨rfl, rfl, rfl⟩ := owner_eq_some.mp h
  have hlast : ¬ cfg.HasNext (cfg.commands.length - 1) := by
    unfold Config.HasNext
    omega
  simp [Config.routeOut, hlast]

theorem owner_only [DecidableEq F] (hne : ferr ≠ fout) {f : F} {p fd p' fd' : Nat}
    (h : cfg.owner fout f = some (p, fd)) (hp : p' < cfg.commands.length)
    (hout : cfg.routeOut fout ferr p' fd' = some (.plain f)) : p' = p ∧ fd' = fd := by
  obtain ⟨rfl, rfl, rfl⟩ := owner_eq_some.mp h
  unfold Config.routeOut at hout
  by_cases h1 : fd' = 1
  · rw [if_pos h1] at hout
    by_cases hnext : cfg.HasNext p'
    · rw [if_pos hnext] at hout
      cases hout
    · unfold Config.HasNext at hnext
      omega
  · rw [if_neg h1] at hout
    split_ifs at hout
    cases hout
    exact absurd rfl hne

/-- The pipes and files of the commands. -/
def Config.routing [DecidableEq F] (cfg : Config ν σ) (fin : F) {fout ferr : F}
    (hne : ferr ≠ fout) : Routing cfg.net F where
  input := Config.routeIn fin
  output := cfg.routeOut fout ferr
  own := cfg.owner fout
  input_inj _ _ := routeIn_inj
  input_read := routeIn_ne
  pipe := route_pipe
  file := route_file
  own_output := owner_output
  own_only := owner_only hne

/-- What the state still delivers: with the bytes on their way, the result of the last
command for the file `fout`. -/
structure World.Delivers [DecidableEq F] (cfg : Config ν σ) (base : Nat → Option F)
    (fin : F) {fout ferr : F} (hne : ferr ≠ fout) (old : F → List UInt8) (x : Nat → List UInt8)
    (w : World σ F) (m : Nat) : Prop where
  inv : w.Inv cfg base
  flows : ∃ a result m₀, a.proc = w.procOf cfg ∧ (cfg.routing fin hne).Carries old w.kernel a ∧
    cfg.net.Flows result a m₀ ∧ m = m₀ + w.weight cfg ∧
    (∀ p < cfg.commands.length, ∀ fd, fd ≠ 1 → fd ≠ 2 → result p fd = []) ∧
    (∀ p, p + 1 = cfg.commands.length → result p 1 = x cfg.commands.length)

/-- A step of the parent changes nothing that the programs see. -/
theorem parentStep_same (hinv : w.Inv cfg base) (hstep : cfg.ParentStep w w') :
    w'.procOf cfg = w.procOf cfg ∧ w'.kernel.buf = w.kernel.buf ∧
      w'.kernel.input = w.kernel.input ∧ w'.kernel.output = w.kernel.output ∧
      w'.weight cfg < w.weight cfg := by
  cases hstep with
  | pipe hpc | pipeFails hpc | lastCommand hpc | leave hpc | forkFails hpc | noChild hpc =>
    refine ⟨rfl, rfl, rfl, rfl, ?_⟩
    simp only [World.weight, hpc, ParentPC.weight]
    omega
  | fork hpc =>
    have hcur := (hinv.body (.inl hpc)).1
    have hunborn : w.child w.current = .unborn :=
      (hinv.born _).mpr (by simp [World.born, hpc])
    refine ⟨?_, rfl, rfl, rfl, ?_⟩
    · funext p
      by_cases hp : p = w.current
      · subst hp
        simp [World.procOf, hunborn]
      · simp [World.procOf, Function.update_of_ne hp]
    · have hsum := sum_update (Finset.mem_range.mpr hcur) ChildPC.weight w.child .dupIn
      have hseven : (w.child w.current).weight = 7 := by rw [hunborn]; rfl
      have hsix : (ChildPC.dupIn : ChildPC σ).weight = 6 := rfl
      rw [hseven, hsix] at hsum
      simp only [World.weight, hpc, ParentPC.weight]
      omega
  | closeWrite hpc =>
    have hcur := (hinv.body (.inr (.inl hpc))).1
    refine ⟨rfl, ?_, ?_, ?_, ?_⟩
    · dsimp only
      split_ifs <;> rfl
    · dsimp only
      split_ifs <;> rfl
    · dsimp only
      split_ifs <;> rfl
    · simp only [World.weight, hpc, ParentPC.weight]
      omega
  | closePrev hpc =>
    have hcur := (hinv.body (.inr (.inr hpc))).1
    refine ⟨rfl, ?_, ?_, ?_, ?_⟩
    · dsimp only
      cases w.locals.prevPipeReadEnd <;> rfl
    · dsimp only
      cases w.locals.prevPipeReadEnd <;> rfl
    · dsimp only
      cases w.locals.prevPipeReadEnd <;> rfl
    · simp only [World.weight, hpc, ParentPC.weight]
      omega
  | @reap j hpc hend =>
    have hborn : j < cfg.commands.length := by
      have hlt := hinv.lt_born (i := j) (by rcases hend with hj | hj <;> simp [hj])
      have hcur := hinv.allForked (.inl hpc)
      simp only [World.born, hpc, hcur] at hlt
      simpa using hlt
    refine ⟨?_, rfl, rfl, rfl, ?_⟩
    · funext p
      by_cases hp : p = j
      · subst hp
        rcases hend with hj | hj <;> simp [World.procOf, hj]
      · simp [World.procOf, Function.update_of_ne hp]
    · have hsum := sum_update (Finset.mem_range.mpr hborn) ChildPC.weight w.child .reaped
      have hone : (w.child j).weight = 1 := by rcases hend with hj | hj <;> rw [hj] <;> rfl
      have hzero : (ChildPC.reaped : ChildPC σ).weight = 0 := rfl
      rw [hone, hzero] at hsum
      simp only [World.weight]
      omega

/-- A call before `execvp` changes nothing that the programs see either. -/
theorem setup_same {s : σ} (hprog : cfg.program i = some s) {l : Locals} {t t' : Fds F}
    {pc pc' : ChildPC σ} (h : cfg.setup i l t pc = some (t', pc')) :
    pc'.weight < pc.weight ∧
      (pc' = .running s ∨ pc' = .closeIn ∨ pc' = .dupOut ∨ pc' = .closeOut ∨ pc' = .exec) ∧
      (pc = .dupIn ∨ pc = .closeIn ∨ pc = .dupOut ∨ pc = .closeOut ∨ pc = .exec) := by
  cases pc with
  | exec =>
    simp only [Config.setup, hprog] at h
    cases h
    simp [ChildPC.weight]
  | dupIn | closeIn | dupOut | closeOut =>
    simp only [Config.setup] at h
    split at h <;> cases h <;> simp [ChildPC.weight]
  | unborn | running _ | ended | killed | reaped => cases h

/-! ## The standard descriptors of a program -/

theorem stdinTable_ne {fd : Nat} (h : fd ≠ 0) : stdinTable base i fd = inherited base fd := by
  unfold stdinTable
  split_ifs
  · rfl
  · exact Fds.openAt_ne h

/-- The standard descriptors of a running program. -/
theorem programTable_std (hfiles : cfg.Files base fin fout ferr) {r : Nat}
    (hr : cfg.HasNext i → base r = none) :
    cfg.programTable base i r 0 = some (if i = 0 then .plain fin else .readEnd (i - 1)) ∧
      cfg.programTable base i r 1 = some (if cfg.HasNext i then .writeEnd i else .plain fout) ∧
      cfg.programTable base i r 2 = some (.plain ferr) := by
  have hzero : stdinTable base i 0 = some (if i = 0 then .plain fin else .readEnd (i - 1)) := by
    unfold stdinTable
    split_ifs
    · exact inherited_of_some hfiles.stdin
    · exact Fds.openAt_self
  have herr : stdinTable base i 2 = some (.plain ferr) := by
    rw [stdinTable_ne (by decide)]
    exact inherited_of_some hfiles.stderr
  unfold Config.programTable
  by_cases hnext : cfg.HasNext i
  · have hfree := hr hnext
    have h0 : (0 : Nat) ≠ r := by
      rintro rfl
      rw [hfiles.stdin] at hfree
      cases hfree
    have h2 : (2 : Nat) ≠ r := by
      rintro rfl
      rw [hfiles.stderr] at hfree
      cases hfree
    simp only [if_pos hnext]
    refine ⟨?_, Fds.openAt_self, ?_⟩
    · rw [Fds.openAt_ne (by decide), Fds.openAt_ne h0]
      exact hzero
    · rw [Fds.openAt_ne (by decide), Fds.openAt_ne h2]
      exact herr
  · simp only [if_neg hnext]
    have hout := hfiles.output
    cases hfd : cfg.outputFd with
    | none =>
      rw [hfd, Option.getD_none] at hout
      dsimp only
      refine ⟨hzero, ?_, herr⟩
      rw [stdinTable_ne (by decide)]
      simp [inherited, hout]
    | some fd =>
      rw [hfd, Option.getD_some] at hout
      have h3 := hfiles.outputFd fd hfd
      have hentry : stdinTable base i fd = some (.plain fout) := by
        rw [stdinTable_ne (by omega)]
        exact inherited_of_some hout
      dsimp only
      refine ⟨?_, ?_, ?_⟩
      · rw [Fds.close_ne (by omega), Fds.dup2_ne (by decide)]
        exact hzero
      · rw [Fds.close_ne (by omega)]
        exact Fds.dup2_self hentry
      · rw [Fds.close_ne (by omega), Fds.dup2_ne (by decide)]
        exact herr

theorem World.Inv.std (h : w.Inv cfg base) (hfiles : cfg.Files base fin fout ferr) {s : σ}
    (hs : w.child i = .running s) :
    w.kernel.fds (some i) 0 = some (if i = 0 then .plain fin else .readEnd (i - 1)) ∧
      w.kernel.fds (some i) 1 = some (if cfg.HasNext i then .writeEnd i else .plain fout) ∧
      w.kernel.fds (some i) 2 = some (.plain ferr) := by
  have hfresh := h.fresh i (h.lt_born (by simp [hs]))
  rw [h.table i, hs]
  show cfg.outTable base i _ 0 = _ ∧ cfg.outTable base i _ 1 = _ ∧ cfg.outTable base i _ 2 = _
  rw [outTable_eq hfiles.stdOk hfresh]
  exact programTable_std hfiles fun hnext => (hfresh.ends hnext).1

/-- A pipe can be written to exactly until the command before it ends. -/
theorem World.Inv.closed (h : w.Inv cfg base) (hok : cfg.StdOk base)
    (hnext : cfg.HasNext i) (hborn : w.child (i + 1) ≠ .unborn)
    (hclosed : ¬ w.kernel.Open (.writeEnd i)) : w.procOf cfg i = none := by
  have hlt := h.lt_born hborn
  have hfresh := h.fresh i (by omega)
  by_cases hlive : (w.child i).Live
  · obtain ⟨fd, hfd⟩ := (childTable_ends hok hfresh hnext hlive).2
    rw [← h.table i] at hfd
    exact absurd ⟨some i, fd, hfd⟩ hclosed
  · have hne : w.child i ≠ .unborn := fun hun => absurd ((h.born i).mp hun) (by omega)
    unfold World.procOf
    cases hc : w.child i with
    | unborn => exact absurd hc hne
    | dupIn | closeIn | dupOut | closeOut | exec | running _ =>
      rw [hc] at hlive
      exact absurd trivial hlive
    | ended | killed | reaped => rfl

theorem World.Inv.lt_length (h : w.Inv cfg base) (hborn : w.child i ≠ .unborn) :
    i < cfg.commands.length := by
  have hlt := h.lt_born hborn
  have hbound := h.bound
  unfold World.born at hlt
  split_ifs at hlt with hpc
  · have hbody := (h.body (.inr hpc)).1
    omega
  · omega

/-! ## The commands as a network -/

theorem procOf_after {k : Kernel (Option Nat) F} {o : Outcome σ} :
    World.procOf cfg { w with kernel := k, child := Function.update w.child i (.after o) } =
      Function.update (w.procOf cfg) i o.state := by
  funext p
  by_cases hp : p = i
  · subst hp
    cases o <;> simp [World.procOf, ChildPC.after, Outcome.state]
  · simp [World.procOf, Function.update_of_ne hp]

theorem weight_child (hi : i < cfg.commands.length) (k : Kernel (Option Nat) F) (pc : ChildPC σ) :
    World.weight cfg { w with kernel := k, child := Function.update w.child i pc } +
      (w.child i).weight = w.weight cfg + pc.weight := by
  have hsum := sum_update (Finset.mem_range.mpr hi) ChildPC.weight w.child pc
  simp only [World.weight]
  omega

variable {old : F → List UInt8} {m : Nat} {a : NetState UInt8 σ} {k : Nat → Nat}
  {result outs : Nat → Nat → List UInt8} {rest : Nat → List UInt8}

/-- A program writes only to its standard output and standard error. -/
theorem outs_std (h : cfg.net.Flow result a rest outs k) (hi : i < cfg.commands.length)
    (hother : ∀ p < cfg.commands.length, ∀ fd, fd ≠ 1 → fd ≠ 2 → result p fd = []) {fd : Nat}
    (hne : outs i fd ≠ []) : fd = 1 ∨ fd = 2 := by
  by_contra hno
  push Not at hno
  have hnone : cfg.net.dest i fd = none := by simp [Config.net, Config.dest, hno.1]
  have hsink := h.sink i hi fd hnone
  rw [hother i hi fd hno.1 hno.2] at hsink
  exact hne (List.append_eq_nil_iff.mp hsink).2

/-- Until the command before it ends, a command waits for more from its pipe. -/
theorem World.Inv.open_iff (h : w.Inv cfg base) (hok : cfg.StdOk base)
    (hprog : ∀ i < cfg.commands.length, cfg.program i ≠ none) (hborn : w.child (i + 1) ≠ .unborn) :
    ¬ w.kernel.Open (.writeEnd i) ↔ w.procOf cfg i = none := by
  have hlt := h.lt_born hborn
  have hnext : cfg.HasNext i := h.lt_length hborn
  constructor
  · exact h.closed hok hnext hborn
  · rintro hnone ⟨q, fd, hq⟩
    cases q with
    | none =>
      -- the parent closes its end of a pipe before it goes on to the next command
      obtain ⟨hpc, hcur⟩ := h.parent_writeEnd hq
      unfold World.born at hlt
      split_ifs at hlt with hbody
      · omega
      · omega
    | some q =>
      rcases h.holds hq with ⟨x, hx⟩ | ⟨-, hx⟩ | ⟨-, hx | hx⟩ <;> cases hx
      rw [h.table i] at hq
      unfold World.procOf at hnone
      cases hc : w.child i with
      | ended | killed | reaped =>
        rw [hc] at hq
        cases hq
      | running s =>
        rw [hc] at hnone
        cases hnone
      | unborn | dupIn | closeIn | dupOut | closeOut | exec =>
        rw [hc] at hnone
        exact hprog i (by omega) hnone

/-- The program of a command has the descriptors that the routing says. -/
theorem World.Inv.connected [DecidableEq F] (h : w.Inv cfg base)
    (hfiles : cfg.Files base fin fout ferr)
    (hprog : ∀ i < cfg.commands.length, cfg.program i ≠ none) (ha : a.proc = w.procOf cfg)
    (hflow : cfg.net.Flow result a rest outs k)
    (hother : ∀ p < cfg.commands.length, ∀ fd, fd ≠ 1 → fd ≠ 2 → result p fd = []) {s : σ}
    (hrun : w.child i = .running s) :
    (cfg.routing fin hfiles.ne).Connected w.kernel a i (outs i) := by
  have hborn : w.child i ≠ .unborn := by simp [hrun]
  have hi := h.lt_length hborn
  obtain ⟨hin, hstd, herr⟩ := h.std hfiles hrun
  refine ⟨hin, ?_, ?_, ?_⟩
  · intro j hj
    cases i with
    | zero => cases hj
    | succ i =>
      cases hj
      rw [Nat.add_sub_cancel, h.open_iff hfiles.stdOk hprog hborn]
      constructor
      · intro hnone p fd hdest
        obtain ⟨-, hp, -⟩ := dest_eq_some.mp hdest
        obtain rfl : i = p := Nat.succ.inj hp
        exact (congrFun ha i).trans hnone
      · intro hclosed
        exact (congrFun ha i).symm.trans (hclosed i 1 (dest_eq_some.mpr ⟨rfl, rfl, hi⟩))
  · intro fd hne
    rcases outs_std hflow hi hother hne with rfl | rfl
    · exact ⟨_, rfl, hstd⟩
    · exact ⟨_, rfl, herr⟩
  · intro fd j hne hj
    rcases outs_std hflow hi hother hne with rfl | rfl
    · by_contra hno
      have hent : w.kernel.fds (some i) 1 = some (.writeEnd j) := hstd.trans hj
      exact h.not_broken hfiles.stdOk hrun 1 ⟨j, hent, hno⟩
    · cases hj

theorem World.Delivers.parentStep [DecidableEq F] {hne : ferr ≠ fout}
    (h : w.Delivers cfg base fin hne old x m) (hstep : cfg.ParentStep w w') :
    ∃ m' < m, w'.Delivers cfg base fin hne old x m' := by
  obtain ⟨a, result, m₀, ha, hcarries, hflows, rfl, hrest⟩ := h.flows
  obtain ⟨hproc, hbuf, hin, hout, hweight⟩ := parentStep_same h.inv hstep
  exact ⟨m₀ + w'.weight cfg, by omega, h.inv.parentStep hstep, a, result, m₀, ha.trans hproc.symm,
    hcarries.congr hbuf hin hout rfl rfl, hflows, rfl, hrest⟩

theorem Config.Filters.program_ne (hx : cfg.Filters x) :
    ∀ i < cfg.commands.length, cfg.program i ≠ none := by
  intro i hi
  obtain ⟨-, -, ⟨s, hs, -⟩, -⟩ := hx i hi
  simp [hs]

/-- A call of a child keeps the results, and leaves less to do. -/
theorem World.Delivers.childStep [DecidableEq F] (hfiles : cfg.Files base fin fout ferr)
    (hx : cfg.Filters x) (h : w.Delivers cfg base fin hfiles.ne old x m)
    (hstep : cfg.ChildStep w i w') : ∃ m' < m, w'.Delivers cfg base fin hfiles.ne old x m' := by
  obtain ⟨a, result, m₀, ha, hcarries, hflows, rfl, hother, hlast⟩ := h.flows
  have hinv := h.inv
  have hinv' := hinv.childStep hstep
  cases hstep with
  | @setup t pc hset =>
    have hborn : w.child i ≠ .unborn := (setup_table (hinv.table i ▸ hset)).2.1
    have hi := hinv.lt_length hborn
    obtain ⟨-, -, ⟨s, hprog, -⟩, -⟩ := hx i hi
    obtain ⟨hlt, hpc', hpc⟩ := setup_same hprog hset
    have hweight := weight_child (w := w) hi (w.kernel.setFds (some i) t) pc
    have hproc : World.procOf cfg { w with
        kernel := w.kernel.setFds (some i) t
        child := Function.update w.child i pc } = w.procOf cfg := by
      funext p
      by_cases hp : p = i
      · subst hp
        rcases hpc with hc | hc | hc | hc | hc <;>
          rcases hpc' with hc' | hc' | hc' | hc' | hc' <;>
          simp [World.procOf, hc, hc', hprog]
      · simp [World.procOf, Function.update_of_ne hp]
    exact ⟨m₀ + World.weight cfg _, by omega, hinv', a, result, m₀, ha.trans hproc.symm,
      hcarries.congr rfl rfl rfl rfl rfl, hflows, rfl, hother, hlast⟩
  | @call s o k' hrun hcall =>
    have hi := hinv.lt_length (i := i) (by simp [hrun])
    have hs : a.proc i = some s := by
      rw [ha]
      simp [World.procOf, hrun]
    obtain ⟨rest, outs, k, hflow, -⟩ := id hflows
    have hconn := hinv.connected hfiles hx.program_ne ha hflow hother hrun
    obtain ⟨a', hnet, hproc, hcarries', ho⟩ :=
      hcarries.call hi hs (hflow.remaining hi hs) hconn hcall
    obtain ⟨m₁, hlt, hflows'⟩ := hflows.step hi hnet
    have hweight := weight_child (w := w) hi k' (.after o)
    have hone : (w.child i).weight = 1 ∧ (ChildPC.after o).weight = 1 := by
      rw [hrun]
      cases o <;> exact ⟨rfl, rfl⟩
    refine ⟨m₁ + World.weight cfg _, by omega, hinv', a', result, m₁, ?_, hcarries', hflows', rfl,
      hother, hlast⟩
    rw [hproc, procOf_after, ha]

/-! ## Termination and result -/

variable (base) in
theorem initial_delivers [DecidableEq F] (output : F → List UInt8) (hne : ferr ≠ fout)
    (hx : cfg.Filters x)
    (h0 : x 0 = input fin) : ∃ N, ∀ pipefd,
      (World.initial base input output pipefd).Delivers cfg base fin hne output x N := by
  choose! k outs hx using hx
  refine ⟨∑ p ∈ Finset.range cfg.commands.length, k p +
    (∑ p ∈ Finset.range cfg.commands.length, 7 + (4 * cfg.commands.length + 2)), ?_⟩
  intro pipefd
  refine ⟨initial_inv input output pipefd, ⟨cfg.program, fun p => if p = 0 then input fin else [],
    fun _ _ => []⟩, outs, _, rfl, ⟨?_, ?_⟩, ⟨x, outs, k, ⟨?_, ?_, ?_, ?_⟩, rfl⟩, rfl, ?_, ?_⟩
  · intro p _
    cases p with
    | zero => rfl
    | succ p => rfl
  · intro f p fd _
    exact (List.append_nil _).symm
  · intro p hp
    obtain ⟨⟨s, hprog, hruns⟩, -⟩ := hx p hp
    show cfg.net.Remaining p (k p) (x p) (outs p) (cfg.program p)
    rw [hprog]
    refine hruns.of_imp ?_
    rintro ⟨q, fd, hdest⟩
    exact (dest_later hdest).1.trans_le' (Nat.zero_le q)
  · intro p fd q hdest
    obtain ⟨rfl, rfl, hnext⟩ := dest_eq_some.mp hdest
    exact (hx p (by omega)).2.1.symm
  · intro q hq hno
    cases q with
    | zero => exact h0
    | succ q => exact absurd ⟨q, 1, dest_eq_some.mpr ⟨rfl, rfl, hq⟩⟩ hno
  · intro p _ fd _
    exact List.nil_append _
  · intro p hp fd h1 h2
    exact (hx p hp).2.2 fd h1 h2
  · intro p hp
    rw [(hx p (by omega)).2.1, hp]

/-- Until the call returns, a process can go on: the parent, or, while it waits, a child. -/
theorem World.Delivers.progress [DecidableEq F] (hfiles : cfg.Files base fin fout ferr)
    (hx : cfg.Filters x) (hcap : 0 < cfg.capacity)
    (h : w.Delivers cfg base fin hfiles.ne old x m)
    (hdone : w.pc ≠ .done) (hfailed : w.pc ≠ .failed) :
    ∃ a w', (cfg.pipeline base input output).step w a w' := by
  have hinv := h.inv
  cases hpc : w.pc with
  | done => exact absurd hpc hdone
  | failed => exact absurd hpc hfailed
  | pipe =>
    by_cases hnext : cfg.HasNext w.current
    · exact ⟨none, _, .pipeFails hpc hnext⟩
    · by_cases hend : w.current = cfg.commands.length
      · exact ⟨none, _, .leave hpc hend⟩
      · have hbound := hinv.bound
        exact ⟨none, _, .lastCommand hpc (by unfold Config.HasNext at hnext; omega)⟩
  | fork => exact ⟨none, _, .fork hpc⟩
  | closeWrite => exact ⟨none, _, .closeWrite hpc⟩
  | closePrev => exact ⟨none, _, .closePrev hpc⟩
  | wait =>
    by_cases hnone : ∀ i, w.child i = .unborn ∨ w.child i = .reaped
    · exact ⟨none, _, .noChild hpc hnone⟩
    push Not at hnone
    obtain ⟨i, hborn, hreaped⟩ := hnone
    by_cases hended : w.child i = .ended ∨ w.child i = .killed
    · exact ⟨none, _, .reap hpc hended⟩
    push Not at hended
    obtain ⟨a, result, m₀, ha, hcarries, ⟨rest, outs, k, hflow, -⟩, -, hother, -⟩ := h.flows
    have hprog := hx.program_ne
    have hi := hinv.lt_length hborn
    have hproc : w.procOf cfg i ≠ none := by
      unfold World.procOf
      cases hc : w.child i with
      | unborn => exact absurd hc hborn
      | ended => exact absurd hc hended.1
      | killed => exact absurd hc hended.2
      | reaped => exact absurd hc hreaped
      | running s => exact Option.some_ne_none s
      | dupIn | closeIn | dupOut | closeOut | exec => exact hprog i hi
    obtain ⟨p, hp, s, hs, hready⟩ := hflow.not_stuck hcap
      ⟨i, hi, by rw [ha]; exact hproc⟩
    have hruns := hflow.remaining hp hs
    rw [ha] at hs
    have hpborn : w.child p ≠ .unborn := by
      intro hun
      have hle := (hinv.born p).mp hun
      have hcur := hinv.allForked (.inl hpc)
      simp only [World.born, hpc] at hle
      simp at hle
      exact absurd hp (by show ¬ p < cfg.commands.length; omega)
    -- a child that has not called `execvp` can do so in any case
    have hset : ∀ {t pc'}, cfg.setup p (w.childLocals p) (w.kernel.fds (some p)) (w.child p) =
        some (t, pc') → ∃ a w', (cfg.pipeline base input output).step w a w' :=
      fun hset => ⟨some p, _, .setup hset⟩
    cases hc : w.child p with
    | unborn => exact absurd hc hpborn
    | running s' =>
      unfold World.procOf at hs
      rw [hc] at hs
      cases hs
      have hconn := hinv.connected hfiles hprog ha hflow hother hc
      obtain ⟨o, k', hcall⟩ := hcarries.ready hp hruns hready hconn
      exact ⟨some p, _, .call hc hcall⟩
    | ended | killed | reaped =>
      unfold World.procOf at hs
      rw [hc] at hs
      cases hs
    | dupIn | closeIn =>
      rw [hc] at hset
      simp only [Config.setup] at hset
      cases hprev : (w.childLocals p).prevPipeReadEnd <;> rw [hprev] at hset <;> exact hset rfl
    | dupOut | closeOut =>
      rw [hc] at hset
      simp only [Config.setup] at hset
      cases hout : cfg.outFd p (w.childLocals p) <;> rw [hout] at hset <;> exact hset rfl
    | exec =>
      rw [hc] at hset
      simp only [Config.setup] at hset
      cases hstart : cfg.program p <;> rw [hstart] at hset <;> exact hset rfl

/-- When the call returns, every child has been waited for. -/
theorem done_reaped [DecidableEq F] (h : Reach (cfg.pipeline base input output) AnyStep w) :
    w.pc = .done → ∀ i, w.child i = .unborn ∨ w.child i = .reaped := by
  refine h.invariant (fun w => w.pc = .done → ∀ i, w.child i = .unborn ∨ w.child i = .reaped) ?_ ?_
  · rintro w ⟨pipefd, rfl⟩ hpc
    cases hpc
  · intro w a w' hdone _ hstep hpc
    cases a with
    | none =>
      cases hstep with
      | noChild _ hall => exact hall
      | @reap j hwait => exact absurd (hwait.symm.trans hpc) (by simp)
      | _ => cases hpc
    | some i =>
      -- there is nobody left to make a step
      have hpc' : w.pc = .done := by cases hstep <;> exact hpc
      have hgone := hdone hpc' i
      cases hstep with
      | setup hset => rcases hgone with hc | hc <;> rw [hc] at hset <;> cases hset
      | call hrun =>
        rw [hrun] at hgone
        rcases hgone with hc | hc <;> cases hc

theorem relay_runs (drain : Prop) (xs : List UInt8) :
    Runs Relay.act 0 drain (2 * xs.length + 2) .reading xs fun fd => if fd = 1 then xs else [] := by
  induction xs with
  | nil =>
    refine .eof rfl Nat.one_pos (.exit rfl (fun _ => rfl) ?_)
    intro fd
    exact ite_self _
  | cons b xs ih =>
    refine .read rfl Nat.one_pos (by simp) ?_
    intro c rest hcut hc hlen
    obtain ⟨b', rfl⟩ := List.length_eq_one_iff.mp
      (Nat.le_antisymm hlen (List.length_pos_iff.mpr hc))
    rw [List.singleton_append, List.cons.injEq] at hcut
    obtain ⟨rfl, rfl⟩ := hcut
    have houts : Function.update (fun fd => if fd = 1 then b :: xs else []) 1 xs =
        fun fd => if fd = 1 then xs else [] := by
      funext fd
      by_cases hfd : fd = 1
      · subst hfd
        simp
      · simp [hfd]
    refine .write rfl rfl ?_
    rw [houts, List.length_cons, Nat.mul_succ]
    exact ih

theorem twoRelays_files : twoRelays.Files threeFiles 0 1 2 where
  stdin := rfl
  stdout := by decide
  stderr := rfl
  output := rfl
  outputFd fd h := by cases h
  ne := by decide

theorem twoRelays_filters (xs : List UInt8) : twoRelays.Filters fun _ => xs := by
  intro i hi
  have hprog : twoRelays.program i = some .reading := by
    have hcases : i = 0 ∨ i = 1 := Nat.le_one_iff_eq_zero_or_eq_one.mp (Nat.le_of_lt_succ hi)
    rcases hcases with rfl | rfl <;> rfl
  exact ⟨_, _, ⟨_, hprog, relay_runs (0 < i) xs⟩, rfl, fun fd h _ => if_neg h⟩

end Solidc.Process
