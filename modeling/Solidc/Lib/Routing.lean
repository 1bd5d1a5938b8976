import Solidc.Lib.Dataflow
import Solidc.Lib.Descriptors

/-! # Processes as a dataflow network

Processes whose descriptors are connected by pipes carry out a network: what a process reads
is its channel, and a descriptor that feeds a channel is the writing end of the pipe that the
reader of the channel has open.

* `Kernel.Call` — a system call of a program, and how the program goes on;
* `Routing` — which file each descriptor of the programs refers to;
* `Routing.Carries` — the bytes in the pipes and files are those of the network;
* `Carries.call` — a call of a connected process is a step of the network;
* `Carries.ready` — a process that the network can advance is not blocked.
-/

namespace CLib

variable {σ F : Type*}

/-! ## Programs -/

/-- How a program goes on after a system call. -/
inductive Outcome (σ : Type*) where
  | running (s : σ)
  | ended
  | killed

def Outcome.state : Outcome σ → Option σ
  | .running s => some s
  | _ => none

namespace Kernel

variable {P : Type*} [DecidableEq P] [DecidableEq F] {act : σ → Act UInt8 σ} {capacity : Nat}
  {k k' : Kernel P F} {p q : P} {s : σ} {o : Outcome σ}

/-- The process `p` makes the system call of its program in `s`. A write to a broken pipe
kills it, and its end closes its descriptors. -/
inductive Call (act : σ → Act UInt8 σ) (capacity : Nat) (k : Kernel P F) (p : P) (s : σ) :
    Outcome σ → Kernel P F → Prop
  | read {fd size : Nat} {next : Option (List UInt8) → σ} {r : Option (List UInt8)}
      {k' : Kernel P F} : act s = .read fd size next → k.Read p fd size r k' →
      Call act capacity k p s (.running (next r)) k'
  | write {fd : Nat} {b : UInt8} {next : Bool → σ} {ok : Bool} {k' : Kernel P F} :
      act s = .write fd b next → k.Write capacity p fd b ok k' →
      Call act capacity k p s (.running (next ok)) k'
  | broken {fd : Nat} {b : UInt8} {next : Bool → σ} : act s = .write fd b next →
      k.Broken p fd → Call act capacity k p s .killed (k.exit p)
  | exit : act s = .exit → Call act capacity k p s .ended (k.exit p)

theorem Call.fds_ne (h : k.Call act capacity p s o k') (hq : q ≠ p) : k'.fds q = k.fds q := by
  cases h with
  | read _ hread => rw [hread.fds_eq]
  | write _ hwrite => rw [hwrite.fds_eq]
  | broken | exit => exact exit_ne hq

theorem Call.fds_running {s' : σ} (h : k.Call act capacity p s (.running s') k') :
    k'.fds = k.fds := by
  cases h with
  | read _ hread => exact hread.fds_eq
  | write _ hwrite => exact hwrite.fds_eq

theorem Call.fds_over (h : k.Call act capacity p s o k') (ho : o.state = none) :
    k'.fds p = fun _ => none := by
  cases h with
  | read | write => cases ho
  | broken | exit => exact funext fun fd => exit_self fd

end Kernel

/-! ## Routings -/

/-- What is left to read of a file, or of a pipe at the moment. -/
def Kernel.content {P : Type*} (k : Kernel P F) : File F → List UInt8
  | .plain f => k.input f
  | .readEnd j => k.buf j
  | .writeEnd _ => []

section Content

variable {P : Type*} {k : Kernel P F} {f : File F}

theorem content_input [DecidableEq F] {x : F} {xs : List UInt8} (h : f ≠ .plain x) :
    Kernel.content { k with input := Function.update k.input x xs } f = k.content f := by
  cases f with
  | plain y =>
    have hne : y ≠ x := fun he => h (congrArg File.plain he)
    exact Function.update_of_ne hne _ _
  | readEnd j | writeEnd j => rfl

theorem content_buf {j : Nat} {xs : List UInt8} (h : f ≠ .readEnd j) :
    Kernel.content { k with buf := Function.update k.buf j xs } f = k.content f := by
  cases f with
  | readEnd i =>
    have hne : i ≠ j := fun he => h (congrArg File.readEnd he)
    exact Function.update_of_ne hne _ _
  | plain y | writeEnd i => rfl

end Content

/-- The file `input p` is what process `p` reads, and `output p fd` what its descriptor `fd`
refers to, if the program uses it. The file `f` is written to only by the descriptor `own f`. -/
structure Routing (N : Net UInt8 σ) (F : Type*) where
  input : Nat → File F
  output : Nat → Nat → Option (File F)
  own : F → Option (Nat × Nat)
  input_inj : ∀ {p q}, p < N.count → q < N.count → input p = input q → p = q
  input_read : ∀ p j, input p ≠ .writeEnd j
  pipe : ∀ {p fd q}, N.dest p fd = some q →
    ∃ j, output p fd = some (.writeEnd j) ∧ input q = .readEnd j
  file : ∀ {p fd f}, N.dest p fd = none → output p fd = some f → ∃ x, f = .plain x
  own_output : ∀ {f p fd}, own f = some (p, fd) → output p fd = some (.plain f)
  own_only : ∀ {f p fd p' fd'}, own f = some (p, fd) → p' < N.count →
    output p' fd' = some (.plain f) → p' = p ∧ fd' = fd

namespace Routing

variable {N : Net UInt8 σ} {R : Routing N F} {old : F → List UInt8}
  {k k' : Kernel (Option Nat) F} {a : NetState UInt8 σ} {p fd size capacity : Nat} {s : σ}

/-- The channels are the contents of what the processes read, and what was collected from the
owner of a file has been added to it. -/
structure Carries (R : Routing N F) (old : F → List UInt8) (k : Kernel (Option Nat) F)
    (a : NetState UInt8 σ) : Prop where
  chan : ∀ p < N.count, a.chan p = k.content (R.input p)
  sink : ∀ f p fd, R.own f = some (p, fd) → k.output f = old f ++ a.sink p fd

/-- What the processes do to their tables and programs does not matter. -/
theorem Carries.congr {a' : NetState UInt8 σ} (h : R.Carries old k a) (hbuf : k'.buf = k.buf)
    (hinput : k'.input = k.input) (houtput : k'.output = k.output) (hchan : a'.chan = a.chan)
    (hsink : a'.sink = a.sink) : R.Carries old k' a' where
  chan p hp := by
    have hold := h.chan p hp
    rw [hchan, hold]
    cases R.input p <;> simp only [Kernel.content, hbuf, hinput]
  sink f p fd hown := by rw [houtput, hsink, h.sink f p fd hown]

variable [DecidableEq F]

/-- A transfer from what a process reads is a step of the network. -/
theorem Carries.read (h : R.Carries old k a) (hp : p < N.count) {next : Option (List UInt8) → σ}
    (hs : a.proc p = some s) (hact : N.act s = .read (N.stdin p) size next)
    (hfd : k.fds (some p) (N.stdin p) = some (R.input p))
    (hclosed : ∀ j, R.input p = .readEnd j → ¬ k.Open (.writeEnd j) → N.Closed a p)
    {r : Option (List UInt8)} (hread : k.Read (some p) (N.stdin p) size r k') :
    ∃ a', N.Step a p a' ∧ a'.proc = Function.update a.proc p (some (next r)) ∧
      R.Carries old k' a' := by
  have hchan := h.chan p hp
  -- the other channels are other files
  have hother : ∀ q < N.count, q ≠ p → R.input q ≠ R.input p :=
    fun q hq hne he => hne (R.input_inj hq hp he)
  cases hread with
  | @file f c rest hf hcut hc hlen =>
    have hin : R.input p = .plain f := Option.some.inj (hfd.symm.trans hf)
    rw [hin] at hchan hother
    refine ⟨_, .read hs hact (hchan.trans hcut) hc hlen, rfl, ?_, h.sink⟩
    intro q hq
    by_cases hqp : q = p
    · subst hqp
      simp [hin, Kernel.content]
    · simpa [Function.update_of_ne hqp, content_input (hother q hq hqp)] using h.chan q hq
  | @fileEnd f hf hend =>
    have hin : R.input p = .plain f := Option.some.inj (hfd.symm.trans hf)
    rw [hin] at hchan
    refine ⟨_, .eof hs hact (hchan.trans hend) ?_, rfl, h.chan, h.sink⟩
    -- nothing feeds a file
    intro q fd hdest
    obtain ⟨j, -, hj⟩ := R.pipe hdest
    rw [hin] at hj
    cases hj
  | @pipe j c rest hf hcut hc hlen =>
    have hin : R.input p = .readEnd j := Option.some.inj (hfd.symm.trans hf)
    rw [hin] at hchan hother
    refine ⟨_, .read hs hact (hchan.trans hcut) hc hlen, rfl, ?_, h.sink⟩
    intro q hq
    by_cases hqp : q = p
    · subst hqp
      simp [hin, Kernel.content]
    · simpa [Function.update_of_ne hqp, content_buf (hother q hq hqp)] using h.chan q hq
  | @pipeEnd j hf hend hopen =>
    have hin : R.input p = .readEnd j := Option.some.inj (hfd.symm.trans hf)
    rw [hin] at hchan
    exact ⟨_, .eof hs hact (hchan.trans hend) (hclosed j hin hopen), rfl, h.chan, h.sink⟩
  | failed hplain hread =>
    cases hin : R.input p with
    | plain f => exact absurd (hfd.trans (congrArg some hin)) (hplain f)
    | readEnd j => exact absurd (hfd.trans (congrArg some hin)) (hread j)
    | writeEnd j => exact absurd hin (R.input_read p j)

/-- A transfer to a descriptor that the program uses is a step of the network. -/
theorem Carries.write (h : R.Carries old k a) (hp : p < N.count) {b : UInt8} {next : Bool → σ}
    (hs : a.proc p = some s) (hact : N.act s = .write fd b next) {f : File F}
    (hout : R.output p fd = some f) (hfd : k.fds (some p) fd = some f) {ok : Bool}
    (hwrite : k.Write capacity (some p) fd b ok k') :
    ∃ a', N.Step a p a' ∧ a'.proc = Function.update a.proc p (some (next ok)) ∧
      R.Carries old k' a' := by
  cases hwrite with
  | @file x hf =>
    obtain rfl : f = .plain x := Option.some.inj (hfd.symm.trans hf)
    have hdest : N.dest p fd = none := by
      cases hdest : N.dest p fd with
      | none => rfl
      | some q =>
        obtain ⟨j, hj, -⟩ := R.pipe hdest
        rw [hout] at hj
        cases hj
    refine ⟨_, .emit hs hact hdest, rfl, ?_, ?_⟩
    · intro q hq
      have hchan := h.chan q hq
      cases hin : R.input q <;> rw [hin] at hchan <;> exact hchan
    · intro y p' fd' hown
      have hsink := h.sink y p' fd' hown
      by_cases hy : y = x
      · subst hy
        obtain ⟨rfl, rfl⟩ := R.own_only hown hp hout
        simp [hsink]
      · have hne : p' ≠ p ∨ fd' ≠ fd := by
          by_contra hsame
          push Not at hsame
          obtain ⟨rfl, rfl⟩ := hsame
          have hown' := R.own_output hown
          rw [hout] at hown'
          cases hown'
          exact hy rfl
        simpa [Function.update_of_ne hy, Net.outs_update hne] using hsink
  | @pipe j hf hopen hroom =>
    obtain rfl : f = .writeEnd j := Option.some.inj (hfd.symm.trans hf)
    cases hdest : N.dest p fd with
    | none =>
      obtain ⟨x, hx⟩ := R.file hdest hout
      cases hx
    | some q =>
      obtain ⟨i, hi, hin⟩ := R.pipe hdest
      rw [hout] at hi
      cases hi
      have hq := (N.dest_lt hdest).2
      refine ⟨_, .send hs hact hdest, rfl, ?_, h.sink⟩
      intro q' hq'
      by_cases hqq : q' = q
      · subst hqq
        have hchan := h.chan q' hq
        rw [hin] at hchan
        simp [hin, Kernel.content, hchan]
      · have hne : R.input q' ≠ .readEnd j := fun he => hqq (R.input_inj hq' hq (he.trans hin.symm))
        simpa [Function.update_of_ne hqq, content_buf hne] using h.chan q' hq'
  | failed hplain hend =>
    cases hdest : N.dest p fd with
    | none =>
      obtain ⟨x, rfl⟩ := R.file hdest hout
      exact absurd hfd (hplain x)
    | some q =>
      obtain ⟨j, hj, -⟩ := R.pipe hdest
      rw [hout] at hj
      cases hj
      exact absurd hfd (hend j)

/-- The descriptors that process `p` uses, to read and to write `outs`, refer to what the
routing says. The pipe it reads can be written to until nothing feeds it any more, and those
that it writes to are not broken. -/
structure Connected (R : Routing N F) (k : Kernel (Option Nat) F) (a : NetState UInt8 σ)
    (p : Nat) (outs : Nat → List UInt8) : Prop where
  input : k.fds (some p) (N.stdin p) = some (R.input p)
  closed : ∀ j, R.input p = .readEnd j → (¬ k.Open (.writeEnd j) ↔ N.Closed a p)
  output : ∀ fd, outs fd ≠ [] → ∃ f, R.output p fd = some f ∧ k.fds (some p) fd = some f
  unbroken : ∀ fd j, outs fd ≠ [] → R.output p fd = some (.writeEnd j) → k.Open (.readEnd j)

variable {drain : Prop} {m : Nat} {xs : List UInt8} {outs : Nat → List UInt8}

/-- A system call of a connected process is a step of the network, and does not kill it. -/
theorem Carries.call (h : R.Carries old k a) (hp : p < N.count) (hs : a.proc p = some s)
    (hruns : Runs N.act (N.stdin p) drain m s xs outs) (hconn : R.Connected k a p outs)
    {o : Outcome σ} (hcall : k.Call N.act capacity (some p) s o k') :
    ∃ a', N.Step a p a' ∧ a'.proc = Function.update a.proc p o.state ∧ R.Carries old k' a' ∧
      o ≠ .killed := by
  cases hcall with
  | read hact hread =>
    obtain ⟨rfl, -⟩ := hruns.of_read hact
    obtain ⟨a', hstep, hproc, hcarries⟩ := h.read hp hs hact hconn.input
      (fun j hj => (hconn.closed j hj).mp) hread
    exact ⟨a', hstep, hproc, hcarries, by simp⟩
  | @write fd b next ok k' hact hwrite =>
    obtain ⟨ys, hys, -⟩ := hruns.of_write hact
    obtain ⟨f, hf, hfd⟩ := hconn.output fd (by simp [hys])
    obtain ⟨a', hstep, hproc, hcarries⟩ := h.write hp hs hact hf hfd hwrite
    exact ⟨a', hstep, hproc, hcarries, by simp⟩
  | @broken fd b next hact hbroken =>
    obtain ⟨ys, hys, -⟩ := hruns.of_write hact
    have hne : outs fd ≠ [] := by simp [hys]
    obtain ⟨f, hf, hfd⟩ := hconn.output fd hne
    obtain ⟨j, hj, hclosed⟩ := hbroken
    rw [hfd] at hj
    cases hj
    exact absurd (hconn.unbroken fd j hne hf) hclosed
  | exit hact =>
    exact ⟨_, .exit hs hact, rfl, h.congr rfl rfl rfl rfl rfl, by simp⟩

/-- A connected process that the network can advance is not blocked. -/
theorem Carries.ready (h : R.Carries old k a) (hp : p < N.count)
    (hruns : Runs N.act (N.stdin p) drain m s xs outs) (hready : N.Ready capacity a p s)
    (hconn : R.Connected k a p outs) : ∃ o k', k.Call N.act capacity (some p) s o k' := by
  unfold Net.Ready at hready
  have hin := hconn.input
  cases hact : N.act s with
  | exit => exact ⟨_, _, .exit hact⟩
  | read fd size next =>
    obtain ⟨rfl, hsize, -⟩ := hruns.of_read hact
    simp only [hact] at hready
    have hchan := h.chan p hp
    cases hcontent : a.chan p with
    | cons b bs =>
      rw [hcontent] at hchan
      have hlen : [b].length ≤ size := hsize
      cases hf : R.input p with
      | plain f =>
        rw [hf] at hin hchan
        have hcut : k.input f = [b] ++ bs := hchan.symm
        exact ⟨_, _, .read hact (.file hin hcut (by simp) hlen)⟩
      | readEnd j =>
        rw [hf] at hin hchan
        have hcut : k.buf j = [b] ++ bs := hchan.symm
        exact ⟨_, _, .read hact (.pipe hin hcut (by simp) hlen)⟩
      | writeEnd j => exact absurd hf (R.input_read p j)
    | nil =>
      rw [hcontent] at hchan
      have hend := hready.resolve_left fun hne => hne hcontent
      cases hf : R.input p with
      | plain f =>
        rw [hf] at hin hchan
        exact ⟨_, _, .read hact (.fileEnd hin hchan.symm)⟩
      | readEnd j =>
        have hclosed := (hconn.closed j hf).mpr hend
        rw [hf] at hin hchan
        exact ⟨_, _, .read hact (.pipeEnd hin hchan.symm hclosed)⟩
      | writeEnd j => exact absurd hf (R.input_read p j)
  | write fd b next =>
    obtain ⟨ys, hys, -⟩ := hruns.of_write hact
    have hne : outs fd ≠ [] := by simp [hys]
    obtain ⟨f, hf, hfd⟩ := hconn.output fd hne
    simp only [hact] at hready
    cases hdest : N.dest p fd with
    | none =>
      obtain ⟨x, rfl⟩ := R.file hdest hf
      exact ⟨_, _, .write hact (.file hfd)⟩
    | some q =>
      obtain ⟨j, hj, hq⟩ := R.pipe hdest
      rw [hf] at hj
      cases hj
      have hroom := hready q hdest
      rw [h.chan q (N.dest_lt hdest).2, hq] at hroom
      exact ⟨_, _, .write hact (.pipe hfd (hconn.unbroken fd j hne hf) hroom)⟩

end Routing

end CLib
