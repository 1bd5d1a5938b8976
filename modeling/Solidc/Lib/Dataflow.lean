import Solidc.Lib.Cyclic

/-! # Dataflow networks

Programs that read one stream and write to several, connected by bounded channels. Process
`p` reads the channel `p`, and `dest p fd` is the channel its descriptor `fd` feeds; what it
writes elsewhere is collected. Every channel is fed by one descriptor of one earlier process.

* `Runs` — what a program makes of its whole input, however the reads cut it;
* `Flows.step` — every step, in any order, keeps the results what the programs make of their
  inputs, and leaves less to do;
* `Flows.not_stuck` — as long as a program has not ended, one of them can go on;
* `Flows.final` — once all have ended, everything the programs write has arrived.
-/

namespace CLib

variable {β σ : Type*}

/-- The next system call of a program, with what it does with the result: `none` from a read
that failed, no bytes at the end of the input. -/
inductive Act (β σ : Type*) where
  | read (fd size : Nat) (next : Option (List β) → σ)
  | write (fd : Nat) (b : β) (next : Bool → σ)
  | exit

/-- The call of a program that is part of a larger one. -/
def Act.map {τ : Type*} (f : σ → τ) : Act β σ → Act β τ
  | .read fd size next => .read fd size fun r => f (next r)
  | .write fd b next => .write fd b fun ok => f (next ok)
  | .exit => .exit

/-- From `s`, with `xs` to be read from its descriptor `stdin`, the program writes `outs fd` to
each descriptor `fd` and exits, in at most `k` steps, whatever pieces the reads return; if it
is to `drain` its input, it has read all of it by then. -/
inductive Runs (act : σ → Act β σ) (stdin : Nat) (drain : Prop) :
    Nat → σ → List β → (Nat → List β) → Prop
  | exit {k : Nat} {s : σ} {xs : List β} {outs : Nat → List β} : act s = .exit →
      (drain → xs = []) → (∀ fd, outs fd = []) → Runs act stdin drain (k + 1) s xs outs
  | read {k size : Nat} {s : σ} {next : Option (List β) → σ} {xs : List β}
      {outs : Nat → List β} : act s = .read stdin size next → 0 < size → xs ≠ [] →
      (∀ c rest, xs = c ++ rest → c ≠ [] → c.length ≤ size →
        Runs act stdin drain k (next (some c)) rest outs) →
      Runs act stdin drain (k + 1) s xs outs
  | eof {k size : Nat} {s : σ} {next : Option (List β) → σ} {outs : Nat → List β} :
      act s = .read stdin size next → 0 < size → Runs act stdin drain k (next (some [])) [] outs →
      Runs act stdin drain (k + 1) s [] outs
  | write {k fd : Nat} {s : σ} {b : β} {next : Bool → σ} {xs ys : List β}
      {outs : Nat → List β} : act s = .write fd b next → outs fd = b :: ys →
      Runs act stdin drain k (next true) xs (Function.update outs fd ys) →
      Runs act stdin drain (k + 1) s xs outs

namespace Runs

variable {act : σ → Act β σ} {drain : Prop} {stdin k fd size : Nat} {s : σ} {xs : List β}
  {outs : Nat → List β}

theorem pos (h : Runs act stdin drain k s xs outs) : 0 < k := by
  cases h <;> exact Nat.succ_pos _

theorem of_exit (h : Runs act stdin drain k s xs outs) (hact : act s = .exit) :
    (drain → xs = []) ∧ ∀ fd, outs fd = [] := by
  cases h with
  | exit _ hxs houts => exact ⟨hxs, houts⟩
  | read hs | eof hs | write hs =>
    rw [hact] at hs
    cases hs

/-- A program about to read. -/
theorem of_read {next : Option (List β) → σ} (h : Runs act stdin drain k s xs outs)
    (hact : act s = .read fd size next) :
    fd = stdin ∧ 0 < size ∧
      (∀ c rest, xs = c ++ rest → c ≠ [] → c.length ≤ size →
        Runs act stdin drain (k - 1) (next (some c)) rest outs) ∧
      (xs = [] → Runs act stdin drain (k - 1) (next (some [])) [] outs) := by
  cases h with
  | exit hs | write hs =>
    rw [hact] at hs
    cases hs
  | read hs hsize hxs hnext =>
    rw [hact] at hs
    cases hs
    exact ⟨rfl, hsize, hnext, fun hnil => absurd hnil hxs⟩
  | eof hs hsize hnext =>
    rw [hact] at hs
    cases hs
    refine ⟨rfl, hsize, ?_, fun _ => hnext⟩
    intro c rest happ hc
    exact absurd (List.append_eq_nil_iff.mp happ.symm).1 hc

/-- A program about to write. -/
theorem of_write {b : β} {next : Bool → σ} (h : Runs act stdin drain k s xs outs)
    (hact : act s = .write fd b next) :
    ∃ ys, outs fd = b :: ys ∧
      Runs act stdin drain (k - 1) (next true) xs (Function.update outs fd ys) := by
  cases h with
  | exit hs | read hs | eof hs =>
    rw [hact] at hs
    cases hs
  | write hs houts hnext =>
    rw [hact] at hs
    cases hs
    exact ⟨_, houts, hnext⟩

theorem mono {k' : Nat} (h : Runs act stdin drain k s xs outs) (hk : k ≤ k') :
    Runs act stdin drain k' s xs outs := by
  induction h generalizing k' with
  | exit hact hxs houts =>
    obtain ⟨k', rfl⟩ := Nat.exists_eq_add_of_lt hk
    exact .exit hact hxs houts
  | read hact hsize hxs _ ih =>
    obtain ⟨d, rfl⟩ := Nat.exists_eq_add_of_lt hk
    exact .read hact hsize hxs fun c rest hcut hc hlen =>
      ih c rest hcut hc hlen (Nat.le_add_right _ _)
  | eof hact hsize _ ih =>
    obtain ⟨d, rfl⟩ := Nat.exists_eq_add_of_lt hk
    exact .eof hact hsize (ih (Nat.le_add_right _ _))
  | write hact houts _ ih =>
    obtain ⟨d, rfl⟩ := Nat.exists_eq_add_of_lt hk
    exact .write hact houts (ih (Nat.le_add_right _ _))

theorem of_imp {drain' : Prop} (h : Runs act stdin drain k s xs outs) (himp : drain' → drain) :
    Runs act stdin drain' k s xs outs := by
  induction h with
  | exit hact hxs houts => exact .exit hact (fun hd => hxs (himp hd)) houts
  | read hact hsize hxs _ ih => exact .read hact hsize hxs ih
  | eof hact hsize _ ih => exact .eof hact hsize ih
  | write hact houts _ ih => exact .write hact houts ih

/-- A program does the same as part of a larger one. -/
theorem map {τ : Type*} {act' : τ → Act β τ} (f : σ → τ) (hact' : ∀ s, act' (f s) = (act s).map f)
    (h : Runs act stdin drain k s xs outs) : Runs act' stdin drain k (f s) xs outs := by
  induction h with
  | exit hact hxs houts => exact .exit (by rw [hact', hact]; rfl) hxs houts
  | read hact hsize hxs _ ih => exact .read (by rw [hact', hact]; rfl) hsize hxs ih
  | eof hact hsize _ ih => exact .eof (by rw [hact', hact]; rfl) hsize ih
  | write hact houts _ ih => exact .write (by rw [hact', hact]; rfl) houts ih

end Runs

/-! ## Networks -/

/-- `count` processes; process `p` reads from its descriptor `stdin p` the channel `p`, and
`dest p fd` is the channel that its descriptor `fd` feeds. -/
structure Net (β σ : Type*) where
  act : σ → Act β σ
  count : Nat
  stdin : Nat → Nat
  dest : Nat → Nat → Option Nat
  dest_lt : ∀ {p fd q}, dest p fd = some q → p < q ∧ q < count
  dest_inj : ∀ {p fd p' fd' q}, dest p fd = some q → dest p' fd' = some q → p = p' ∧ fd = fd'

/-- The processes that have not ended, the bytes in each channel, and what each process has
written to the descriptors that feed none. -/
structure NetState (β σ : Type*) where
  proc : Nat → Option σ
  chan : Nat → List β
  sink : Nat → Nat → List β

namespace Net

variable {N : Net β σ} {a a' : NetState β σ} {p q fd capacity : Nat}

/-- Nothing feeds the channel any more. -/
def Closed (N : Net β σ) (a : NetState β σ) (q : Nat) : Prop :=
  ∀ p fd, N.dest p fd = some q → a.proc p = none

/-- One system call of one process. -/
inductive Step (N : Net β σ) (a : NetState β σ) (p : Nat) : NetState β σ → Prop
  | read {s : σ} {size : Nat} {next : Option (List β) → σ} {c rest : List β} :
      a.proc p = some s → N.act s = .read (N.stdin p) size next → a.chan p = c ++ rest →
      c ≠ [] → c.length ≤ size →
      Step N a p { a with
        proc := Function.update a.proc p (some (next (some c)))
        chan := Function.update a.chan p rest }
  | eof {s : σ} {size : Nat} {next : Option (List β) → σ} :
      a.proc p = some s → N.act s = .read (N.stdin p) size next → a.chan p = [] →
      N.Closed a p →
      Step N a p { a with proc := Function.update a.proc p (some (next (some []))) }
  | send {s : σ} {fd q : Nat} {b : β} {next : Bool → σ} :
      a.proc p = some s → N.act s = .write fd b next → N.dest p fd = some q →
      Step N a p { a with
        proc := Function.update a.proc p (some (next true))
        chan := Function.update a.chan q (a.chan q ++ [b]) }
  | emit {s : σ} {fd : Nat} {b : β} {next : Bool → σ} :
      a.proc p = some s → N.act s = .write fd b next → N.dest p fd = none →
      Step N a p { a with
        proc := Function.update a.proc p (some (next true))
        sink := Function.update a.sink p (Function.update (a.sink p) fd (a.sink p fd ++ [b])) }
  | exit {s : σ} : a.proc p = some s → N.act s = .exit →
      Step N a p { a with proc := Function.update a.proc p none }

/-- Some descriptor feeds the channel, which its reader then has to drain. -/
def Fed (N : Net β σ) (q : Nat) : Prop := ∃ p fd, N.dest p fd = some q

/-- What a process has still to read and to write; an ended one nothing. -/
def Remaining (N : Net β σ) (p k : Nat) (xs : List β) (outs : Nat → List β) : Option σ → Prop
  | none => (N.Fed p → xs = []) ∧ ∀ fd, outs fd = []
  | some s => Runs N.act (N.stdin p) (N.Fed p) k s xs outs

/-- Each process `p` has `rest p` to read and `outs p` to write. What is in a channel comes
before what is still to be written to it, and what was collected before the rest of the
`result`. -/
structure Flow (N : Net β σ) (result : Nat → Nat → List β) (a : NetState β σ)
    (rest : Nat → List β) (outs : Nat → Nat → List β) (k : Nat → Nat) : Prop where
  proc : ∀ p < N.count, N.Remaining p (k p) (rest p) (outs p) (a.proc p)
  fed : ∀ p fd q, N.dest p fd = some q → rest q = a.chan q ++ outs p fd
  source : ∀ q < N.count, ¬ N.Fed q → rest q = a.chan q
  sink : ∀ p < N.count, ∀ fd, N.dest p fd = none → a.sink p fd ++ outs p fd = result p fd

/-- The network still delivers the `result`, in at most `m` steps. -/
def Flows (N : Net β σ) (result : Nat → Nat → List β) (a : NetState β σ) (m : Nat) : Prop :=
  ∃ rest outs k, N.Flow result a rest outs k ∧ m = ∑ p ∈ Finset.range N.count, k p

variable {result : Nat → Nat → List β} {rest : Nat → List β} {outs : Nat → Nat → List β}
  {k : Nat → Nat}

theorem sum_pred_lt {n : Nat} (hp : p < n) (hk : 0 < k p) :
    ∑ i ∈ Finset.range n, Function.update k p (k p - 1) i < ∑ i ∈ Finset.range n, k i := by
  have hsum := sum_update (Finset.mem_range.mpr hp) id k (k p - 1)
  simp only [id_eq] at hsum
  omega

/-- What a process has to read starts with what is in its channel. -/
theorem Flow.chan_prefix (h : N.Flow result a rest outs k) (hq : q < N.count) :
    ∃ tail, rest q = a.chan q ++ tail := by
  by_cases hfed : N.Fed q
  · obtain ⟨p, fd, hdest⟩ := hfed
    exact ⟨_, h.fed p fd q hdest⟩
  · exact ⟨[], by rw [h.source q hq hfed, List.append_nil]⟩

theorem Flow.remaining (h : N.Flow result a rest outs k) (hp : p < N.count) {s : σ}
    (hs : a.proc p = some s) : Runs N.act (N.stdin p) (N.Fed p) (k p) s (rest p) (outs p) := by
  have hproc := h.proc p hp
  rw [hs] at hproc
  exact hproc

theorem Flow.ended (h : N.Flow result a rest outs k) (hp : p < N.count) (hs : a.proc p = none) :
    (N.Fed p → rest p = []) ∧ ∀ fd, outs p fd = [] := by
  have hproc := h.proc p hp
  rw [hs] at hproc
  exact hproc

/-- An empty channel that nothing feeds any more is all its reader gets. -/
theorem Flow.rest_nil (h : N.Flow result a rest outs k) (hq : q < N.count)
    (hchan : a.chan q = []) (hclosed : N.Closed a q) : rest q = [] := by
  by_cases hfed : N.Fed q
  · obtain ⟨p, fd, hdest⟩ := hfed
    have hlt := N.dest_lt hdest
    rw [h.fed p fd q hdest, hchan, (h.ended (hlt.1.trans hq) (hclosed p fd hdest)).2 fd]
    rfl
  · rw [h.source q hq hfed, hchan]

/-- The other processes do not notice a step of `p`. -/
theorem Flow.proc_step (h : N.Flow result a rest outs k) {x : Option σ}
    {rest' : Nat → List β} {outs' : Nat → Nat → List β}
    (hself : N.Remaining p (k p - 1) (rest' p) (outs' p) x)
    (hrest : ∀ q, q ≠ p → rest' q = rest q) (houts : ∀ q, q ≠ p → outs' q = outs q) :
    ∀ q < N.count, N.Remaining q (Function.update k p (k p - 1) q) (rest' q) (outs' q)
      (Function.update a.proc p x q) := by
  intro q hq
  by_cases hqp : q = p
  · subst hqp
    simpa using hself
  · rw [Function.update_of_ne hqp, Function.update_of_ne hqp, hrest q hqp, houts q hqp]
    exact h.proc q hq

theorem Flow.read (h : N.Flow result a rest outs k) (hp : p < N.count) {s : σ} {size : Nat}
    {next : Option (List β) → σ} {c left : List β} (hs : a.proc p = some s)
    (hact : N.act s = .read (N.stdin p) size next) (hchan : a.chan p = c ++ left) (hc : c ≠ [])
    (hlen : c.length ≤ size) :
    ∃ rest', N.Flow result { a with
      proc := Function.update a.proc p (some (next (some c)))
      chan := Function.update a.chan p left } rest' outs (Function.update k p (k p - 1)) := by
  obtain ⟨tail, htail⟩ := h.chan_prefix hp
  have hcut : rest p = c ++ (left ++ tail) := by rw [htail, hchan, List.append_assoc]
  have hruns := ((h.remaining hp hs).of_read hact).2.2.1 c _ hcut hc hlen
  refine ⟨Function.update rest p (left ++ tail), ?_, ?_, ?_, h.sink⟩
  · refine h.proc_step ?_ (fun q hq => Function.update_of_ne hq _ _) (fun q _ => rfl)
    rw [Function.update_self]
    exact hruns
  · intro p' fd' q hdest
    have hfed := h.fed p' fd' q hdest
    by_cases hq : q = p
    · subst hq
      have htails : tail = outs p' fd' := List.append_cancel_left (htail.symm.trans hfed)
      simp [htails]
    · simpa [Function.update_of_ne hq] using hfed
  · intro q hq hno
    have hsource := h.source q hq hno
    by_cases hqp : q = p
    · subst hqp
      have htails : tail = [] := by simpa [hsource] using htail
      simp [htails]
    · simpa [Function.update_of_ne hqp] using hsource

theorem Flow.write (h : N.Flow result a rest outs k) (hp : p < N.count) {s : σ} {b : β}
    {next : Bool → σ} (hs : a.proc p = some s) (hact : N.act s = .write fd b next) :
    ∃ ys, outs p fd = b :: ys ∧
      ∀ q < N.count, N.Remaining q (Function.update k p (k p - 1) q) (rest q)
        (Function.update outs p (Function.update (outs p) fd ys) q)
        (Function.update a.proc p (some (next true)) q) := by
  obtain ⟨ys, hys, hruns⟩ := (h.remaining hp hs).of_write hact
  refine ⟨ys, hys, h.proc_step ?_ (fun q _ => rfl) (fun q hq => Function.update_of_ne hq _ _)⟩
  rw [Function.update_self]
  exact hruns

/-- What is left to write after one more byte on the descriptor `fd` of `p`. -/
theorem outs_update {ys : List β} {p' fd' : Nat} (h : p' ≠ p ∨ fd' ≠ fd) :
    Function.update outs p (Function.update (outs p) fd ys) p' fd' = outs p' fd' := by
  by_cases hp : p' = p
  · subst hp
    rw [Function.update_self, Function.update_of_ne (h.resolve_left fun hne => hne rfl)]
  · rw [Function.update_of_ne hp]

theorem Flow.send (h : N.Flow result a rest outs k) (hp : p < N.count) {s : σ} {b : β}
    {next : Bool → σ} (hs : a.proc p = some s) (hact : N.act s = .write fd b next)
    (hdest : N.dest p fd = some q) :
    ∃ outs', N.Flow result { a with
      proc := Function.update a.proc p (some (next true))
      chan := Function.update a.chan q (a.chan q ++ [b]) } rest outs'
        (Function.update k p (k p - 1)) := by
  obtain ⟨ys, hys, hproc⟩ := h.write hp hs hact
  refine ⟨_, hproc, ?_, ?_, ?_⟩
  · intro p' fd' q' hdest'
    by_cases hsame : p' = p ∧ fd' = fd
    · obtain ⟨rfl, rfl⟩ := hsame
      obtain rfl : q = q' := Option.some.inj (hdest.symm.trans hdest')
      simp [h.fed _ _ _ hdest, hys]
    · -- another descriptor feeds another channel
      have hq : q' ≠ q := by
        intro heq
        subst heq
        exact hsame (N.dest_inj hdest' hdest)
      rw [outs_update (by tauto)]
      simpa [Function.update_of_ne hq] using h.fed _ _ _ hdest'
  · intro q' hq' hno
    have hq : q' ≠ q := by
      intro heq
      subst heq
      exact hno ⟨p, fd, hdest⟩
    simpa [Function.update_of_ne hq] using h.source q' hq' hno
  · intro p' hp' fd' hno
    rw [outs_update]
    · exact h.sink p' hp' fd' hno
    · by_contra hsame
      push Not at hsame
      obtain ⟨rfl, rfl⟩ := hsame
      rw [hno] at hdest
      cases hdest

theorem Flow.emit (h : N.Flow result a rest outs k) (hp : p < N.count) {s : σ} {b : β}
    {next : Bool → σ} (hs : a.proc p = some s) (hact : N.act s = .write fd b next)
    (hdest : N.dest p fd = none) :
    ∃ outs', N.Flow result { a with
      proc := Function.update a.proc p (some (next true))
      sink := Function.update a.sink p (Function.update (a.sink p) fd (a.sink p fd ++ [b])) }
        rest outs' (Function.update k p (k p - 1)) := by
  obtain ⟨ys, hys, hproc⟩ := h.write hp hs hact
  refine ⟨_, hproc, ?_, h.source, ?_⟩
  · intro p' fd' q' hdest'
    rw [outs_update]
    · exact h.fed _ _ _ hdest'
    · by_contra hsame
      push Not at hsame
      obtain ⟨rfl, rfl⟩ := hsame
      rw [hdest] at hdest'
      cases hdest'
  · intro p' hp' fd' hno
    have hsink := h.sink p' hp' fd' hno
    by_cases hsame : p' = p ∧ fd' = fd
    · obtain ⟨rfl, rfl⟩ := hsame
      simpa [hys] using hsink
    · have hother : p' ≠ p ∨ fd' ≠ fd := by tauto
      simpa [outs_update hother] using hsink

theorem Flow.exit (h : N.Flow result a rest outs k) (hp : p < N.count) {s : σ}
    (hs : a.proc p = some s) (hact : N.act s = .exit) :
    N.Flow result { a with proc := Function.update a.proc p none } rest outs
      (Function.update k p (k p - 1)) where
  proc := h.proc_step ((h.remaining hp hs).of_exit hact) (fun _ _ => rfl) (fun _ _ => rfl)
  fed := h.fed
  source := h.source
  sink := h.sink

theorem Flow.eof (h : N.Flow result a rest outs k) (hp : p < N.count) {s : σ} {size : Nat}
    {next : Option (List β) → σ} (hs : a.proc p = some s)
    (hact : N.act s = .read (N.stdin p) size next) (hchan : a.chan p = [])
    (hclosed : N.Closed a p) :
    N.Flow result { a with proc := Function.update a.proc p (some (next (some []))) } rest outs
      (Function.update k p (k p - 1)) where
  proc := by
    have hnil := h.rest_nil hp hchan hclosed
    refine h.proc_step ?_ (fun _ _ => rfl) (fun _ _ => rfl)
    rw [hnil]
    exact ((h.remaining hp hs).of_read hact).2.2.2 hnil
  fed := h.fed
  source := h.source
  sink := h.sink

/-- Every step keeps the results, and leaves less to do. -/
theorem Flows.step {m : Nat} (h : N.Flows result a m) (hp : p < N.count) (hstep : N.Step a p a') :
    ∃ m' < m, N.Flows result a' m' := by
  obtain ⟨rest, outs, k, h, rfl⟩ := h
  have hk : ∀ s, a.proc p = some s → 0 < k p := fun s hs => (h.remaining hp hs).pos
  cases hstep with
  | read hs hact hchan hc hlen =>
    obtain ⟨rest', hflow⟩ := h.read hp hs hact hchan hc hlen
    exact ⟨_, sum_pred_lt hp (hk _ hs), rest', outs, _, hflow, rfl⟩
  | eof hs hact hchan hclosed =>
    exact ⟨_, sum_pred_lt hp (hk _ hs), rest, outs, _, h.eof hp hs hact hchan hclosed, rfl⟩
  | send hs hact hdest =>
    obtain ⟨outs', hflow⟩ := h.send hp hs hact hdest
    exact ⟨_, sum_pred_lt hp (hk _ hs), rest, outs', _, hflow, rfl⟩
  | emit hs hact hdest =>
    obtain ⟨outs', hflow⟩ := h.emit hp hs hact hdest
    exact ⟨_, sum_pred_lt hp (hk _ hs), rest, outs', _, hflow, rfl⟩
  | exit hs hact =>
    exact ⟨_, sum_pred_lt hp (hk _ hs), rest, outs, _, h.exit hp hs hact, rfl⟩

/-! ## Progress -/

/-- The process can make its next system call: there is something to read, or nothing more to
come, or the channel it writes to has room. -/
def Ready (N : Net β σ) (capacity : Nat) (a : NetState β σ) (p : Nat) (s : σ) : Prop :=
  match N.act s with
  | .read _ _ _ => a.chan p ≠ [] ∨ N.Closed a p
  | .write fd _ _ => ∀ q, N.dest p fd = some q → (a.chan q).length < capacity
  | .exit => True

/-- A process that has something to read waits only for a later one, which has something to
read as well. -/
theorem Flow.ready_of_chan (h : N.Flow result a rest outs k) (hcap : 0 < capacity)
    (hstuck : ∀ p < N.count, ∀ s, a.proc p = some s → ¬ N.Ready capacity a p s)
    (hp : p < N.count) (hfed : N.Fed p) (hchan : a.chan p ≠ []) : False := by
  induction hd : N.count - p using Nat.strong_induction_on generalizing p with
  | h d ih =>
    cases hs : a.proc p with
    | none =>
      obtain ⟨tail, htail⟩ := h.chan_prefix hp
      rw [(h.ended hp hs).1 hfed] at htail
      exact hchan (List.append_eq_nil_iff.mp htail.symm).1
    | some s =>
      have hready := hstuck p hp s hs
      unfold Ready at hready
      cases hact : N.act s with
      | read fd size next => simp [hact, hchan] at hready
      | exit => simp [hact] at hready
      | write fd b next =>
        simp only [hact] at hready
        push Not at hready
        obtain ⟨q, hdest, hfull⟩ := hready
        have hlt := N.dest_lt hdest
        refine ih (N.count - q) (by omega) hlt.2 ⟨p, fd, hdest⟩ ?_ rfl
        intro hnil
        simp [hnil] at hfull
        omega

/-- While a process runs, one can go on: the first, or one that it waits for. -/
theorem Flow.not_stuck (h : N.Flow result a rest outs k) (hcap : 0 < capacity)
    (hrun : ∃ p < N.count, a.proc p ≠ none) :
    ∃ p < N.count, ∃ s, a.proc p = some s ∧ N.Ready capacity a p s := by
  by_contra hno
  push Not at hno
  classical
  have hp := Nat.find_spec hrun
  generalize hfirst : Nat.find hrun = p at hp
  have hbefore : ∀ q < p, a.proc q = none := by
    intro q hq
    have hmin := Nat.find_min hrun (hfirst ▸ hq)
    by_contra hne
    exact hmin ⟨hq.trans hp.1, hne⟩
  obtain ⟨s, hs⟩ := Option.ne_none_iff_exists'.mp hp.2
  have hready := hno p hp.1 s hs
  unfold Ready at hready
  cases hact : N.act s with
  | read fd size next =>
    -- everything before the first running process has ended
    simp only [hact] at hready
    exact hready (.inr fun q fd hdest => hbefore q (N.dest_lt hdest).1)
  | exit => simp [hact] at hready
  | write fd b next =>
    simp only [hact] at hready
    push Not at hready
    obtain ⟨q, hdest, hfull⟩ := hready
    refine h.ready_of_chan hcap hno (N.dest_lt hdest).2 ⟨p, fd, hdest⟩ ?_
    intro hnil
    simp [hnil] at hfull
    omega

/-- Once all processes have ended, the results are there. -/
theorem Flow.final (h : N.Flow result a rest outs k) (hend : ∀ p < N.count, a.proc p = none)
    (hp : p < N.count) (hdest : N.dest p fd = none) : a.sink p fd = result p fd := by
  rw [← h.sink p hp fd hdest, (h.ended hp (hend p hp)).2 fd, List.append_nil]

end Net

end CLib
