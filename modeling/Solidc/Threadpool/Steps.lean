import Solidc.Threadpool.Simulation

/-! # Every step moves tasks as the pool should

One lemma for each function of the pool's step: it keeps the invariants and moves tasks by
one `Flow.Move`. The label of the move tells a dequeue from the rest.

* `Pool.takes` — the next step of a worker takes a task out of a queue;
* `own_access`, `steal_advance` — a worker on its own deque, and on the deque of another one;
* `popAccess_advance` … `finish_advance` — the steps of a worker that move tasks.
-/

namespace Solidc.Threadpool

open CLib

variable {K α : Type*} {s s' s₁ : Pool K α} {i : Nat}

/-! ## Steps that move no task -/

/-- The pool without its locks and counters. -/
def Pool.plain (s : Pool K α) : Pool K α :=
  { s with
    shutdown := false
    numThreadsAlive := 0
    workersReady := 0
    parkLock := none
    numParked := 0
    idleLock := none }

@[simp] theorem workers_setWorker (w : Worker (Job α)) : (s.setWorker i w).workers i = w :=
  Function.update_self ..

theorem workers_setWorker_ne {j : Nat} (w : Worker (Job α)) (hj : j ≠ i) :
    (s.setWorker i w).workers j = s.workers j :=
  Function.update_of_ne hj ..

theorem books_of_plain (h : s'.plain = s.plain) : s'.books = s.books := by
  show s'.plain.books = s.plain.books
  rw [h]

/-- A step that leaves all threads where they are. -/
theorem Frame.of_eq {t : Option (Thread K)} (hn : s'.numWorkers = s.numWorkers)
    (hdue : s'.due = s.due) (hworkers : s'.workers = s.workers) (hclients : s'.clients = s.clients)
    (hawake : ∀ j, t = some (.worker j) → (s.workers j).pc ≠ .exit .exited) : Frame t s s' where
  numWorkers := hn
  due := hdue
  workers j _ := .inl (by rw [hworkers])
  awake := hawake
  clients k _ := .inl (by rw [hclients])

theorem Frame.of_plain {t : Option (Thread K)} (h : s'.plain = s.plain)
    (hawake : ∀ j, t = some (.worker j) → (s.workers j).pc ≠ .exit .exited) : Frame t s s' := by
  have hn : s'.plain.numWorkers = s.plain.numWorkers := by rw [h]
  have hdue : s'.plain.due = s.plain.due := by rw [h]
  have hworkers : s'.plain.workers = s.plain.workers := by rw [h]
  have hclients : s'.plain.clients = s.plain.clients := by rw [h]
  exact .of_eq hn hdue hworkers hclients hawake

theorem Frame.setWorker (h : Frame (some (.worker i)) s s') (w : Worker (Job α)) :
    Frame (some (.worker i)) s (s'.setWorker i w) where
  numWorkers := h.numWorkers
  due := h.due
  workers j hj := by
    have hne : j ≠ i := fun heq => hj (by rw [heq])
    rw [workers_setWorker_ne w hne]
    exact h.workers j hj
  awake := h.awake
  clients := h.clients

theorem worker_awake (hpc : (s.workers i).pc ≠ .exit .exited) (j : Nat)
    (hj : some (Thread.worker i : Thread K) = some (.worker j)) :
    (s.workers j).pc ≠ .exit .exited := by
  cases hj
  exact hpc

theorem acquireIdle_plain {t : Thread K} (h : acquireIdle s t = some s') : s'.plain = s.plain := by
  unfold acquireIdle at h
  split at h <;> cases h
  rfl

theorem acquirePark_plain {t : Thread K} (h : acquirePark s t = some s') : s'.plain = s.plain := by
  unfold acquirePark at h
  split at h <;> cases h
  rfl

/-- A step of worker `i` between program points that are alike. -/
theorem worker_quiet (hi : PoolInv s) (ha : Accounts s) (h : s₁.plain = s.plain)
    (hpc : (s.workers i).pc ≠ .exit .exited) (w : Worker (Job α)) (hw : Alike (s.workers i) w) :
    Advance (some (.worker i)) s .inside (s₁.setWorker i w) := by
  have hbooks : (s₁.setWorker i w).books = s.books := by
    show s₁.books = s.books
    exact books_of_plain h
  refine .quiet ((Frame.of_plain h (worker_awake hpc)).setWorker w) hi ha hbooks ?_ nofun
  intro j hj
  cases hj
  rw [workers_setWorker]
  exact hw

theorem setPc_quiet (hi : PoolInv s) (ha : Accounts s) (h : s₁.plain = s.plain)
    (hpc : (s.workers i).pc ≠ .exit .exited) (pc : WorkerPC (Job α))
    (hcore : pc.core = (s.workers i).pc.core) :
    Advance (some (.worker i)) s .inside (s₁.setPc i pc) := by
  have hsame : s₁.workers i = s.workers i := by
    show s₁.plain.workers i = s.plain.workers i
    rw [h]
  have halike : Alike (s.workers i) { s₁.workers i with pc := pc } :=
    ⟨by rw [hsame], hcore⟩
  exact worker_quiet hi ha h hpc _ halike

/-- Waking the clients up that wait for the pool to be idle. -/
theorem broadcast_quiet (hi : PoolInv s) (ha : Accounts s) (hpc : (s.workers i).pc ≠ .exit .exited)
    (pc : WorkerPC (Job α)) (hcore : pc.core = (s.workers i).pc.core) :
    Advance (some (.worker i)) s .inside ((broadcastIdle s).setPc i pc) := by
  have hframe : Frame (some (.worker i)) s (broadcastIdle s) :=
    ⟨rfl, rfl, fun j _ => .inl rfl, worker_awake hpc, fun k _ => .inr rfl⟩
  refine .quiet (hframe.setWorker _) hi ha rfl ?_ nofun
  intro j hj
  cases hj
  rw [Pool.setPc, workers_setWorker]
  exact ⟨rfl, hcore⟩

theorem startStep_advance (hi : PoolInv s) (ha : Accounts s) {pc : StartPC}
    (hpc : (s.workers i).pc = .start pc) :
    Advance (some (.worker i)) s .inside (startStep s i pc) := by
  have hawake : (s.workers i).pc ≠ .exit .exited := by simp [hpc]
  have hcore : WorkerPC.check = (s.workers i).pc.core := by
    rw [hpc]
    rfl
  cases pc with
  | arrive =>
    rw [startStep]
    exact setPc_quiet hi ha (by rfl) hawake (.start .barrier) hcore
  | barrier =>
    rw [startStep]
    split
    · refine .quiet (.of_plain rfl (worker_awake hawake)) hi ha rfl ?_ nofun
      exact fun j _ => ⟨rfl, rfl⟩
    · exact setPc_quiet hi ha (by rfl) hawake (.start .enlist) hcore
  | enlist =>
    rw [startStep]
    exact setPc_quiet hi ha (by rfl) hawake .check hcore

/-- The steps of a worker that only lock, count, scan or wait. -/
theorem idleStep_advance (hi : PoolInv s) (ha : Accounts s) {pc : IdlePC}
    (hpc : (s.workers i).pc = .idle pc) (h : idleStep s i pc = some s') :
    Advance (some (.worker i)) s .inside s' := by
  have hawake : (s.workers i).pc ≠ .exit .exited := by simp [hpc]
  have hcore : WorkerPC.check = (s.workers i).pc.core := by
    rw [hpc]
    rfl
  cases pc with
  | scan pc =>
    rw [idleStep] at h
    split at h <;> cases h
    · exact setPc_quiet hi ha (by rfl) hawake _ hcore
    · exact setPc_quiet hi ha (by rfl) hawake _ hcore
    · exact setPc_quiet hi ha (by rfl) hawake _ hcore
  | lock =>
    obtain ⟨s₁, hlock, rfl⟩ := Option.map_eq_some_iff.mp h
    exact setPc_quiet hi ha (acquireIdle_plain hlock) hawake _ hcore
  | load =>
    cases h
    refine setPc_quiet hi ha (by rfl) hawake _ ?_
    exact hcore
  | broadcast =>
    cases h
    exact broadcast_quiet hi ha hawake _ hcore
  | unlock =>
    cases h
    exact setPc_quiet hi ha (by rfl) hawake _ hcore

theorem parkStep_advance (hi : PoolInv s) (ha : Accounts s) {pc : ParkPC}
    (hpc : (s.workers i).pc = .park pc) (h : parkStep s i pc = some s') :
    Advance (some (.worker i)) s .inside s' := by
  have hawake : (s.workers i).pc ≠ .exit .exited := by simp [hpc]
  have hcore : WorkerPC.check = (s.workers i).pc.core := by
    rw [hpc]
    rfl
  cases pc with
  | scan pc =>
    rw [parkStep] at h
    split at h <;> cases h
    · exact setPc_quiet hi ha (by rfl) hawake _ hcore
    · exact setPc_quiet hi ha (by rfl) hawake _ hcore
    · exact setPc_quiet hi ha (by rfl) hawake _ hcore
  | lock | relock =>
    obtain ⟨s₁, hlock, rfl⟩ := Option.map_eq_some_iff.mp h
    exact setPc_quiet hi ha (acquirePark_plain hlock) hawake _ hcore
  | asleep => cases h
  | raise | shutdown | wait | unlock | lower =>
    cases h
    exact setPc_quiet hi ha (by rfl) hawake _ hcore

theorem exitStep_advance (hi : PoolInv s) (ha : Accounts s) {pc : ExitPC}
    (hpc : (s.workers i).pc = .exit pc) (h : exitStep s i pc = some s') :
    Advance (some (.worker i)) s .inside s' := by
  have hawake : pc ≠ .exited := by
    rintro rfl
    cases h
  replace hawake : (s.workers i).pc ≠ .exit .exited := by simp [hpc, hawake]
  have hcore : WorkerPC.check = (s.workers i).pc.core := by
    rw [hpc]
    rfl
  cases pc with
  | lock =>
    obtain ⟨s₁, hlock, rfl⟩ := Option.map_eq_some_iff.mp h
    exact setPc_quiet hi ha (acquireIdle_plain hlock) hawake _ hcore
  | broadcast =>
    cases h
    exact broadcast_quiet hi ha hawake _ hcore
  | leave | unlock =>
    cases h
    exact setPc_quiet hi ha (by rfl) hawake _ hcore
  | exited => cases h

/-- A worker that found no task. -/
theorem spinOrPark_advance (hi : PoolInv s) (ha : Accounts s)
    (hpc : (s.workers i).pc = .pullEmpty) :
    Advance (some (.worker i)) s .inside (spinOrPark s i) := by
  have hawake : (s.workers i).pc ≠ .exit .exited := by simp [hpc]
  have hcore : WorkerPC.check = (s.workers i).pc.core := by
    rw [hpc]
    rfl
  unfold spinOrPark
  split
  · exact worker_quiet hi ha (by rfl) hawake _ ⟨rfl, hcore⟩
  · exact worker_quiet hi ha (by rfl) hawake _ ⟨rfl, hcore⟩

/-! ## Steps of a worker on its own deque -/

theorem flow_set_self (f : Flow (Job α)) (i : Nat) : f.set i (f.workers i) = f := by
  unfold Flow.set
  rw [Function.update_eq_self]

/-- A step of worker `i` that changes no deque but its own. -/
theorem Frame.own {w : Worker (Job α)} {l : Label} (h : Frame (some (.worker i)) s s')
    (hi : PoolInv s) (hlt : i < s.numWorkers) (hw : s'.workers i = w) (hgq : s'.gq.Valid)
    (hthief : ∀ j, w.pc.thief s.numWorkers j = none ∨ w.pc.thief s.numWorkers j = some .loadTop)
    (hdeque : DequeInv w.deque w.pc.owner (s.thieves i)) (hown : w.OwnOk s.numWorkers i)
    (hactive : s'.numActive + (if (s.workers i).pc.isActive then 1 else 0) =
      s.numActive + (if w.pc.isActive then 1 else 0)) (hacc : Accounts s')
    (hmove : s.flow.Move s.numWorkers l
      { s.flow.set i w.holding with
        tail := s'.gq.tail, queue := s'.gq.content, entered := s'.entered,
        finished := s'.finished }) :
    Advance (some (.worker i)) s l s' := by
  subst hw
  refine h.advance (hi.own_step hlt h.numWorkers hgq h.alike hthief hdeque hown hactive) hacc ?_
  have hflow : s'.flow = { s.flow.set i (s'.workers i).holding with
      tail := s'.gq.tail, queue := s'.gq.content, entered := s'.entered,
      finished := s'.finished } := by
    simp only [Pool.flow, Flow.set, Flow.mk.injEq, true_and, and_true]
    exact flow_workers_own h.alike
  rw [hflow]
  exact hmove

/-- A step of worker `i` outside of a submit call. -/
theorem Frame.calls (h : Frame (some (.worker i)) s s')
    (hcall : (s'.workers i).pc.call? = (s.workers i).pc.call?) (t : Thread K) :
    s'.call? t = s.call? t := by
  by_cases ht : some (.worker i) = some t
  · cases ht
    exact hcall
  · exact h.call? t ht

/-- A step of worker `i` on its own deque. -/
theorem own_access (hi : PoolInv s) (ha : Accounts s) (hlt : i < s.numWorkers)
    (hawake : (s.workers i).pc ≠ .exit .exited) {w : Worker (Job α)} {l : Label}
    (hcall : w.pc.call? = (s.workers i).pc.call?)
    (hthief : ∀ j, w.pc.thief s.numWorkers j = none ∨ w.pc.thief s.numWorkers j = some .loadTop)
    (hdeque : DequeInv w.deque w.pc.owner (s.thieves i)) (hown : w.OwnOk s.numWorkers i)
    (hactive : w.pc.isActive = (s.workers i).pc.isActive)
    (hmove : s.flow.Move s.numWorkers l (s.flow.set i w.holding)) :
    Advance (some (.worker i)) s l (s.setWorker i w) := by
  have hframe : Frame (some (.worker i)) s s := .of_eq rfl rfl rfl rfl (worker_awake hawake)
  refine (hframe.setWorker w).own hi hlt (workers_setWorker w) hi.gq hthief hdeque hown ?_ ?_ hmove
  · show s.numActive + _ = _
    rw [hactive]
  · refine ha.same ((hframe.setWorker w).calls ?_) rfl rfl rfl rfl
    rw [workers_setWorker]
    exact hcall

theorem setDeque_setPc (d : Deque (Job α)) (pc : WorkerPC (Job α)) :
    (s.setDeque i d).setPc i pc = s.setWorker i { s.workers i with deque := d, pc := pc } := by
  simp [Pool.setDeque, Pool.setPc, Pool.setWorker]

theorem Flow.Move.of_holding {w : Worker (Job α)} (h : w.holding = (s.workers i).holding) :
    s.flow.Move s.numWorkers .inside (s.flow.set i w.holding) := by
  have hsame : s.flow.set i (s.workers i).holding = s.flow := flow_set_self s.flow i
  rw [h, hsame]
  exact .stay _

/-- No index has come near the end of `ptrdiff_t`. -/
def Pool.Roomy (s : Pool K α) : Prop :=
  ∀ i < s.numWorkers, (s.workers i).deque.bottom + 1 < 2 ^ 63

instance (s : Pool K α) : Decidable s.Roomy :=
  inferInstanceAs (Decidable (∀ i < s.numWorkers, (s.workers i).deque.bottom + 1 < 2 ^ 63))

theorem DequeInv.limit_le_bottom {T : Type*} {d : Deque α} {o : Owner α}
    {th : T → Option (StealPC α)} (h : DequeInv d o th) : d.limit o ≤ d.bottom + 1 := by
  have howner := h.owner
  rcases o with _ | pc | pc
  · exact Nat.le_succ _
  · exact Nat.le_succ _
  · cases pc <;> simp only [Deque.OwnerOk, Deque.limit] at howner ⊢ <;> omega

theorem PoolInv.limit_lt (h : PoolInv s) (hroom : s.Roomy) {j : Nat} (hj : j < s.numWorkers) :
    (s.workers j).deque.limit (s.workers j).pc.owner < 2 ^ 63 :=
  Nat.lt_of_le_of_lt (h.deque j).limit_le_bottom (hroom j hj)

/-- The next step of worker `i` takes a task out of a queue. -/
def Pool.takes (s : Pool K α) (i : Nat) : Prop :=
  match (s.workers i).pc with
  | .pop (.lower _) => (s.workers i).deque.top < (s.workers i).deque.bottom
  | .steal origin k (.cas t _) => (s.workers ((origin + k) % s.numWorkers)).deque.top = t
  | .pull => s.gq.head ≠ s.gq.tail
  | _ => False

/-- What the label of a step of worker `i` says. -/
def Pool.Labelled (s : Pool K α) (i : Nat) : Label → Prop
  | .inside => True
  | .dequeue => s.takes i
  | .outside => False

theorem checkStep_advance (hi : PoolInv s) (ha : Accounts s) (hlt : i < s.numWorkers)
    (hpc : (s.workers i).pc = .check) :
    Advance (some (.worker i)) s .inside
      (s.setPc i (if s.shutdown then .exit .leave else .pop .loadBottom)) := by
  have hawake : (s.workers i).pc ≠ .exit .exited := by simp [hpc]
  split
  · refine setPc_quiet hi ha (by rfl) hawake _ ?_
    rw [hpc]
    rfl
  · have hdeque := hi.deque i
    rw [hpc] at hdeque
    refine own_access hi ha hlt hawake (by rw [hpc]; rfl) (fun j => .inl rfl)
      (hdeque.begin rfl rfl trivial) trivial (by rw [hpc]; rfl) (.of_holding ?_)
    simp only [Worker.holding, hpc]
    rw [claimed_eq_nil rfl, claimed_eq_nil rfl]
    rfl

/-- What an access of a pop does is a move. -/
theorem PopSight.move {w : Worker (Job α)} {pc : PopPC (Job α)} (hlt : i < s.numWorkers)
    (hpc : (s.workers i).pc = .pop pc) (hextras : w.pc.extras = [])
    (h : PopSight (s.workers i).deque w.deque (s.workers i).pc.owner w.pc.owner
      (s.workers i).pc.hand w.pc.hand) :
    ∃ l, s.flow.Move s.numWorkers l (s.flow.set i w.holding) ∧ s.Labelled i l := by
  have hold : (s.workers i).pc.extras = [] := by
    rw [hpc]
    rfl
  cases h with
  | stay hv hc hw ht =>
    refine ⟨.inside, .of_holding ?_, trivial⟩
    simp only [Worker.holding, hv, hc, hw, ht, hextras, hold]
  | claim v x b ho hlow hv hv' hc hc' hw ht =>
    have hmove := Flow.Move.claim s.flow i v x hlt hv hc
    refine ⟨.dequeue, ?_, ?_⟩
    · have hw' : w.holding = { s.flow.workers i with visible := v, claimed := [x] } := by
        simp only [Worker.holding, Pool.flow, hv', hc', hw, ht, hextras, hold]
      rw [hw']
      exact hmove
    · have hlower : pc = .lower b := by
        rw [hpc] at ho
        cases ho
        rfl
      show s.takes i
      unfold Pool.takes
      rw [hpc, hlower]
      exact hlow
  | take x hv hc hc' hw hw' ht =>
    have hmove := Flow.Move.pop s.flow i x w.deque.top hlt hc hw ht
    refine ⟨.inside, ?_, trivial⟩
    have hwon : w.holding =
        { s.flow.workers i with top := w.deque.top, claimed := [], hand := [x] } := by
      simp only [Worker.holding, Pool.flow, hv, hc', hw', hextras, hold]
    rw [hwon]
    exact hmove

/-- Where `try_steal` goes on: with a deque that is not the worker's own, or the global
queue. -/
theorem stealNext_cases (n i origin k : Nat) :
    (∃ j, (stealNext n i origin k : WorkerPC α) = .steal origin j .loadTop ∧ (origin + j) % n ≠ i) ∨
      (stealNext n i origin k : WorkerPC α) = .pull := by
  unfold stealNext
  split
  · next j hj =>
    refine .inl ⟨j, rfl, ?_⟩
    simpa using List.find?_some hj
  · exact .inr rfl

theorem beginSteal_setDeque (s : Pool K α) (i : Nat) (d : Deque (Job α)) :
    ∃ w, beginSteal (s.setDeque i d) i = s.setWorker i w ∧ w.deque = d ∧
      ∃ origin, w.pc = stealNext s.numWorkers i origin 0 := by
  let rng := nextRng i (s.workers i).rng
  let pc : WorkerPC (Job α) := stealNext s.numWorkers i (rng.toNat % s.numWorkers) 0
  refine ⟨{ s.workers i with deque := d, rng := rng, pc := pc }, ?_, rfl, _, rfl⟩
  simp [beginSteal, Pool.setDeque, Pool.setWorker, rng, pc]

/-- A worker that goes on looking for a task. -/
structure Seeking (n i : Nat) (w : Worker (Job α)) : Prop where
  owner : w.pc.owner = .idle
  call : w.pc.call? = none
  extras : w.pc.extras = []
  hand : w.pc.hand = []
  active : w.pc.isActive = false
  own : w.OwnOk n i
  thief : ∀ j, w.pc.thief n j = none ∨ w.pc.thief n j = some .loadTop

theorem seeking_stealNext {n origin k : Nat} {w : Worker (Job α)}
    (hpc : w.pc = stealNext n i origin k) (hempty : w.deque.bottom = w.deque.top) :
    Seeking n i w := by
  rcases stealNext_cases n i origin k with ⟨j, hnext, hne⟩ | hnext
  · rw [hnext] at hpc
    constructor
    · rw [hpc]; rfl
    · rw [hpc]; rfl
    · rw [hpc]; rfl
    · rw [hpc]; rfl
    · rw [hpc]; rfl
    · unfold Worker.OwnOk
      rw [hpc]
      exact ⟨hne, hempty⟩
    · intro v
      rw [hpc, WorkerPC.thief]
      split
      · exact .inr rfl
      · exact .inl rfl
  · rw [hnext] at hpc
    constructor
    · rw [hpc]; rfl
    · rw [hpc]; rfl
    · rw [hpc]; rfl
    · rw [hpc]; rfl
    · rw [hpc]; rfl
    · unfold Worker.OwnOk
      rw [hpc]
      exact hempty
    · intro v
      rw [hpc]
      exact .inl rfl

theorem popAccess_advance (hi : PoolInv s) (ha : Accounts s) (hroom : s.Roomy)
    (hlt : i < s.numWorkers) {pc : PopPC (Job α)} (hpc : (s.workers i).pc = .pop pc) :
    ∃ l, Advance (some (.worker i)) s l (popAccess s i pc) ∧ s.Labelled i l := by
  have hawake : (s.workers i).pc ≠ .exit .exited := by simp [hpc]
  have hcall : (s.workers i).pc.call? = none := by rw [hpc]; rfl
  have hactive : (s.workers i).pc.isActive = false := by rw [hpc]; rfl
  have howner : (s.workers i).pc.owner = .popping pc := by rw [hpc]; rfl
  have hhand : (s.workers i).pc.hand = pc.won.map (·.2) := by rw [hpc]; rfl
  have hdeque := hi.deque i
  have hlimit := hi.limit_lt hroom hlt
  rw [howner] at hdeque hlimit
  unfold popAccess
  split
  · next d pc' hstep =>
    have hsight := popStep_more_sight hdeque hlimit hstep
    rw [← howner, ← hhand] at hsight
    obtain ⟨l, hmove, hl⟩ := PopSight.move
      (w := { s.workers i with deque := d, pc := .pop pc' }) hlt hpc rfl hsight
    rw [setDeque_setPc]
    exact ⟨l, own_access hi ha hlt hawake hcall.symm (fun j => .inl rfl)
      (popStep_more hdeque hlimit hstep).1 trivial hactive.symm hmove, hl⟩
  · next d x hstep =>
    have hsight := (popStep_done_sight hdeque hlimit hstep).1
    rw [← howner, ← hhand] at hsight
    obtain ⟨l, hmove, hl⟩ := PopSight.move
      (w := { s.workers i with deque := d, pc := .execute x }) hlt hpc rfl hsight
    rw [setDeque_setPc]
    exact ⟨l, own_access hi ha hlt hawake hcall.symm (fun j => .inl rfl)
      (popStep_done hdeque hlimit hstep).1 trivial hactive.symm hmove, hl⟩
  · next d hstep =>
    obtain ⟨hsight, hempty⟩ := popStep_done_sight hdeque hlimit hstep
    obtain ⟨w, hw, hd, origin, hnext⟩ := beginSteal_setDeque s i d
    have hseek : Seeking s.numWorkers i w := seeking_stealNext hnext (hd ▸ hempty rfl)
    rw [← howner, ← hhand] at hsight
    obtain ⟨l, hmove, hl⟩ := PopSight.move (w := w) hlt hpc hseek.extras
      (by rw [hd, hseek.owner, hseek.hand]; exact hsight)
    have hinv : DequeInv w.deque w.pc.owner (s.thieves i) := by
      rw [hd, hseek.owner]
      exact (popStep_done hdeque hlimit hstep).1
    rw [hw]
    exact ⟨l, own_access hi ha hlt hawake (hseek.call.trans hcall.symm) hseek.thief hinv hseek.own
      (hseek.active.trans hactive.symm) hmove, hl⟩

/-! ## Steps of a thief -/

section

variable {v : Nat} {d : Deque (Job α)} {pc : WorkerPC (Job α)}

theorem workers_steal (hne : v ≠ i) :
    ((s.setDeque v d).setPc i pc).workers =
      Function.update (Function.update s.workers v { s.workers v with deque := d }) i
        { s.workers i with pc := pc } := by
  simp [Pool.setPc, Pool.setDeque, Pool.setWorker, Ne.symm hne]

/-- A step of worker `i` at the deque of worker `v`. -/
theorem steal_advance {l : Label} (ha : Accounts s) (hne : v ≠ i)
    (hawake : (s.workers i).pc ≠ .exit .exited) (hcall : pc.call? = (s.workers i).pc.call?)
    (hinv : PoolInv ((s.setDeque v d).setPc i pc))
    (hmove : s.flow.Move s.numWorkers l
      ((s.flow.set v (Worker.holding { s.workers v with deque := d })).set i
        (Worker.holding { s.workers i with pc := pc }))) :
    Advance (some (.worker i)) s l ((s.setDeque v d).setPc i pc) := by
  have hcases : ∀ j, ((s.setDeque v d).setPc i pc).workers j =
      if j = i then { s.workers i with pc := pc }
      else if j = v then { s.workers v with deque := d } else s.workers j := by
    intro j
    rw [workers_steal hne, Function.update_apply, Function.update_apply]
  constructor
  · rfl
  · rfl
  · intro j hj
    left
    rw [hcases]
    split_ifs with hji hjv
    · exact absurd (hji ▸ rfl) hj
    · exact hjv ▸ rfl
    · rfl
  · exact worker_awake hawake
  · exact fun k _ => .inl rfl
  · exact hinv
  · refine ha.same (fun t => ?_) rfl rfl rfl rfl
    cases t with
    | client k => rfl
    | worker j =>
      show (((s.setDeque v d).setPc i pc).workers j).pc.call? = (s.workers j).pc.call?
      rw [hcases]
      split_ifs with hji hjv
      · exact hji ▸ hcall
      · exact hjv ▸ rfl
      · rfl
  · have hflow : ((s.setDeque v d).setPc i pc).flow =
        (s.flow.set v (Worker.holding { s.workers v with deque := d })).set i
          (Worker.holding { s.workers i with pc := pc }) := by
      simp only [Pool.flow, Flow.set, Flow.mk.injEq]
      refine ⟨rfl, rfl, ?_, rfl, rfl⟩
      funext j
      rw [hcases, Function.update_apply, Function.update_apply]
      split_ifs <;> rfl
    rw [hflow]
    exact hmove

end

/-- A worker from whose deque a task was taken. -/
theorem Worker.OwnOk.of_taken {n v : Nat} {w : Worker (Job α)} (h : w.OwnOk n v)
    (hlt : w.deque.top < w.deque.limit w.pc.owner) :
    Worker.OwnOk n v { w with deque := { w.deque with top := w.deque.top + 1 } } := by
  obtain ⟨d, pc, spin, rng⟩ := w
  cases pc with
  | steal origin k pc =>
    obtain ⟨-, hempty⟩ : _ ∧ d.bottom = d.top := h
    have : d.top < d.bottom := hlt
    omega
  | pull =>
    have hempty : d.bottom = d.top := h
    have : d.top < d.bottom := hlt
    omega
  | unload first rest pc =>
    have hfits : d.bottom + rest.length + 2 ≤ d.top + batchSize := h
    show d.bottom + rest.length + 2 ≤ d.top + 1 + batchSize
    omega
  | spill first rest => exact h
  | start | check | pop | pullEmpty | execute | running | submitting | retire | idle |
    park | exit =>
    trivial

theorem stealStep_success {d d' : Deque α} {pc : StealPC α} {x : α}
    (h : stealStep d pc = (d', .done (.success x))) : ∃ t, pc = .cas t x ∧ d.top = t := by
  cases pc with
  | loadTop => simp [stealStep] at h
  | loadBottom t =>
    rw [stealStep] at h
    split at h <;> simp at h
  | read t => simp [stealStep] at h
  | cas t y =>
    rw [stealStep] at h
    split at h
    · next htop =>
      cases h
      exact ⟨t, rfl, htop⟩
    · simp at h

theorem stealAccess_advance (hi : PoolInv s) (ha : Accounts s) (hroom : s.Roomy)
    (hlt : i < s.numWorkers) {origin k : Nat} {pc : StealPC (Job α)}
    (hpc : (s.workers i).pc = .steal origin k pc) :
    ∃ l, Advance (some (.worker i)) s l (stealAccess s i origin k pc) ∧
      s.Labelled i l := by
  have hawake : (s.workers i).pc ≠ .exit .exited := by simp [hpc]
  have hcall : (s.workers i).pc.call? = none := by rw [hpc]; rfl
  have hidle : (s.workers i).pc.owner = .idle ∧ (s.workers i).pc.isActive = false := by
    rw [hpc]
    exact ⟨rfl, rfl⟩
  have hown := hi.own i
  unfold Worker.OwnOk at hown
  rw [hpc] at hown
  obtain ⟨hne, hempty⟩ := hown
  generalize hv : (origin + k) % s.numWorkers = v at hne
  have hvlt : v < s.numWorkers := hv ▸ Nat.mod_lt _ hi.pos
  have hthief : s.thieves v i = some pc := by
    unfold Pool.thieves
    rw [hpc, WorkerPC.thief, if_pos hv]
  have hdeque := hi.deque v
  have hlimit := hi.limit_lt hroom hvlt
  have hsame : s.flow.set v (Worker.holding { s.workers v with deque := (s.workers v).deque }) =
      s.flow := flow_set_self s.flow v
  unfold stealAccess
  rw [hv]
  split
  · next d pc' hstep =>
    -- the theft goes on: only the thief's own place in the deque changes
    obtain ⟨hinv, rfl⟩ := stealStep_more hdeque hthief hlimit hstep
    refine ⟨.inside, steal_advance ha hne hawake hcall.symm ?_ ?_, trivial⟩
    · refine hi.steal_step hne hidle ⟨rfl, rfl⟩ (fun j => ?_) hinv (hi.own v) ⟨hv ▸ hne, hempty⟩
      rw [WorkerPC.thief]
      split_ifs with hj
      · exact .inr (.inr ⟨hj.symm.trans hv, rfl⟩)
      · exact .inl rfl
    · rw [hsame]
      refine .of_holding ?_
      simp only [Worker.holding, hpc]
      rfl
  · next d x hstep =>
    obtain ⟨hinv, ⟨-, hfail⟩ | ⟨y, hy, rfl, hcells⟩⟩ := stealStep_done hdeque hthief hlimit hstep
    · exact absurd rfl (hfail x)
    -- the theft took `x`, which goes from the victim's deque into the thief's hand
    cases hy
    obtain ⟨t, rfl, htop⟩ := stealStep_success hstep
    have hnonempty : (s.workers v).deque.top <
      (s.workers v).deque.limit (s.workers v).pc.owner := by
      by_contra hge
      rw [Deque.cells, ring_eq_nil (Nat.le_of_not_lt hge)] at hcells
      cases hcells
    refine ⟨.dequeue, steal_advance ha hne hawake hcall.symm ?_ ?_, ?_⟩
    · exact hi.steal_step hne hidle ⟨rfl, rfl⟩ (fun j => .inl rfl) hinv
        ((hi.own v).of_taken hnonempty) trivial
    · have hhand : (s.flow.workers i).hand = [] := by
        show (s.workers i).pc.hand = []
        rw [hpc]
        rfl
      have hmove := Flow.Move.steal s.flow i v x _ _ hlt hvlt (Ne.symm hne)
        (stealStep_sight rfl hcells) hhand
      have hthief' : Worker.holding { s.workers i with pc := .execute x } =
          { s.flow.workers i with hand := [x] } := by
        simp only [Worker.holding, Pool.flow, hpc]
        rfl
      rw [hthief']
      exact hmove
    · show s.takes i
      unfold Pool.takes
      rw [hpc]
      show (s.workers ((origin + k) % s.numWorkers)).deque.top = t
      rw [hv]
      exact htop
  · next d r hr hstep =>
    obtain ⟨hinv, ⟨rfl, -⟩ | ⟨y, rfl, -⟩⟩ := stealStep_done hdeque hthief hlimit hstep
    · -- nothing was taken, the deque was empty or the exchange lost: the next victim,
      -- or the end of the round
      have hseek : Seeking s.numWorkers i
          { s.workers i with pc := stealNext s.numWorkers i origin (k + 1) } :=
        seeking_stealNext rfl hempty
      refine ⟨.inside, steal_advance ha hne hawake (hseek.call.trans hcall.symm) ?_ ?_, trivial⟩
      · refine hi.steal_step hne hidle ⟨hseek.owner, hseek.active⟩ (fun j => ?_) hinv (hi.own v)
          hseek.own
        rcases hseek.thief j with hj | hj
        · exact .inl hj
        · exact .inr (.inl hj)
      · rw [hsame]
        refine .of_holding ?_
        simp only [Worker.holding, hseek.owner, hseek.extras, hseek.hand, hpc]
        rfl
    · exact absurd rfl (hr y)

/-! ## Pulling a batch -/

/-- A worker that has a task to execute and the rest of a batch to unload. -/
structure Carrying (n i : Nat) (first : Job α) (rest : List (Job α)) (w : Worker (Job α)) :
    Prop where
  call : w.pc.call? = none
  claimed : w.deque.claimed w.pc.owner = []
  extras : w.pc.extras = rest
  hand : w.pc.hand = [first]
  active : w.pc.isActive = false
  own : w.OwnOk n i
  thief : ∀ j, w.pc.thief n j = none
  deque : ∀ {T : Type} {th : T → Option (StealPC (Job α))}, DequeInv w.deque .idle th →
    DequeInv w.deque w.pc.owner th

theorem carrying_unloadNext {n : Nat} {first : Job α} {rest : List (Job α)} {w : Worker (Job α)}
    (hpc : w.pc = unloadNext first rest)
    (hfits : w.deque.bottom + rest.length + 1 ≤ w.deque.top + batchSize) :
    Carrying n i first rest w := by
  obtain ⟨d, pc, spin, rng⟩ := w
  dsimp only at hpc hfits
  subst hpc
  cases rest with
  | nil => exact ⟨rfl, claimed_eq_nil rfl, rfl, rfl, rfl, trivial, fun _ => rfl, fun h => h⟩
  | cons y rest =>
    refine ⟨rfl, claimed_eq_nil rfl, rfl, rfl, rfl, ?_, fun _ => rfl,
      fun h => h.begin rfl rfl trivial⟩
    show d.bottom + rest.length + 2 ≤ d.top + batchSize
    rw [List.length_cons] at hfits
    omega

theorem pullAccess_advance (hi : PoolInv s) (ha : Accounts s) (hlt : i < s.numWorkers)
    (hpc : (s.workers i).pc = .pull) :
    ∃ l, Advance (some (.worker i)) s l (pullAccess s i) ∧ s.Labelled i l := by
  have hawake : (s.workers i).pc ≠ .exit .exited := by simp [hpc]
  have hcall : (s.workers i).pc.call? = none := by rw [hpc]; rfl
  have hactive : (s.workers i).pc.isActive = false := by rw [hpc]; rfl
  have hempty : (s.workers i).deque.bottom = (s.workers i).deque.top := by
    have hown := hi.own i
    unfold Worker.OwnOk at hown
    rw [hpc] at hown
    exact hown
  have hdeque := hi.deque i
  rw [hpc] at hdeque
  unfold pullAccess
  split
  · refine ⟨.inside, own_access hi ha hlt hawake hcall.symm (fun j => .inl rfl) hdeque trivial
      hactive.symm (.of_holding ?_), trivial⟩
    simp only [Worker.holding, hpc]
    rfl
  · next hne =>
    have hcontent := content_pullBatch batchSize hi.gq
    have hlength := length_batch (q := s.gq) batchSize
    split
    · next hnil =>
      -- the queue is not empty
      rw [hnil, List.length_nil] at hlength
      have hpos : 0 < s.gq.content.length :=
        List.length_pos_iff.mpr fun hc => hne (hi.gq.content_eq_nil.mp hc)
      have hbatch : batchSize = 64 := rfl
      omega
    · next x rest hbatch =>
      rw [hbatch] at hcontent hlength
      have hmin : (x :: rest).length ≤ batchSize := hlength ▸ Nat.min_le_right _ _
      have hcarry : Carrying s.numWorkers i x rest
          { s.workers i with pc := unloadNext x rest } := by
        refine carrying_unloadNext rfl ?_
        show (s.workers i).deque.bottom + rest.length + 1 ≤ (s.workers i).deque.top + batchSize
        rw [List.length_cons] at hmin
        omega
      have hframe : Frame (some (.worker i)) s { s with gq := s.gq.pullBatch batchSize } :=
        .of_eq rfl rfl rfl rfl (worker_awake hawake)
      refine ⟨.dequeue, (hframe.setWorker _).own hi hlt (workers_setWorker _)
        (hi.gq.pullBatch batchSize) (fun j => .inl (hcarry.thief j)) (hcarry.deque hdeque)
        hcarry.own ?_ ?_ ?_, ?_⟩
      · rw [hcarry.active, hactive]
        rfl
      · refine ha.same ((hframe.setWorker _).calls ?_) rfl rfl rfl rfl
        rw [workers_setWorker, hcall]
        exact hcarry.call
      · have hextras : (s.flow.workers i).extras = [] := by
          show (s.workers i).pc.extras = []
          rw [hpc]
          rfl
        have hhand : (s.flow.workers i).hand = [] := by
          show (s.workers i).pc.hand = []
          rw [hpc]
          rfl
        have hmove := Flow.Move.pull s.flow i x rest _ hlt hcontent hextras hhand
        have hholding : Worker.holding { s.workers i with pc := unloadNext x rest } =
            { s.flow.workers i with extras := rest, hand := [x] } := by
          have hclaimed : (s.workers i).deque.claimed (s.workers i).pc.owner = [] := by
            rw [hpc]
            exact claimed_eq_nil rfl
          simp only [Worker.holding, Pool.flow, hcarry.claimed, hcarry.extras,
            hcarry.hand, hclaimed]
        have htail : (s.gq.pullBatch batchSize).tail =
            (s.gq.tail + (x :: rest).length) % globalQSize := by
          rw [tail_pullBatch, hlength, GlobalQueue.length_content]
        rw [hholding]
        show s.flow.Move s.numWorkers .dequeue
          { s.flow.set i { s.flow.workers i with extras := rest, hand := [x] } with
            tail := (s.gq.pullBatch batchSize).tail
            queue := (s.gq.pullBatch batchSize).content }
        rw [htail]
        exact hmove
      · show s.takes i
        unfold Pool.takes
        rw [hpc]
        exact hne

theorem unloadAccess_advance (hi : PoolInv s) (ha : Accounts s) (hroom : s.Roomy)
    (hlt : i < s.numWorkers) {first : Job α} {rest : List (Job α)} {pc : PushPC (Job α)}
    (hpc : (s.workers i).pc = .unload first rest pc) :
    Advance (some (.worker i)) s .inside (unloadAccess s i first rest pc) := by
  have hawake : (s.workers i).pc ≠ .exit .exited := by simp [hpc]
  have hcall : (s.workers i).pc.call? = none := by rw [hpc]; rfl
  have hactive : (s.workers i).pc.isActive = false := by rw [hpc]; rfl
  have hfits : (s.workers i).deque.bottom + rest.length + 2 ≤
      (s.workers i).deque.top + batchSize := by
    have hown := hi.own i
    unfold Worker.OwnOk at hown
    rw [hpc] at hown
    exact hown
  have hdeque := hi.deque i
  rw [hpc] at hdeque
  have hbottom : (s.workers i).deque.bottom < 2 ^ 63 := Nat.lt_of_succ_lt (hroom i hlt)
  have hclaimed : (s.workers i).deque.claimed (s.workers i).pc.owner = [] := by
    rw [hpc]
    exact claimed_eq_nil rfl
  unfold unloadAccess
  split
  · next d pc' hstep =>
    obtain ⟨hinv, -, htask, hb, ht⟩ := pushStep_more hdeque hbottom hstep
    rw [setDeque_setPc]
    refine own_access hi ha hlt hawake hcall.symm (fun j => .inl rfl) hinv ?_ hactive.symm
      (.of_holding ?_)
    · show d.bottom + rest.length + 2 ≤ d.top + batchSize
      omega
    · simp only [Worker.holding, visible_pushStep_more hdeque hbottom hstep, ht, hclaimed]
      rw [claimed_eq_nil rfl, hpc]
      simp only [WorkerPC.extras, WorkerPC.hand, htask]
  · next d hstep =>
    obtain ⟨hinv, ht, hok, -⟩ := pushStep_done hdeque hbottom hstep
    have hcarry : Carrying s.numWorkers i first rest
        { s.workers i with deque := d, pc := unloadNext first rest } := by
      refine carrying_unloadNext rfl ?_
      show d.bottom + rest.length + 1 ≤ d.top + batchSize
      have hb := (hok rfl).2
      omega
    rw [setDeque_setPc]
    refine own_access hi ha hlt hawake (hcarry.call.trans hcall.symm)
      (fun j => .inl (hcarry.thief j)) (hcarry.deque hinv) hcarry.own
      (hcarry.active.trans hactive.symm) ?_
    have hextras : (s.flow.workers i).extras = pc.task :: rest := by
      show (s.workers i).pc.extras = _
      rw [hpc]
      rfl
    have hmove := Flow.Move.unload s.flow i pc.task rest hlt hextras
    have hhand : (s.workers i).pc.hand = [first] := by rw [hpc]; rfl
    have hholding : Worker.holding { s.workers i with deque := d, pc := unloadNext first rest } =
        { s.flow.workers i with
          visible := (s.flow.workers i).visible ++ [pc.task], extras := rest } := by
      simp only [Worker.holding, Pool.flow, visible_pushStep_done hdeque hbottom hstep, ht,
        hcarry.claimed, hcarry.extras, hcarry.hand, hclaimed, hhand]
    rw [hholding]
    exact hmove
  · next d hstep =>
    -- a batch fits into an empty deque
    obtain ⟨-, hfull⟩ := (pushStep_done hdeque hbottom hstep).2.2.2 rfl
    have hbatch : batchSize = 64 := rfl
    have hsize : dequeSize = 4096 := rfl
    omega

/-! ## Executing a task -/

theorem executeStep_advance (hi : PoolInv s) (ha : Accounts s) (hlt : i < s.numWorkers)
    {task : Job α} (hpc : (s.workers i).pc = .execute task) :
    Advance (some (.worker i)) s .inside (executeStep s i task) := by
  have hawake : (s.workers i).pc ≠ .exit .exited := by simp [hpc]
  have hdeque := hi.deque i
  rw [hpc] at hdeque
  have hframe : Frame (some (.worker i)) s { s with numActive := s.numActive + 1 } :=
    .of_eq rfl rfl rfl rfl (worker_awake hawake)
  refine (hframe.setWorker _).own hi hlt (workers_setWorker _) hi.gq (fun j => .inl rfl) hdeque
    trivial ?_ ?_ ?_
  · rw [hpc]
    rfl
  · refine ha.same ((hframe.setWorker _).calls ?_) rfl rfl rfl rfl
    rw [workers_setWorker, hpc]
    rfl
  · refine .of_holding ?_
    simp only [Worker.holding, hpc]
    rfl

theorem retireStep_advance (hi : PoolInv s) (ha : Accounts s) (hlt : i < s.numWorkers)
    (hpc : (s.workers i).pc = .retire) :
    Advance (some (.worker i)) s .inside (retireStep s i) := by
  have hawake : (s.workers i).pc ≠ .exit .exited := by simp [hpc]
  have hdeque := hi.deque i
  rw [hpc] at hdeque
  -- the worker itself is counted
  have hpos : 0 < s.numActive := by
    rw [hi.active]
    exact slotCount_pos hlt (by rw [hpc]; rfl)
  have hframe : Frame (some (.worker i)) s { s with numActive := s.numActive - 1 } :=
    .of_eq rfl rfl rfl rfl (worker_awake hawake)
  have hcheck : ∀ {pc : WorkerPC (Job α)}, pc.core = .check →
      Advance (some (.worker i)) s .inside
        ({ s with numActive := s.numActive - 1 }.setPc i pc) := by
    intro pc hcore
    have howner : pc.owner = .idle := by rw [← owner_core, hcore]; rfl
    have hidle : pc.isActive = false := by rw [← isActive_core, hcore]; rfl
    have hthief : ∀ j, pc.thief s.numWorkers j = none := fun j => by
      rw [← thief_core, hcore]
      rfl
    have hown : Worker.OwnOk s.numWorkers i { s.workers i with pc := pc } :=
      ownOk_core (w := { s.workers i with pc := .check }) rfl hcore trivial
    refine (hframe.setWorker _).own hi hlt (workers_setWorker _) hi.gq (fun j => .inl (hthief j))
      (howner.symm ▸ hdeque) hown ?_ ?_ ?_
    · rw [hpc, hidle]
      show s.numActive - 1 + 1 = s.numActive + 0
      omega
    · refine ha.same ((hframe.setWorker _).calls ?_) rfl rfl rfl rfl
      rw [workers_setWorker, hpc, ← call_core, hcore]
      rfl
    · refine .of_holding ?_
      simp only [Worker.holding, howner, hpc]
      rw [← extras_core, ← hand_core, hcore]
      rfl
  unfold retireStep
  split
  · exact hcheck rfl
  · exact hcheck rfl

theorem finish_advance (hi : PoolInv s) (ha : Accounts s) (hlt : i < s.numWorkers)
    {task : Job α} (hpc : (s.workers i).pc = .running task) :
    Advance (some (.worker i)) s .inside
      ({ s with finished := s.finished ++ [task] }.setPc i .retire) := by
  have hawake : (s.workers i).pc ≠ .exit .exited := by simp [hpc]
  have hdeque := hi.deque i
  rw [hpc] at hdeque
  have hframe : Frame (some (.worker i)) s { s with finished := s.finished ++ [task] } :=
    .of_eq rfl rfl rfl rfl (worker_awake hawake)
  refine (hframe.setWorker _).own hi hlt (workers_setWorker _) hi.gq (fun j => .inl rfl) hdeque
    trivial ?_ ?_ ?_
  · rw [hpc]
    rfl
  · refine ha.same ((hframe.setWorker _).calls ?_) rfl rfl rfl rfl
    rw [workers_setWorker, hpc]
    rfl
  · have hhand : (s.flow.workers i).hand = [task] := by
      show (s.workers i).pc.hand = _
      rw [hpc]
      rfl
    have hmove := Flow.Move.finish s.flow i task hlt hhand
    have hholding : Worker.holding { s.workers i with pc := .retire } =
        { s.flow.workers i with hand := [] } := by
      simp only [Worker.holding, Pool.flow, hpc]
      rfl
    rw [hholding]
    exact hmove

end Solidc.Threadpool
