import Solidc.Threadpool.Locks

/-! # No wake-up is lost

A worker that finds no task raises `num_parked`, takes `park_lock`, looks at every queue once
more and only then sleeps; a thread that has put a task into a queue reads `num_parked` and,
unless it is zero, signals under `park_lock`. The worker that falls asleep last has seen all
queues empty since every other worker fell asleep, and whoever puts a task in after its scan
has passed finds `num_parked` raised.

* `Pool.Stranded` — all workers sleep, there is a task, and nobody is about to say so;
* `Pool.Attended` — what the last worker awake has seen empty is still empty, or a client is
  about to signal;
* `not_stranded` — so no run strands a task.
-/

namespace Solidc.Threadpool

open CLib

variable {K α : Type*} {s s' s₁ : Pool K α} {i j : Nat}

/-! ## Stranded tasks -/

/-- The test of the scans, `(ptrdiff_t)(b - t) > 0`. -/
def Deque.hasWork (d : Deque α) : Bool := isPositive (sizeSub d.bottom d.top)

/-- The global queue or a deque has a task. -/
def Pool.HasWork (s : Pool K α) : Prop :=
  s.gq.head ≠ s.gq.tail ∨ ∃ i < s.numWorkers, (s.workers i).deque.hasWork = true

/-- Between its first push and the end of its `unpark_one`. -/
def Call.isAnnouncing : Call α → Bool
  | .unpark .. => true
  | .pushEach pushed .. | .queueEach pushed _ => !pushed.isEmpty
  | .push _ | .queue _ => false

/-- Every worker sleeps although there is a task, and nobody is going to wake one up. -/
structure Pool.Stranded (s : Pool K α) : Prop where
  asleep : ∀ i < s.numWorkers, (s.workers i).pc = .park .asleep
  silent : ∀ t call, s.call? t = some call → call.isAnnouncing = false
  running : s.shutdown = false
  work : s.HasWork

/-! ## The last worker awake -/

/-- A call that has put a task in and has not yet decided whether to signal, or will. -/
def Call.willSignal : Call α → Bool
  | .queueEach pushed _ => !pushed.isEmpty
  | .unpark _ .load | .unpark _ .lock | .unpark _ .signal => true
  | _ => false

def ClientPC.willSignal : ClientPC α → Bool
  | .submitting call => call.willSignal
  | _ => false

def Pool.WillSignal (s : Pool K α) : Prop :=
  ∃ k, (s.clients k).willSignal = true

/-- What a scan has passed is empty. -/
def Pool.Cleared (s : Pool K α) : ScanPC → Prop
  | .head => True
  | .tail h => h = s.gq.head
  | .bottom i => s.gq.head = s.gq.tail ∧ ∀ j < i, (s.workers j).deque.hasWork = false
  | .top i b => s.gq.head = s.gq.tail ∧ (∀ j < i, (s.workers j).deque.hasWork = false) ∧
      b = (s.workers i).deque.bottom

/-- What a worker that parks has seen empty. -/
def Pool.Rechecked (s : Pool K α) : ParkPC → Prop
  | .scan pc => s.Cleared pc
  | .shutdown | .wait | .asleep => ¬ s.HasWork
  | .raise | .lock | .relock | .unlock | .lower => True

/-- If all other workers sleep, then what a worker that parks has seen empty is empty, or a
client is about to signal. -/
def Pool.Attended (s : Pool K α) : Prop :=
  ∀ i < s.numWorkers, (∀ j < s.numWorkers, j ≠ i → (s.workers j).pc = .park .asleep) →
    ∀ pc, (s.workers i).pc = .park pc → s.Rechecked pc ∨ s.WillSignal

/-- The queues are as they were. -/
structure SameQueues (s s' : Pool K α) : Prop where
  numWorkers : s'.numWorkers = s.numWorkers
  gq : s'.gq = s.gq
  deques : ∀ j, (s'.workers j).deque = (s.workers j).deque

theorem SameQueues.hasWork (h : SameQueues s s') : s'.HasWork ↔ s.HasWork := by
  unfold Pool.HasWork
  simp only [h.numWorkers, h.gq, h.deques]

theorem SameQueues.cleared (h : SameQueues s s') (pc : ScanPC) : s'.Cleared pc ↔ s.Cleared pc := by
  cases pc <;> simp only [Pool.Cleared, h.gq, h.deques]

theorem SameQueues.rechecked (h : SameQueues s s') (pc : ParkPC) :
    s'.Rechecked pc ↔ s.Rechecked pc := by
  cases pc <;> simp only [Pool.Rechecked, h.hasWork, h.cleared]

theorem SameQueues.setPc (h : SameQueues s s₁) (pc : WorkerPC (Job α)) :
    SameQueues s (s₁.setPc i pc) := by
  refine ⟨h.numWorkers, h.gq, fun j => ?_⟩
  by_cases hj : j = i
  · subst hj
    rw [Pool.setPc, workers_setWorker]
    exact h.deques j
  · rw [Pool.setPc, workers_setWorker_ne _ hj]
    exact h.deques j

/-- What a load of the scan shows. -/
def Pool.Clears (s : Pool K α) : Outcome ScanPC Bool → Prop
  | .more pc => s.Cleared pc
  | .done anyWork => anyWork = false → ¬ s.HasWork

theorem scanNext_clears (hqueue : s.gq.head = s.gq.tail)
    (hdeques : ∀ j < i, (s.workers j).deque.hasWork = false) : s.Clears (scanNext s i) := by
  unfold scanNext
  split_ifs with hi
  · exact ⟨hqueue, hdeques⟩
  · intro _ hwork
    rcases hwork with hne | ⟨j, hj, hwork⟩
    · exact hne hqueue
    · rw [hdeques j (by omega)] at hwork
      cases hwork

/-- One load of the scan. -/
theorem scanStep_clears {pc : ScanPC} (h : s.Cleared pc) : s.Clears (scanStep s pc) := by
  cases pc with
  | head => rfl
  | tail h' =>
    rw [scanStep]
    split_ifs with heq
    · refine scanNext_clears ?_ nofun
      rw [← heq]
      exact h.symm
    · exact nofun
  | bottom i => exact ⟨h.1, h.2, rfl⟩
  | top i b =>
    obtain ⟨hqueue, hdeques, rfl⟩ := h
    rw [scanStep]
    split_ifs with hpos
    · exact nofun
    · -- `top` is loaded last, and nobody but thieves moves it: the deque seen empty is empty
      refine scanNext_clears hqueue fun j hj => ?_
      rcases Nat.lt_succ_iff_lt_or_eq.mp hj with hj | rfl
      · exact hdeques j hj
      · exact Bool.eq_false_of_not_eq_true hpos

/-! ## Steps of a worker -/

/-- A worker at one of these program points has been there before it could be woken up. -/
theorem park_of_woken {p p' : WorkerPC α} {pc : ParkPC} (h : p' = p ∨ p' = p.wake)
    (hpc : p' = .park pc) (hne : pc ≠ .relock) : p = .park pc := by
  rcases h with rfl | rfl
  · exact hpc
  · cases p with
    | park pc₀ =>
      cases pc₀ with
      | asleep =>
        cases hpc
        exact absurd rfl hne
      | _ => exact hpc
    | _ => cases hpc

/-! The parts of a step that leave `num_parked` alone. -/

section numParked

theorem numParked_startStep (pc : StartPC) : (startStep s i pc).numParked = s.numParked := by
  cases pc with
  | arrive | enlist => rfl
  | barrier =>
    rw [startStep]
    split <;> rfl

theorem numParked_popAccess (pc : PopPC (Job α)) : (popAccess s i pc).numParked = s.numParked := by
  unfold popAccess
  split <;> rfl

theorem numParked_stealAccess (start k : Nat) (pc : StealPC (Job α)) :
    (stealAccess s i start k pc).numParked = s.numParked := by
  unfold stealAccess
  split <;> rfl

theorem numParked_spinOrPark : (spinOrPark s i).numParked = s.numParked := by
  unfold spinOrPark
  split <;> rfl

theorem numParked_pullAccess : (pullAccess s i).numParked = s.numParked := by
  unfold pullAccess
  split
  · rfl
  · split
    · exact numParked_spinOrPark
    · rfl

theorem numParked_unloadAccess (first : Job α) (rest : List (Job α)) (pc : PushPC (Job α)) :
    (unloadAccess s i first rest pc).numParked = s.numParked := by
  unfold unloadAccess
  split <;> rfl

theorem numParked_spillAccess (first : Job α) (rest : List (Job α)) :
    (spillAccess s i first rest).numParked = s.numParked := by
  cases rest with
  | nil => rfl
  | cons x rest =>
    rw [spillAccess]
    split
    · split <;> rfl
    · rfl

theorem numParked_acquireIdle {t : Thread K} (h : acquireIdle s t = some s') :
    s'.numParked = s.numParked := by
  obtain ⟨-, rfl⟩ := acquireIdle_spec h
  rfl

theorem numParked_idleStep {pc : IdlePC} (h : idleStep s i pc = some s') :
    s'.numParked = s.numParked := by
  cases pc with
  | scan pc =>
    rw [idleStep] at h
    split at h <;> cases h <;> rfl
  | lock =>
    obtain ⟨s₁, hlock, rfl⟩ := Option.map_eq_some_iff.mp h
    exact (numParked_acquireIdle hlock : s₁.numParked = s.numParked)
  | load | broadcast | unlock =>
    cases h
    rfl

theorem numParked_exitStep {pc : ExitPC} (h : exitStep s i pc = some s') :
    s'.numParked = s.numParked := by
  cases pc with
  | lock =>
    obtain ⟨s₁, hlock, rfl⟩ := Option.map_eq_some_iff.mp h
    exact (numParked_acquireIdle hlock : s₁.numParked = s.numParked)
  | leave | broadcast | unlock =>
    cases h
    rfl
  | exited => cases h

end numParked

/-- Only `worker_park` changes `num_parked`. -/
theorem workerStep_numParked {woken : Nat} (hpc : ∀ pc, (s.workers i).pc ≠ .park pc)
    (h : workerStep s i woken = some s') : s'.numParked = s.numParked := by
  unfold workerStep at h
  split at h
  · cases h
    exact numParked_startStep _
  · cases h
    rfl
  · cases h
    exact numParked_popAccess _
  · cases h
    exact numParked_stealAccess _ _ _
  · cases h
    exact numParked_pullAccess
  · cases h
    exact numParked_spinOrPark
  · cases h
    exact numParked_unloadAccess _ _ _
  · cases h
    exact numParked_spillAccess _ _
  · cases h
    rfl
  · cases h
  · obtain ⟨⟨s₁, o⟩, hstep, rfl⟩ := Option.map_eq_some_iff.mp h
    have hparked := (workerCallStep_errand hstep).parked
    cases o with
    | more call' => exact hparked
    | done accepted => exact hparked
  · cases h
    rfl
  · exact numParked_idleStep h
  · next pc hpark => exact absurd hpark (hpc pc)
  · exact numParked_exitStep h

/-- A worker comes to the inside of `worker_park` only step by step. -/
theorem workerStep_park {woken : Nat} {pc' : ParkPC} (h : workerStep s i woken = some s')
    (hpc' : (s'.workers i).pc = .park pc') (hne : pc' ≠ .raise) :
    ∃ pc, (s.workers i).pc = .park pc ∧ parkStep s i pc = some s' := by
  by_cases hpark : ∃ pc, (s.workers i).pc = .park pc
  · obtain ⟨pc, hpc⟩ := hpark
    refine ⟨pc, hpc, ?_⟩
    rw [workerStep, hpc] at h
    exact h
  · -- otherwise the worker would have been counted without a change of the counter
    have hnumParked := workerStep_numParked (fun pc hpc => hpark ⟨pc, hpc⟩) h
    have hparked := (workerStep_turn h).parked
    have hbefore : s.isParked (.worker i) = false := by
      rw [Pool.isParked]
      cases hp : (s.workers i).pc with
      | park pc => exact absurd ⟨pc, hp⟩ hpark
      | _ => rfl
    have hafter : s'.isParked (.worker i) = true := by
      rw [Pool.isParked, hpc']
      cases pc' with
      | raise => exact absurd rfl hne
      | _ => rfl
    rw [hbefore, hafter, hnumParked] at hparked
    exact absurd hparked (by simp)

theorem SameQueues.refl : SameQueues s s :=
  ⟨rfl, rfl, fun _ => rfl⟩

theorem SameQueues.acquirePark {t : Thread K} (h : acquirePark s t = some s') :
    SameQueues s s' := by
  obtain ⟨-, rfl⟩ := acquirePark_spec h
  exact ⟨rfl, rfl, fun _ => rfl⟩

/-- `worker_park` moves no task and no client. -/
theorem parkStep_same {pc : ParkPC} (h : parkStep s i pc = some s') :
    SameQueues s s' ∧ s'.clients = s.clients := by
  cases pc with
  | raise | wait | unlock | lower =>
    cases h
    exact ⟨.setPc (by exact ⟨rfl, rfl, fun _ => rfl⟩) _, rfl⟩
  | lock | relock =>
    obtain ⟨s₁, hlock, rfl⟩ := Option.map_eq_some_iff.mp h
    obtain ⟨-, rfl⟩ := acquirePark_spec hlock
    exact ⟨.setPc (by exact ⟨rfl, rfl, fun _ => rfl⟩) _, rfl⟩
  | scan pc =>
    rw [parkStep] at h
    split at h <;> cases h <;> exact ⟨.setPc .refl _, rfl⟩
  | shutdown =>
    cases h
    exact ⟨.setPc .refl _, rfl⟩
  | asleep => cases h

/-- What a step of `worker_park` preserves: the worker goes on only past queues that it has
seen empty. -/
theorem parkStep_rechecked {pc pc' : ParkPC} (hr : s.Rechecked pc) (h : parkStep s i pc = some s')
    (hpc' : (s'.workers i).pc = .park pc') : s.Rechecked pc' := by
  have hgo : ∀ {s₁ : Pool K α} {pc₁ : WorkerPC (Job α)}, s' = s₁.setPc i pc₁ →
      pc₁ = .park pc' := by
    rintro s₁ pc₁ rfl
    rw [Pool.setPc, workers_setWorker] at hpc'
    exact hpc'
  cases pc with
  | raise | wait | unlock =>
    cases h
    cases hgo rfl
    exact hr
  | lower =>
    cases h
    cases hgo rfl
  | lock | relock =>
    obtain ⟨s₁, -, rfl⟩ := Option.map_eq_some_iff.mp h
    cases hgo rfl
    trivial
  | scan pc =>
    -- the scan is what makes the worker know more than before
    have hclears := scanStep_clears (s := s) hr
    rw [parkStep] at h
    split at h
    · next pc₁ hscan =>
      cases h
      cases hgo rfl
      rw [hscan] at hclears
      exact hclears
    · cases h
      cases hgo rfl
      trivial
    · next hscan =>
      cases h
      cases hgo rfl
      rw [hscan] at hclears
      exact hclears rfl
  | shutdown =>
    cases h
    have hnext := hgo rfl
    split at hnext <;> cases hnext
    · trivial
    · exact hr
  | asleep => cases h

/-- A worker falls asleep in `cond_wait` and nowhere else. -/
theorem parkStep_asleep {pc : ParkPC} (h : parkStep s i pc = some s')
    (hpc' : (s'.workers i).pc = .park .asleep) : pc = .wait := by
  have hgo : ∀ {s₁ : Pool K α} {pc₁ : WorkerPC (Job α)}, s' = s₁.setPc i pc₁ →
      pc₁ = .park .asleep := by
    rintro s₁ pc₁ rfl
    rw [Pool.setPc, workers_setWorker] at hpc'
    exact hpc'
  cases pc with
  | wait => rfl
  | raise | unlock | lower =>
    cases h
    cases hgo rfl
  | lock | relock =>
    obtain ⟨s₁, -, rfl⟩ := Option.map_eq_some_iff.mp h
    cases hgo rfl
  | scan pc =>
    rw [parkStep] at h
    split at h <;> cases h <;> cases hgo rfl
  | shutdown =>
    cases h
    have hnext := hgo rfl
    split at hnext <;> cases hnext
  | asleep => cases h

/-! ## Steps of a client -/

def Outcome.willSignal : Outcome (Call α) (List α) → Bool
  | .more call => call.willSignal
  | .done _ => false

theorem afterBatch_willSignal {pushed : List α} (h : pushed ≠ []) :
    (afterBatch pushed).willSignal = true := by
  cases pushed with
  | nil => exact absurd rfl h
  | cons x pushed => rfl

theorem queueNext_willSignal {pushed : List α} (rest : List α) (h : pushed ≠ []) :
    (queueNext pushed rest).willSignal = true := by
  cases rest with
  | nil => exact afterBatch_willSignal h
  | cons x rest =>
    cases pushed with
    | nil => exact absurd rfl h
    | cons y pushed => rfl

/-- After a step of a submit call that signals later or has changed nothing, or that decides
not to signal, or that signals. -/
theorem sharedCallStep_signals {t : Thread K} {woken : Nat} {call : Call (Job α)}
    {o : Outcome (Call (Job α)) (List (Job α))} (hgq : s.gq.Valid)
    (h : sharedCallStep s t woken call = some (s', o)) :
    o.willSignal = true ∨ (call.willSignal = false ∧ SameQueues s s') ∨
      (∃ accepted, call = .unpark accepted .load ∧ s.numParked = 0) ∨
      ∃ accepted, call = .unpark accepted .signal ∧ signalWork s woken = some s' := by
  cases call with
  | push pc => cases h
  | pushEach pushed rest alloc pc => cases h
  | queue x =>
    rw [sharedCallStep] at h
    split at h
    · split at h <;> cases h <;> exact .inr (.inl ⟨rfl, .refl⟩)
    · cases h
      exact .inl rfl
  | queueEach pushed rest =>
    rw [sharedCallStep] at h
    split at h
    · split at h <;> cases h
      · cases pushed with
        | nil => exact .inr (.inl ⟨rfl, .refl⟩)
        | cons x pushed => exact .inl rfl
      · cases pushed with
        | nil => exact .inr (.inl ⟨rfl, .refl⟩)
        | cons x pushed => exact .inl rfl
    · cases h
      by_cases hnone : pushed ++ rest.take (s.gq.chunk rest.length) = []
      · -- an empty chunk is written nowhere
        obtain ⟨rfl, hchunk⟩ := List.append_eq_nil_iff.mp hnone
        refine .inr (.inl ⟨rfl, rfl, ?_, fun _ => rfl⟩)
        show s.gq.pushChunk (rest.take (s.gq.chunk rest.length)) = s.gq
        rw [hchunk]
        exact pushChunk_nil hgq
      · exact .inl (queueNext_willSignal _ hnone)
  | unpark accepted pc =>
    cases pc with
    | load =>
      rw [sharedCallStep] at h
      split at h
      · cases h
        exact .inl rfl
      · next hzero => exact .inr (.inr (.inl ⟨accepted, rfl, Nat.eq_zero_of_not_pos hzero⟩))
    | lock =>
      obtain ⟨s₁, -, heq⟩ := Option.map_eq_some_iff.mp h
      cases heq
      exact .inl rfl
    | signal =>
      obtain ⟨s₁, hsignal, heq⟩ := Option.map_eq_some_iff.mp h
      cases heq
      exact .inr (.inr (.inr ⟨accepted, rfl, hsignal⟩))
    | unlock =>
      cases h
      exact .inr (.inl ⟨rfl, rfl, rfl, fun _ => rfl⟩)

section

variable [DecidableEq K] {k : K}

theorem SameQueues.setClient (h : SameQueues s s₁) (pc : ClientPC (Job α)) :
    SameQueues s (s₁.setClient k pc) :=
  ⟨h.numWorkers, h.gq, h.deques⟩

theorem waitStep_same {pc : WaitPC} (h : waitStep s k pc = some s') : SameQueues s s' := by
  cases pc with
  | lock | relock =>
    obtain ⟨s₁, hlock, rfl⟩ := Option.map_eq_some_iff.mp h
    obtain ⟨-, rfl⟩ := acquireIdle_spec hlock
    exact ⟨rfl, rfl, fun _ => rfl⟩
  | scan pc =>
    rw [waitStep] at h
    split at h <;> cases h <;> exact ⟨rfl, rfl, fun _ => rfl⟩
  | load | wait | unlock =>
    cases h
    exact ⟨rfl, rfl, fun _ => rfl⟩
  | asleep => cases h

theorem destroyStep_same {pc : DestroyPC} (h : destroyStep s k pc = some s') :
    SameQueues s s' := by
  cases pc with
  | lock | relock =>
    obtain ⟨s₁, hlock, rfl⟩ := Option.map_eq_some_iff.mp h
    obtain ⟨-, rfl⟩ := acquireIdle_spec hlock
    exact ⟨rfl, rfl, fun _ => rfl⟩
  | parkLock =>
    obtain ⟨s₁, hlock, rfl⟩ := Option.map_eq_some_iff.mp h
    obtain ⟨-, rfl⟩ := acquirePark_spec hlock
    exact ⟨rfl, rfl, fun _ => rfl⟩
  | scan pc =>
    rw [destroyStep] at h
    split at h <;> cases h <;> exact ⟨rfl, rfl, fun _ => rfl⟩
  | await =>
    rw [destroyStep] at h
    split at h <;> cases h <;> exact ⟨rfl, rfl, fun _ => rfl⟩
  | join i =>
    rw [destroyStep] at h
    split at h
    · split at h <;> cases h
      exact ⟨rfl, rfl, fun _ => rfl⟩
    · cases h
      exact ⟨rfl, rfl, fun _ => rfl⟩
  | load | wait | shutdown | unlock | broadcast | parkUnlock =>
    cases h
    exact ⟨rfl, rfl, fun _ => rfl⟩
  | asleep | returned => cases h

/-- What a step of client `k` does to the queues. -/
theorem perform_signals {a : PoolAct K α} (hl : s.Locked) (ht : a.thread = some (.client k))
    (h : s.perform a = some s') :
    (s'.clients k).willSignal = true ∨ ((s.clients k).willSignal = false ∧ SameQueues s s') ∨
      (∃ accepted, s.clients k = .submitting (.unpark accepted .load) ∧ s.numParked = 0) ∨
      ∃ accepted woken s₁, s.clients k = .submitting (.unpark accepted .signal) ∧
        signalWork s woken = some s₁ ∧ s'.workers = s₁.workers := by
  cases perform_cases h with
  | submit hpc request =>
    cases ht
    rw [hpc]
    refine .inr (.inl ⟨rfl, ?_⟩)
    unfold beginSubmit
    split <;> exact ⟨rfl, rfl, fun _ => rfl⟩
  | wait hpc | destroy hpc =>
    cases ht
    rw [hpc]
    exact .inr (.inl ⟨rfl, rfl, rfl, fun _ => rfl⟩)
  | @client k' woken s₂ hclient =>
    cases ht
    cases clientStep_cases hclient with
    | @more call call' s₁ hpc hstep =>
      -- the call goes on, so what it still has to do is read off the next state
      rw [hpc, clients_setClient]
      rcases sharedCallStep_signals hl.gq hstep with hlater | ⟨hnever, hsame⟩ |
        ⟨accepted, rfl, hzero⟩ | ⟨accepted, rfl, hsignal⟩
      · exact .inl hlater
      · exact .inr (.inl ⟨hnever, hsame.setClient _⟩)
      · exact .inr (.inr (.inl ⟨accepted, rfl, hzero⟩))
      · exact .inr (.inr (.inr ⟨accepted, woken, s₁, rfl, hsignal, rfl⟩))
    | @done call accepted s₁ hpc hstep =>
      rw [hpc]
      rcases sharedCallStep_signals hl.gq hstep with hlater | ⟨hnever, hsame⟩ |
        ⟨accepted', rfl, hzero⟩ | ⟨accepted', rfl, hsignal⟩
      · -- a call that has returned has nothing left to signal
        cases hlater
      · exact .inr (.inl ⟨hnever, hsame.numWorkers, hsame.gq, hsame.deques⟩)
      · exact .inr (.inr (.inl ⟨accepted', rfl, hzero⟩))
      · exact .inr (.inr (.inr ⟨accepted', woken, s₁, rfl, hsignal, rfl⟩))
    | waiting hpc hstep =>
      rw [hpc]
      exact .inr (.inl ⟨rfl, waitStep_same hstep⟩)
    | destroying hpc hstep =>
      rw [hpc]
      exact .inr (.inl ⟨rfl, destroyStep_same hstep⟩)
  | worker | task | finish | wakeWorker | wakeClient => cases ht

/-! ## Every step -/

omit [DecidableEq K] in
/-- A worker that has seen something empty holds `park_lock` or sleeps. -/
theorem not_rechecked {pc : ParkPC} (h : ¬ s.Rechecked pc) : pc ≠ .raise ∧ pc ≠ .relock ∧
    (pc = .asleep ∨ (WorkerPC.park pc : WorkerPC (Job α)).holdsPark = true) := by
  cases pc with
  | raise | lock | relock | unlock | lower => exact absurd trivial h
  | scan pc | shutdown | wait => exact ⟨nofun, nofun, .inr rfl⟩
  | asleep => exact ⟨nofun, nofun, .inl rfl⟩

omit [DecidableEq K] in
theorem willSignal_wake (pc : ClientPC α) : pc.wake.willSignal = pc.willSignal := by
  cases pc with
  | waiting pc | destroying pc => cases pc <;> rfl
  | _ => rfl

omit [DecidableEq K] in
/-- A client that was not the one to signal makes a step. -/
theorem Pool.WillSignal.keep (h : s.WillSignal)
    (hclients : ∀ k, (s.clients k).willSignal = true →
      s'.clients k = s.clients k ∨ s'.clients k = (s.clients k).wake) : s'.WillSignal := by
  obtain ⟨k, hk⟩ := h
  refine ⟨k, ?_⟩
  rcases hclients k hk with heq | heq
  · rw [heq]
    exact hk
  · rw [heq, willSignal_wake]
    exact hk

omit [DecidableEq K] in
/-- A step that leaves the queues alone and at most wakes workers up. -/
theorem Pool.Attended.keep (ha : s.Attended) (hsame : SameQueues s s')
    (hworkers : ∀ j, (s'.workers j).pc = (s.workers j).pc ∨
      (s'.workers j).pc = (s.workers j).pc.wake)
    (hsignal : s.WillSignal → s'.WillSignal) : s'.Attended := by
  intro i hi hothers pc hpc
  by_contra hnot
  obtain ⟨hr, hs⟩ := not_or.mp hnot
  obtain ⟨-, hrelock, -⟩ := not_rechecked hr
  rw [hsame.numWorkers] at hi hothers
  have hbefore := park_of_woken (hworkers i) hpc hrelock
  have hasleep : ∀ j < s.numWorkers, j ≠ i → (s.workers j).pc = .park .asleep :=
    fun j hj hne => park_of_woken (hworkers j) (hothers j hj hne) nofun
  rcases ha i hi hasleep pc hbefore with hrechecked | hwill
  · exact hr ((hsame.rechecked pc).mpr hrechecked)
  · exact hs (hsignal hwill)

/-- A step of a client. -/
theorem client_attended {a : PoolAct K α} (hl : s.Locked) (ha : s.Attended)
    (ht : a.thread = some (.client k)) (h : s.perform a = some s') : s'.Attended := by
  have hturn := perform_turn ht h
  have hworkers := fun j => hturn.workers j (by nofun)
  rcases perform_signals hl ht h with hwill | ⟨hnever, hsame⟩ | ⟨accepted, hpc, hzero⟩ |
    ⟨accepted, woken, s₁, hpc, hsignal, hs₁⟩
  · exact fun _ _ _ _ _ => .inr ⟨k, hwill⟩
  · refine ha.keep hsame hworkers fun hs => hs.keep fun k' hk' => hturn.clients k' ?_
    rintro ⟨⟩
    rw [hnever] at hk'
    cases hk'
  · -- a worker that parks is counted, and the client has read a positive number
    intro i hi _ pc hpc'
    by_contra hnot
    obtain ⟨hraise, hrelock, -⟩ := not_rechecked (not_or.mp hnot).1
    rw [hturn.numWorkers] at hi
    have hbefore := park_of_woken (hworkers i) hpc' hrelock
    have hpos : 0 < s.numParked := by
      rw [hl.parked]
      refine slotCount_pos hi ?_
      rw [hbefore]
      cases pc with
      | raise => exact absurd rfl hraise
      | _ => rfl
    omega
  · intro i hi hothers pc hpc'
    by_contra hnot
    obtain ⟨-, hrelock, hstate⟩ := not_rechecked (not_or.mp hnot).1
    rw [hturn.numWorkers] at hi hothers
    have hbefore := park_of_woken (hworkers i) hpc' hrelock
    obtain ⟨rfl, hwoken⟩ := signalWork_spec hsignal
    rcases hstate with rfl | hholds
    · -- all workers sleep, and one of them is woken up
      have hasleep : (s.workers woken).pc.isAsleep = true := by
        rcases hwoken with hwoken | hnone
        · exact hwoken
        · have hi' := hnone i hi
          rw [hbefore] at hi'
          cases hi'
      have hwpc : (s.workers woken).pc = .park .asleep := by
        unfold WorkerPC.isAsleep at hasleep
        split at hasleep
        · next heq => exact heq
        · cases hasleep
      have hlt : woken < s.numWorkers := by
        by_contra hge
        rw [hl.spare woken (Nat.le_of_not_lt hge)] at hwpc
        cases hwpc
      have hafter : (s'.workers woken).pc = .park .relock := by
        rw [hs₁, Pool.setPc, workers_setWorker, hwpc]
        rfl
      by_cases hne : woken = i
      · rw [← hne, hafter] at hpc'
        cases hpc'
      · rw [hothers woken hlt hne] at hafter
        cases hafter
    · -- the client holds the lock
      have hclient : s.holdsPark (.client k) = true := by
        rw [Pool.holdsPark, hpc]
        rfl
      have hworker : s.holdsPark (.worker i) = true := by
        rw [Pool.holdsPark, hbefore]
        exact hholds
      cases hl.park.unique hclient hworker

/-- A step of a worker. -/
theorem worker_attended {a : PoolAct K α} {m : Nat} (hl : s.Locked) (ha : s.Attended)
    (ht : a.thread = some (.worker m)) (h : s.perform a = some s') : s'.Attended := by
  have hturn := perform_turn ht h
  have hm := hl.thread_lt h m ht
  have hworkers : ∀ j, j ≠ m → (s'.workers j).pc = (s.workers j).pc ∨
      (s'.workers j).pc = (s.workers j).pc.wake := by
    intro j hj
    refine hturn.workers j fun heq => hj ?_
    cases heq
    rfl
  -- a step that ends inside of `worker_park` is a step of it
  have hpark : ∀ pc', (s'.workers m).pc = .park pc' → pc' ≠ .raise →
      ∃ pc, (s.workers m).pc = .park pc ∧ parkStep s m pc = some s' := by
    intro pc' hpc' hne
    cases perform_cases h with
    | worker hlt hstep =>
      cases ht
      exact workerStep_park hstep hpc' hne
    | task hpc request =>
      cases ht
      unfold beginTask at hpc'
      split at hpc'
      · rw [Pool.setPc, workers_setWorker] at hpc'
        cases hpc'
      · have hrunning := hpc.symm.trans hpc'
        cases hrunning
    | finish hpc =>
      cases ht
      rw [Pool.setPc, workers_setWorker] at hpc'
      cases hpc'
    | submit | wait | destroy | client | wakeWorker | wakeClient => cases ht
  intro i hi hothers pc' hpc'
  by_contra hnot
  obtain ⟨hr, hs⟩ := not_or.mp hnot
  obtain ⟨hraise, hrelock, hstate⟩ := not_rechecked hr
  rw [hturn.numWorkers] at hi hothers
  -- no task is moved by either worker, so what was seen empty still is
  have hkeep : SameQueues s s' → s'.clients = s.clients → ∀ pc, s.Rechecked pc ∨ s.WillSignal →
      pc = pc' → False := by
    rintro hsame hclients pc (hrechecked | hwill) rfl
    · exact hr ((hsame.rechecked pc).mpr hrechecked)
    · exact hs (hwill.keep fun k _ => .inl (by rw [hclients]))
  by_cases hne : i = m
  · -- the worker itself goes on
    subst hne
    obtain ⟨pc, hpc, hstep⟩ := hpark pc' hpc' hraise
    obtain ⟨hsame, hclients⟩ := parkStep_same hstep
    have hasleep : ∀ j < s.numWorkers, j ≠ i → (s.workers j).pc = .park .asleep :=
      fun j hj hji => park_of_woken (hworkers j hji) (hothers j hj hji) (by rintro ⟨⟩)
    refine hkeep hsame hclients pc' ?_ rfl
    rcases ha i hi hasleep pc hpc with hrechecked | hwill
    · exact .inl (parkStep_rechecked hrechecked hstep hpc')
    · exact .inr hwill
  · -- another worker falls asleep, and was the last one awake before
    have hmasleep := hothers m hm (Ne.symm hne)
    obtain ⟨pc, hpc, hstep⟩ := hpark .asleep hmasleep (by rintro ⟨⟩)
    obtain rfl := parkStep_asleep hstep hmasleep
    obtain ⟨hsame, hclients⟩ := parkStep_same hstep
    have hbefore := park_of_woken (hworkers i hne) hpc' hrelock
    -- worker `i` sleeps as well, or it holds the lock under which `m` falls asleep
    rcases hstate with rfl | hholds
    · refine hkeep hsame hclients .asleep ?_ rfl
      refine ha m hm (fun j hj hjm => ?_) .wait hpc
      by_cases hji : j = i
      · rw [hji]
        exact hbefore
      · exact park_of_woken (hworkers j hjm) (hothers j hj hji) (by rintro ⟨⟩)
    · have hm' : s.holdsPark (.worker m) = true := by
        rw [Pool.holdsPark, hpc]
        rfl
      have hi' : s.holdsPark (.worker i) = true := by
        rw [Pool.holdsPark, hbefore]
        exact hholds
      cases hl.park.unique hm' hi'
      exact hne rfl

theorem perform_attended {a : PoolAct K α} (hl : s.Locked) (ha : s.Attended)
    (h : s.perform a = some s') : s'.Attended := by
  match ht : a.thread with
  | none =>
    have hwoken := perform_woken ht h
    exact ha.keep ⟨hwoken.peers.numWorkers, hwoken.gq, hwoken.deques⟩ hwoken.peers.workers
      fun hs => hs.keep fun k _ => hwoken.peers.clients k
  | some (.worker m) => exact worker_attended hl ha ht h
  | some (.client k) => exact client_attended hl ha ht h

/-! ## Every run -/

/-- In no run do all workers sleep while there is a task and nobody is about to signal. -/
theorem not_stranded (K α : Type*) [DecidableEq K] (numThreads : Nat) (s : Pool K α)
    (h : Reach (threadpool K α numThreads) AnyStep s) : ¬ s.Stranded := by
  have hinv : s.Locked ∧ s.Attended := by
    refine Reach.invariant (fun s => s.Locked ∧ s.Attended) ?_ ?_ h
    · rintro s ⟨tasks, gqTasks, rfl⟩
      exact ⟨locked_create numThreads tasks gqTasks, fun _ _ _ _ hpc => nomatch hpc⟩
    · rintro s a s' ⟨hl, ha⟩ - ⟨-, hstep⟩
      exact ⟨perform_locked hl hstep, perform_attended hl ha hstep⟩
  obtain ⟨hl, ha⟩ := hinv
  rintro ⟨hasleep, hsilent, -, hwork⟩
  rcases ha 0 hl.pos (fun j hj _ => hasleep j hj) .asleep (hasleep 0 hl.pos) with hnone | ⟨k, hk⟩
  · exact hnone hwork
  · -- the client that is going to signal has not ended its call
    match hpc : s.clients k with
    | .submitting call =>
      rw [hpc] at hk
      have hquiet := hsilent (.client k) call (by rw [Pool.call?, hpc]; rfl)
      cases call with
      | push | pushEach | queue => cases hk
      | queueEach pushed rest =>
        rw [ClientPC.willSignal, Call.willSignal] at hk
        rw [Call.isAnnouncing, hk] at hquiet
        cases hquiet
      | unpark accepted pc => cases hquiet
    | .idle | .waiting _ | .destroying _ =>
      rw [hpc] at hk
      cases hk

end

/-- The only worker sleeps, and a client has put a task in and not yet read `num_parked`. -/
def sleepingRun : List (PoolAct Unit Nat) :=
  List.replicate 56 (PoolAct.worker 0 0) ++ [PoolAct.submit () (.submit 7), PoolAct.client () 0]

theorem not_stranded_sleeping : ∃ s : Pool Unit Nat, Reach (threadpool Unit Nat 1) AnyStep s ∧
    (s.workers 0).pc.isAsleep = true ∧ s.shutdown = false ∧ s.gq.head ≠ s.gq.tail ∧
      ¬ s.Stranded := by
  have hview : (sleepingRun.foldlM performAllowed
      (threadpoolCreate Unit 1 (fun _ _ => (0, 0)) fun _ => (0, 0))).map
      (fun s => ((s.workers 0).pc.isAsleep, s.shutdown, s.gq.head, s.gq.tail)) =
        some (true, false, 1, 0) := by
    decide +kernel
  obtain ⟨s, hs, hsv⟩ := Option.map_eq_some_iff.mp hview
  obtain ⟨hasleep, hshutdown, hhead, htail⟩ : (s.workers 0).pc.isAsleep = true ∧
      s.shutdown = false ∧ s.gq.head = 1 ∧ s.gq.tail = 0 := by
    simpa only [Prod.mk.injEq] using hsv
  have hreach : Reach (threadpool Unit Nat 1) AnyStep s :=
    Reach.run (fun _ _ _ h => ⟨trivial, performAllowed_step h⟩) (.init ⟨_, _, rfl⟩) hs
  refine ⟨s, hreach, hasleep, hshutdown, ?_, not_stranded Unit Nat 1 s hreach⟩
  rw [hhead, htail]
  exact Nat.one_ne_zero

end Solidc.Threadpool
