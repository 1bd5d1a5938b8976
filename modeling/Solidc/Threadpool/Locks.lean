import Solidc.Lib.Mutex
import Solidc.Threadpool.Runs

/-! # Locks and counters of the pool

`park_lock` and `idle_lock` are each held by the thread whose program point is between the
lock and its release, and `num_parked` and `num_active` count the workers at certain
program points. All of this holds in every run, whatever the indices of the deques are.

* `Turn` — what a step of one thread does to the locks, the counters and the other threads;
* `perform_turn` — every step of a thread is one;
* `Pool.Locked` — the locks and counters are right, in every reachable state
  (`reach_locked`).
-/

namespace Solidc.Threadpool

open CLib

variable {K α : Type*} {s s' s₁ : Pool K α} {i : Nat}

/-! ## Who holds what -/

def Call.holdsPark : Call α → Bool
  | .unpark _ .signal | .unpark _ .unlock => true
  | _ => false

/-- A call that goes on, or has returned. -/
def Outcome.holdsPark : Outcome (Call α) (List α) → Bool
  | .more call => call.holdsPark
  | .done _ => false

def WorkerPC.holdsPark : WorkerPC α → Bool
  | .submitting _ call => call.holdsPark
  | .park (.scan _) | .park .shutdown | .park .wait | .park .unlock => true
  | _ => false

def ClientPC.holdsPark : ClientPC α → Bool
  | .submitting call => call.holdsPark
  | .destroying .broadcast | .destroying .parkUnlock => true
  | _ => false

def WorkerPC.holdsIdle : WorkerPC α → Bool
  | .idle .load | .idle .broadcast | .idle .unlock | .exit .broadcast | .exit .unlock => true
  | _ => false

def ClientPC.holdsIdle : ClientPC α → Bool
  | .waiting .load | .waiting (.scan _) | .waiting .wait | .waiting .unlock => true
  | .destroying (.scan _) | .destroying (.load _) | .destroying .wait => true
  | .destroying .shutdown | .destroying .unlock => true
  | _ => false

/-- Counted in `num_parked`. -/
def WorkerPC.isParked : WorkerPC α → Bool
  | .park .raise => false
  | .park _ => true
  | _ => false

def Pool.holdsPark (s : Pool K α) : Thread K → Bool
  | .worker i => (s.workers i).pc.holdsPark
  | .client k => (s.clients k).holdsPark

def Pool.holdsIdle (s : Pool K α) : Thread K → Bool
  | .worker i => (s.workers i).pc.holdsIdle
  | .client k => (s.clients k).holdsIdle

def Pool.isParked (s : Pool K α) : Thread K → Bool
  | .worker i => (s.workers i).pc.isParked
  | .client _ => false

def Pool.isActive (s : Pool K α) : Thread K → Bool
  | .worker i => (s.workers i).pc.isActive
  | .client _ => false

/-- What holds of the locks, the counters and the indices of the global queue. -/
structure Pool.Locked (s : Pool K α) : Prop where
  pos : 0 < s.numWorkers
  park : MutexInv s.parkLock s.holdsPark
  idle : MutexInv s.idleLock s.holdsIdle
  parked : s.numParked = slotCount s.numWorkers s.workers (·.pc.isParked)
  active : s.numActive = slotCount s.numWorkers s.workers (·.pc.isActive)
  gq : s.gq.Valid
  spare : s.Spare

/-! ## Waking up -/

theorem holdsPark_wake (pc : WorkerPC α) : pc.wake.holdsPark = pc.holdsPark := by
  cases pc with
  | park pc => cases pc <;> rfl
  | _ => rfl

theorem holdsIdle_wake (pc : WorkerPC α) : pc.wake.holdsIdle = pc.holdsIdle := by
  cases pc <;> rfl

theorem isParked_wake (pc : WorkerPC α) : pc.wake.isParked = pc.isParked := by
  cases pc with
  | park pc => cases pc <;> rfl
  | _ => rfl

theorem isActive_wake (pc : WorkerPC α) : pc.wake.isActive = pc.isActive := by
  rw [← isActive_core, core_wake, isActive_core]

theorem ClientPC.holdsPark_wake (pc : ClientPC α) : pc.wake.holdsPark = pc.holdsPark := by
  cases pc with
  | waiting pc | destroying pc => cases pc <;> rfl
  | _ => rfl

theorem ClientPC.holdsIdle_wake (pc : ClientPC α) : pc.wake.holdsIdle = pc.holdsIdle := by
  cases pc with
  | waiting pc | destroying pc => cases pc <;> rfl
  | _ => rfl

/-- The threads are where they were, or have been woken up. -/
structure Peers (s s' : Pool K α) : Prop where
  numWorkers : s'.numWorkers = s.numWorkers
  workers : ∀ j, (s'.workers j).pc = (s.workers j).pc ∨ (s'.workers j).pc = (s.workers j).pc.wake
  clients : ∀ k, s'.clients k = s.clients k ∨ s'.clients k = (s.clients k).wake
  gq : s.gq.Valid → s'.gq.Valid

theorem Peers.refl : Peers s s :=
  ⟨rfl, fun _ => .inl rfl, fun _ => .inl rfl, fun h => h⟩

theorem Peers.setDeque (j : Nat) (d : Deque (Job α)) : Peers s (s.setDeque j d) := by
  refine ⟨rfl, fun j' => .inl ?_, fun _ => .inl rfl, fun h => h⟩
  by_cases hj : j' = j
  · subst hj
    rw [workers_setDeque]
  · rw [Pool.setDeque, workers_setWorker_ne _ hj]

/-- What a step of thread `t` does to the locks, the counters and the other threads. -/
structure Turn (t : Thread K) (s s' : Pool K α) : Prop where
  numWorkers : s'.numWorkers = s.numWorkers
  workers : ∀ j, t ≠ .worker j →
    (s'.workers j).pc = (s.workers j).pc ∨ (s'.workers j).pc = (s.workers j).pc.wake
  clients : ∀ k, t ≠ .client k → s'.clients k = s.clients k ∨ s'.clients k = (s.clients k).wake
  park : MutexMove t s.parkLock (s.holdsPark t) s'.parkLock (s'.holdsPark t)
  idle : MutexMove t s.idleLock (s.holdsIdle t) s'.idleLock (s'.holdsIdle t)
  parked : s'.numParked = s.numParked + (s'.isParked t).toNat - (s.isParked t).toNat
  active : s'.numActive = s.numActive + (s'.isActive t).toNat - (s.isActive t).toNat
  gq : s.gq.Valid → s'.gq.Valid

theorem Turn.of_worker {pc : WorkerPC (Job α)} {w : Worker (Job α)}
    (hpc : (s.workers i).pc = pc) (hpeers : Peers s s₁)
    (hpark : MutexMove (.worker i) s.parkLock pc.holdsPark s₁.parkLock w.pc.holdsPark)
    (hidle : MutexMove (.worker i) s.idleLock pc.holdsIdle s₁.idleLock w.pc.holdsIdle)
    (hparked : s₁.numParked = s.numParked + w.pc.isParked.toNat - pc.isParked.toNat)
    (hactive : s₁.numActive = s.numActive + w.pc.isActive.toNat - pc.isActive.toNat) :
    Turn (.worker i) s (s₁.setWorker i w) := by
  subst hpc
  have hself : (s₁.setWorker i w).workers i = w := workers_setWorker w
  refine ⟨hpeers.numWorkers, fun j hj => ?_, fun k _ => hpeers.clients k, ?_, ?_, ?_, ?_, hpeers.gq⟩
  · have hne : j ≠ i := fun heq => hj (by rw [heq])
    rw [workers_setWorker_ne w hne]
    exact hpeers.workers j
  · rwa [Pool.holdsPark, Pool.holdsPark, hself]
  · rwa [Pool.holdsIdle, Pool.holdsIdle, hself]
  · rwa [Pool.isParked, Pool.isParked, hself]
  · rwa [Pool.isActive, Pool.isActive, hself]

/-- A step of worker `i` that touches no lock and no counter. -/
theorem Turn.plain {w : Worker (Job α)} (hpeers : Peers s s₁)
    (hlocks : s₁.parkLock = s.parkLock ∧ s₁.idleLock = s.idleLock)
    (hcounters : s₁.numParked = s.numParked ∧ s₁.numActive = s.numActive)
    (hpark : w.pc.holdsPark = (s.workers i).pc.holdsPark)
    (hidle : w.pc.holdsIdle = (s.workers i).pc.holdsIdle)
    (hparked : w.pc.isParked = (s.workers i).pc.isParked)
    (hactive : w.pc.isActive = (s.workers i).pc.isActive) :
    Turn (.worker i) s (s₁.setWorker i w) := by
  refine .of_worker rfl hpeers (.of_eq hlocks.1 hpark) (.of_eq hlocks.2 hidle) ?_ ?_
  · rw [hcounters.1, hparked, Nat.add_sub_cancel]
  · rw [hcounters.2, hactive, Nat.add_sub_cancel]

section

variable [DecidableEq K] {k : K}

theorem Turn.of_client {pc pc' : ClientPC (Job α)} (hpc : s.clients k = pc) (hpeers : Peers s s₁)
    (hpark : MutexMove (.client k) s.parkLock pc.holdsPark s₁.parkLock pc'.holdsPark)
    (hidle : MutexMove (.client k) s.idleLock pc.holdsIdle s₁.idleLock pc'.holdsIdle)
    (hparked : s₁.numParked = s.numParked) (hactive : s₁.numActive = s.numActive) :
    Turn (.client k) s (s₁.setClient k pc') := by
  subst hpc
  refine ⟨hpeers.numWorkers, fun j _ => hpeers.workers j, fun k' hk' => ?_, ?_, ?_, hparked,
    hactive, hpeers.gq⟩
  · have hne : k' ≠ k := fun heq => hk' (by rw [heq])
    rw [clients_setClient_ne _ hne]
    exact hpeers.clients k'
  · rwa [Pool.holdsPark, Pool.holdsPark, clients_setClient]
  · rwa [Pool.holdsIdle, Pool.holdsIdle, clients_setClient]

end

/-! ## Submit calls -/

/-- What a step of a submit call does to the locks, the counters and the other threads. -/
structure Errand (t : Thread K) (s : Pool K α) (flag : Bool) (s' : Pool K α) (flag' : Bool) :
    Prop where
  peers : Peers s s'
  park : MutexMove t s.parkLock flag s'.parkLock flag'
  idle : s'.idleLock = s.idleLock
  parked : s'.numParked = s.numParked
  active : s'.numActive = s.numActive

theorem acquirePark_spec {t : Thread K} (h : acquirePark s t = some s') :
    s.parkLock = none ∧ s' = { s with parkLock := some t } := by
  unfold acquirePark at h
  split at h
  · next hfree =>
    cases h
    exact ⟨hfree, rfl⟩
  · cases h

theorem acquireIdle_spec {t : Thread K} (h : acquireIdle s t = some s') :
    s.idleLock = none ∧ s' = { s with idleLock := some t } := by
  unfold acquireIdle at h
  split at h
  · next hfree =>
    cases h
    exact ⟨hfree, rfl⟩
  · cases h

theorem Peers.acquirePark {t : Thread K} (h : acquirePark s t = some s') : Peers s s' := by
  obtain ⟨-, rfl⟩ := acquirePark_spec h
  exact ⟨rfl, fun _ => .inl rfl, fun _ => .inl rfl, fun h => h⟩

theorem MutexMove.acquirePark {t : Thread K} (h : acquirePark s t = some s') (flag : Bool) :
    MutexMove t s.parkLock flag s'.parkLock true := by
  obtain ⟨hfree, rfl⟩ := acquirePark_spec h
  rw [hfree]
  exact .acquire flag

theorem MutexMove.acquireIdle {t : Thread K} (h : acquireIdle s t = some s') (flag : Bool) :
    MutexMove t s.idleLock flag s'.idleLock true := by
  obtain ⟨hfree, rfl⟩ := acquireIdle_spec h
  rw [hfree]
  exact .acquire flag

theorem signalWork_spec {woken : Nat} (h : signalWork s woken = some s') :
    s' = s.setPc woken (s.workers woken).pc.wake ∧
      ((s.workers woken).pc.isAsleep = true ∨
        ∀ i < s.numWorkers, (s.workers i).pc.isAsleep = false) := by
  unfold signalWork at h
  split at h
  · next hwoken =>
    cases h
    refine ⟨rfl, ?_⟩
    simp only [Bool.or_eq_true, Bool.not_eq_true', List.any_eq_false, List.mem_range,
      Bool.not_eq_true] at hwoken
    exact hwoken
  · cases h

theorem Peers.setPc_wake (j : Nat) : Peers s (s.setPc j (s.workers j).pc.wake) := by
  refine ⟨rfl, fun j' => ?_, fun _ => .inl rfl, fun h => h⟩
  by_cases hj : j' = j
  · subst hj
    right
    rw [Pool.setPc, workers_setWorker]
  · left
    rw [Pool.setPc, workers_setWorker_ne _ hj]

theorem holdsPark_afterBatch (pushed : List α) : (afterBatch pushed).holdsPark = false := by
  cases pushed <;> rfl

theorem holdsPark_queueNext (pushed rest : List α) : (queueNext pushed rest).holdsPark = false := by
  cases rest with
  | nil => exact holdsPark_afterBatch pushed
  | cons x rest => rfl

theorem holdsPark_pushNext (pushed rest : List α) (alloc : Bool) :
    (pushNext pushed rest alloc).holdsPark = false := by
  cases rest with
  | nil => exact holdsPark_afterBatch pushed
  | cons x rest => rfl

/-- A step that changes neither lock nor counter. -/
theorem Errand.still {t : Thread K} {flag flag' : Bool} (hpeers : Peers s s')
    (hlocks : s'.parkLock = s.parkLock ∧ s'.idleLock = s.idleLock)
    (hcounters : s'.numParked = s.numParked ∧ s'.numActive = s.numActive)
    (hflag : flag' = flag) : Errand t s flag s' flag' :=
  ⟨hpeers, .of_eq hlocks.1 hflag, hlocks.2, hcounters.1, hcounters.2⟩

theorem sharedCallStep_errand {t : Thread K} {woken : Nat} {call : Call (Job α)}
    {o : Outcome (Call (Job α)) (List (Job α))} (h : sharedCallStep s t woken call = some (s', o)) :
    Errand t s call.holdsPark s' o.holdsPark := by
  -- that the queue stays valid is what the step was shown to do to it
  have hgq : s.gq.Valid → s'.gq.Valid := by
    intro hvalid
    obtain ⟨xs, henqueued, -⟩ := sharedCallStep_spec hvalid h
    exact henqueued.gq
  cases call with
  | push pc => cases h
  | pushEach pushed rest alloc pc => cases h
  | queue x =>
    rw [sharedCallStep] at h
    split at h
    · split at h <;> cases h <;> exact .still .refl ⟨rfl, rfl⟩ ⟨rfl, rfl⟩ rfl
    · cases h
      have hpeers : Peers s (s.enterQueue x) := ⟨rfl, fun _ => .inl rfl, fun _ => .inl rfl, hgq⟩
      exact .still hpeers ⟨rfl, rfl⟩ ⟨rfl, rfl⟩ rfl
  | queueEach pushed rest =>
    rw [sharedCallStep] at h
    split at h
    · split at h <;> cases h
      · exact .still .refl ⟨rfl, rfl⟩ ⟨rfl, rfl⟩ (holdsPark_afterBatch pushed)
      · exact .still .refl ⟨rfl, rfl⟩ ⟨rfl, rfl⟩ rfl
    · cases h
      have hpeers : Peers s (s.enterChunk (rest.take (s.gq.chunk rest.length))) :=
        ⟨rfl, fun _ => .inl rfl, fun _ => .inl rfl, hgq⟩
      exact .still hpeers ⟨rfl, rfl⟩ ⟨rfl, rfl⟩ (holdsPark_queueNext _ _)
  | unpark accepted pc =>
    cases pc with
    | load =>
      rw [sharedCallStep] at h
      split at h <;> cases h <;> exact .still .refl ⟨rfl, rfl⟩ ⟨rfl, rfl⟩ rfl
    | lock =>
      obtain ⟨s₁, hlock, heq⟩ := Option.map_eq_some_iff.mp h
      cases heq
      have hpark := MutexMove.acquirePark hlock false
      have hpeers := Peers.acquirePark hlock
      obtain ⟨-, rfl⟩ := acquirePark_spec hlock
      exact ⟨hpeers, hpark, rfl, rfl, rfl⟩
    | signal =>
      obtain ⟨s₁, hsignal, heq⟩ := Option.map_eq_some_iff.mp h
      cases heq
      obtain ⟨rfl, -⟩ := signalWork_spec hsignal
      exact .still (.setPc_wake woken) ⟨rfl, rfl⟩ ⟨rfl, rfl⟩ rfl
    | unlock =>
      cases h
      exact ⟨⟨rfl, fun _ => .inl rfl, fun _ => .inl rfl, hgq⟩, .release _, rfl, rfl, rfl⟩

theorem workerCallStep_errand {woken : Nat} {call : Call (Job α)}
    {o : Outcome (Call (Job α)) (List (Job α))} (h : workerCallStep s i woken call = some (s', o)) :
    Errand (.worker i) s call.holdsPark s' o.holdsPark := by
  have hdeque : ∀ d, Peers s (s.setDeque i d) := .setDeque i
  have henter : ∀ d xs, Peers s ((s.setDeque i d).enter xs) := fun d _ =>
    ⟨rfl, (hdeque d).workers, (hdeque d).clients, fun h => h⟩
  cases call with
  | push pc =>
    rw [workerCallStep] at h
    split at h <;> cases h
    · exact .still (hdeque _) ⟨rfl, rfl⟩ ⟨rfl, rfl⟩ rfl
    · exact .still (henter _ _) ⟨rfl, rfl⟩ ⟨rfl, rfl⟩ rfl
    · exact .still (hdeque _) ⟨rfl, rfl⟩ ⟨rfl, rfl⟩ rfl
  | pushEach pushed rest alloc pc =>
    rw [workerCallStep] at h
    split at h
    · cases h
      exact .still (hdeque _) ⟨rfl, rfl⟩ ⟨rfl, rfl⟩ rfl
    · cases h
      exact .still (henter _ _) ⟨rfl, rfl⟩ ⟨rfl, rfl⟩ (holdsPark_pushNext _ _ _)
    · split at h <;> cases h
      · exact .still (hdeque _) ⟨rfl, rfl⟩ ⟨rfl, rfl⟩ rfl
      · exact .still (hdeque _) ⟨rfl, rfl⟩ ⟨rfl, rfl⟩ (holdsPark_afterBatch pushed)
  | queue x =>
    -- on the global queue a worker does what a client does
    have hshared : sharedCallStep s (.worker i) woken (.queue x) = some (s', o) := h
    exact sharedCallStep_errand hshared
  | queueEach pushed rest =>
    have hshared : sharedCallStep s (.worker i) woken (.queueEach pushed rest) = some (s', o) := h
    exact sharedCallStep_errand hshared
  | unpark accepted pc =>
    have hshared : sharedCallStep s (.worker i) woken (.unpark accepted pc) = some (s', o) := h
    exact sharedCallStep_errand hshared

/-! ## Workers -/

/-- The program point of a worker at which it holds no lock and is not counted. -/
structure WorkerPC.Free (pc : WorkerPC α) : Prop where
  park : pc.holdsPark = false
  idle : pc.holdsIdle = false
  parked : pc.isParked = false
  active : pc.isActive = false

theorem free_stealNext (n i start k : Nat) : (stealNext n i start k : WorkerPC α).Free := by
  unfold stealNext
  split <;> exact ⟨rfl, rfl, rfl, rfl⟩

theorem free_unloadNext (first : α) (rest : List α) : (unloadNext first rest).Free := by
  cases rest <;> exact ⟨rfl, rfl, rfl, rfl⟩

theorem free_spillNext (first : α) (rest : List α) : (spillNext first rest).Free := by
  cases rest <;> exact ⟨rfl, rfl, rfl, rfl⟩

/-- A step between such program points. -/
theorem Turn.free {w : Worker (Job α)} (hbefore : (s.workers i).pc.Free) (hafter : w.pc.Free)
    (hpeers : Peers s s₁) (hlocks : s₁.parkLock = s.parkLock ∧ s₁.idleLock = s.idleLock)
    (hcounters : s₁.numParked = s.numParked ∧ s₁.numActive = s.numActive) :
    Turn (.worker i) s (s₁.setWorker i w) :=
  .plain hpeers hlocks hcounters (hafter.park.trans hbefore.park.symm)
    (hafter.idle.trans hbefore.idle.symm) (hafter.parked.trans hbefore.parked.symm)
    (hafter.active.trans hbefore.active.symm)

theorem startStep_turn {pc : StartPC} (hpc : (s.workers i).pc = .start pc) :
    Turn (.worker i) s (startStep s i pc) := by
  have hfree : (s.workers i).pc.Free := by
    rw [hpc]
    exact ⟨rfl, rfl, rfl, rfl⟩
  have hstay : Turn (.worker i) s (s.setWorker i (s.workers i)) :=
    .free hfree hfree .refl ⟨rfl, rfl⟩ ⟨rfl, rfl⟩
  have hself : s.setWorker i (s.workers i) = s := by
    rw [Pool.setWorker, Function.update_eq_self]
  have hcount : ∀ n m, Peers s { s with workersReady := n, numThreadsAlive := m } :=
    fun n m => ⟨rfl, fun _ => .inl rfl, fun _ => .inl rfl, fun h => h⟩
  rw [hself] at hstay
  cases pc with
  | arrive => exact .free hfree ⟨rfl, rfl, rfl, rfl⟩ (hcount _ _) ⟨rfl, rfl⟩ ⟨rfl, rfl⟩
  | barrier =>
    rw [startStep]
    split
    · -- not all workers are ready: this one stays at the barrier
      exact hstay
    · exact .free hfree ⟨rfl, rfl, rfl, rfl⟩ .refl ⟨rfl, rfl⟩ ⟨rfl, rfl⟩
  | enlist => exact .free hfree ⟨rfl, rfl, rfl, rfl⟩ (hcount _ _) ⟨rfl, rfl⟩ ⟨rfl, rfl⟩

theorem beginSteal_turn {d : Deque (Job α)} (hfree : (s.workers i).pc.Free) :
    Turn (.worker i) s (beginSteal (s.setDeque i d) i) :=
  .free hfree (free_stealNext _ _ _ _) (.setDeque i d) ⟨rfl, rfl⟩ ⟨rfl, rfl⟩

theorem popAccess_turn {pc : PopPC (Job α)} (hpc : (s.workers i).pc = .pop pc) :
    Turn (.worker i) s (popAccess s i pc) := by
  have hfree : (s.workers i).pc.Free := by
    rw [hpc]
    exact ⟨rfl, rfl, rfl, rfl⟩
  unfold popAccess
  split
  · exact .free hfree ⟨rfl, rfl, rfl, rfl⟩ (.setDeque i _) ⟨rfl, rfl⟩ ⟨rfl, rfl⟩
  · exact .free hfree ⟨rfl, rfl, rfl, rfl⟩ (.setDeque i _) ⟨rfl, rfl⟩ ⟨rfl, rfl⟩
  · exact beginSteal_turn hfree

theorem stealAccess_turn {start k : Nat} {pc : StealPC (Job α)}
    (hpc : (s.workers i).pc = .steal start k pc) :
    Turn (.worker i) s (stealAccess s i start k pc) := by
  have hfree : (s.workers i).pc.Free := by
    rw [hpc]
    exact ⟨rfl, rfl, rfl, rfl⟩
  unfold stealAccess
  split
  · exact .free hfree ⟨rfl, rfl, rfl, rfl⟩ (.setDeque _ _) ⟨rfl, rfl⟩ ⟨rfl, rfl⟩
  · exact .free hfree ⟨rfl, rfl, rfl, rfl⟩ (.setDeque _ _) ⟨rfl, rfl⟩ ⟨rfl, rfl⟩
  · exact .free hfree (free_stealNext _ _ _ _) (.setDeque _ _) ⟨rfl, rfl⟩ ⟨rfl, rfl⟩

theorem spinOrPark_turn (hfree : (s.workers i).pc.Free) (hpeers : Peers s s₁)
    (hlocks : s₁.parkLock = s.parkLock ∧ s₁.idleLock = s.idleLock)
    (hcounters : s₁.numParked = s.numParked ∧ s₁.numActive = s.numActive) :
    Turn (.worker i) s (spinOrPark s₁ i) := by
  unfold spinOrPark
  split
  · exact .free hfree ⟨rfl, rfl, rfl, rfl⟩ hpeers hlocks hcounters
  · exact .free hfree ⟨rfl, rfl, rfl, rfl⟩ hpeers hlocks hcounters

theorem pullAccess_turn (hpc : (s.workers i).pc = .pull) :
    Turn (.worker i) s (pullAccess s i) := by
  have hfree : (s.workers i).pc.Free := by
    rw [hpc]
    exact ⟨rfl, rfl, rfl, rfl⟩
  have hpull : Peers s { s with gq := s.gq.pullBatch batchSize } :=
    ⟨rfl, fun _ => .inl rfl, fun _ => .inl rfl, fun h => h.pullBatch batchSize⟩
  unfold pullAccess
  split
  · exact .free hfree ⟨rfl, rfl, rfl, rfl⟩ .refl ⟨rfl, rfl⟩ ⟨rfl, rfl⟩
  · split
    · exact spinOrPark_turn hfree hpull ⟨rfl, rfl⟩ ⟨rfl, rfl⟩
    · exact .free hfree (free_unloadNext _ _) hpull ⟨rfl, rfl⟩ ⟨rfl, rfl⟩

theorem unloadAccess_turn {first : Job α} {rest : List (Job α)} {pc : PushPC (Job α)}
    (hpc : (s.workers i).pc = .unload first rest pc) :
    Turn (.worker i) s (unloadAccess s i first rest pc) := by
  have hfree : (s.workers i).pc.Free := by
    rw [hpc]
    exact ⟨rfl, rfl, rfl, rfl⟩
  unfold unloadAccess
  split
  · exact .free hfree ⟨rfl, rfl, rfl, rfl⟩ (.setDeque i _) ⟨rfl, rfl⟩ ⟨rfl, rfl⟩
  · exact .free hfree (free_unloadNext _ _) (.setDeque i _) ⟨rfl, rfl⟩ ⟨rfl, rfl⟩
  · exact .free hfree ⟨rfl, rfl, rfl, rfl⟩ (.setDeque i _) ⟨rfl, rfl⟩ ⟨rfl, rfl⟩

theorem spillAccess_turn {first : Job α} {rest : List (Job α)}
    (hpc : (s.workers i).pc = .spill first rest) :
    Turn (.worker i) s (spillAccess s i first rest) := by
  have hfree : (s.workers i).pc.Free := by
    rw [hpc]
    exact ⟨rfl, rfl, rfl, rfl⟩
  have hself : s.setWorker i (s.workers i) = s := by
    rw [Pool.setWorker, Function.update_eq_self]
  have hstay : Turn (.worker i) s (s.setWorker i (s.workers i)) :=
    .free hfree hfree .refl ⟨rfl, rfl⟩ ⟨rfl, rfl⟩
  rw [hself] at hstay
  have hpush : ∀ x, Peers s { s with gq := s.gq.push x } :=
    fun x => ⟨rfl, fun _ => .inl rfl, fun _ => .inl rfl, fun h => h.push x⟩
  cases rest with
  | nil => exact .free hfree ⟨rfl, rfl, rfl, rfl⟩ .refl ⟨rfl, rfl⟩ ⟨rfl, rfl⟩
  | cons x rest =>
    rw [spillAccess]
    split
    · split
      · exact .free hfree (free_spillNext _ _) .refl ⟨rfl, rfl⟩ ⟨rfl, rfl⟩
      · -- the queue is full: the push waits for room
        exact hstay
    · exact .free hfree (free_spillNext _ _) (hpush x) ⟨rfl, rfl⟩ ⟨rfl, rfl⟩

theorem executeStep_turn {task : Job α} (hpc : (s.workers i).pc = .execute task) :
    Turn (.worker i) s (executeStep s i task) := by
  have hpeers : Peers s { s with numActive := s.numActive + 1 } :=
    ⟨rfl, fun _ => .inl rfl, fun _ => .inl rfl, fun h => h⟩
  exact .of_worker hpc hpeers (.keep _ _) (.keep _ _) rfl rfl

theorem retireStep_turn (hpc : (s.workers i).pc = .retire) :
    Turn (.worker i) s (retireStep s i) := by
  have hpeers : Peers s { s with numActive := s.numActive - 1 } :=
    ⟨rfl, fun _ => .inl rfl, fun _ => .inl rfl, fun h => h⟩
  unfold retireStep
  -- whether it goes on to the idle check, the worker is not counted any more
  split
  · exact .of_worker hpc hpeers (.keep _ _) (.keep _ _) rfl rfl
  · exact .of_worker hpc hpeers (.keep _ _) (.keep _ _) rfl rfl

theorem Peers.acquireIdle {t : Thread K} (h : acquireIdle s t = some s') : Peers s s' := by
  obtain ⟨-, rfl⟩ := acquireIdle_spec h
  exact ⟨rfl, fun _ => .inl rfl, fun _ => .inl rfl, fun h => h⟩

theorem Peers.broadcastIdle : Peers s (broadcastIdle s) :=
  ⟨rfl, fun _ => .inl rfl, fun _ => .inr rfl, fun h => h⟩

theorem Peers.broadcastWork : Peers s (broadcastWork s) :=
  ⟨rfl, fun _ => .inr rfl, fun _ => .inl rfl, fun h => h⟩

theorem Peers.releaseIdle : Peers s (releaseIdle s) :=
  ⟨rfl, fun _ => .inl rfl, fun _ => .inl rfl, fun h => h⟩

theorem Peers.releasePark : Peers s (releasePark s) :=
  ⟨rfl, fun _ => .inl rfl, fun _ => .inl rfl, fun h => h⟩

/-- A step of worker `i` that acquires `idle_lock`. -/
theorem Turn.lockIdle {w : Worker (Job α)} (hlock : acquireIdle s (.worker i) = some s₁)
    (hbefore : (s.workers i).pc.Free) (hpark : w.pc.holdsPark = false)
    (hidle : w.pc.holdsIdle = true) (hparked : w.pc.isParked = false)
    (hactive : w.pc.isActive = false) : Turn (.worker i) s (s₁.setWorker i w) := by
  have hmove := MutexMove.acquireIdle hlock (s.workers i).pc.holdsIdle
  have hpeers := Peers.acquireIdle hlock
  obtain ⟨-, rfl⟩ := acquireIdle_spec hlock
  refine .of_worker rfl hpeers (.of_eq rfl (hpark.trans hbefore.park.symm)) ?_ ?_ ?_
  · rw [hidle]
    exact hmove
  · rw [hparked, hbefore.parked]
    rfl
  · rw [hactive, hbefore.active]
    rfl

theorem idleStep_turn {pc : IdlePC} (hpc : (s.workers i).pc = .idle pc)
    (h : idleStep s i pc = some s') : Turn (.worker i) s s' := by
  cases pc with
  | scan pc =>
    rw [idleStep] at h
    split at h <;> cases h <;>
      exact .of_worker hpc .refl (.keep _ _) (.keep _ _) rfl rfl
  | lock =>
    obtain ⟨s₁, hlock, rfl⟩ := Option.map_eq_some_iff.mp h
    have hfree : (s.workers i).pc.Free := by
      rw [hpc]
      exact ⟨rfl, rfl, rfl, rfl⟩
    exact .lockIdle hlock hfree rfl rfl rfl rfl
  | load =>
    cases h
    split <;> exact .of_worker hpc .refl (.keep _ _) (.keep _ _) rfl rfl
  | broadcast =>
    cases h
    exact .of_worker hpc .broadcastIdle (.keep _ _) (.keep _ _) rfl rfl
  | unlock =>
    cases h
    exact .of_worker hpc .releaseIdle (.keep _ _) (.release _) rfl rfl

theorem parkStep_turn {pc : ParkPC} (hpc : (s.workers i).pc = .park pc)
    (h : parkStep s i pc = some s') : Turn (.worker i) s s' := by
  have hcount : ∀ n, Peers s { s with numParked := n } :=
    fun n => ⟨rfl, fun _ => .inl rfl, fun _ => .inl rfl, fun h => h⟩
  cases pc with
  | raise =>
    cases h
    exact .of_worker hpc (hcount _) (.keep _ _) (.keep _ _) rfl rfl
  | lock | relock =>
    obtain ⟨s₁, hlock, rfl⟩ := Option.map_eq_some_iff.mp h
    have hmove := MutexMove.acquirePark hlock false
    have hpeers := Peers.acquirePark hlock
    obtain ⟨-, rfl⟩ := acquirePark_spec hlock
    exact .of_worker hpc hpeers hmove (.keep _ _) rfl rfl
  | scan pc =>
    rw [parkStep] at h
    split at h <;> cases h <;>
      exact .of_worker hpc .refl (.keep _ _) (.keep _ _) rfl rfl
  | shutdown =>
    cases h
    split <;> exact .of_worker hpc .refl (.keep _ _) (.keep _ _) rfl rfl
  | wait | unlock =>
    cases h
    exact .of_worker hpc .releasePark (.release _) (.keep _ _) rfl rfl
  | asleep => cases h
  | lower =>
    cases h
    exact .of_worker hpc (hcount _) (.keep _ _) (.keep _ _) rfl rfl

theorem exitStep_turn {pc : ExitPC} (hpc : (s.workers i).pc = .exit pc)
    (h : exitStep s i pc = some s') : Turn (.worker i) s s' := by
  cases pc with
  | leave =>
    cases h
    have hpeers : Peers s { s with numThreadsAlive := s.numThreadsAlive - 1 } :=
      ⟨rfl, fun _ => .inl rfl, fun _ => .inl rfl, fun h => h⟩
    split <;> exact .of_worker hpc hpeers (.keep _ _) (.keep _ _) rfl rfl
  | lock =>
    obtain ⟨s₁, hlock, rfl⟩ := Option.map_eq_some_iff.mp h
    have hfree : (s.workers i).pc.Free := by
      rw [hpc]
      exact ⟨rfl, rfl, rfl, rfl⟩
    exact .lockIdle hlock hfree rfl rfl rfl rfl
  | broadcast =>
    cases h
    exact .of_worker hpc .broadcastIdle (.keep _ _) (.keep _ _) rfl rfl
  | unlock =>
    cases h
    exact .of_worker hpc .releaseIdle (.keep _ _) (.release _) rfl rfl
  | exited => cases h

/-- A worker goes on with the call of its task, or with the task. -/
theorem submitting_turn {task : Job α} {call : Call (Job α)}
    {o : Outcome (Call (Job α)) (List (Job α))} (hpc : (s.workers i).pc = .submitting task call)
    (h : Errand (.worker i) s call.holdsPark s₁ o.holdsPark) :
    Turn (.worker i) s ((s₁.accept o.reported).setPc i (resume task o)) := by
  have hpeers : Peers s (s₁.accept o.reported) :=
    ⟨h.peers.numWorkers, h.peers.workers, h.peers.clients, h.peers.gq⟩
  -- `park_lock` is held inside of `unpark_one` only, never when the call has returned
  have hflag : (resume task o).holdsPark = o.holdsPark := by
    cases o <;> rfl
  have hidle : (resume task o).holdsIdle = false := by
    cases o <;> rfl
  have hparked : (resume task o).isParked = false := by
    cases o <;> rfl
  refine .of_worker hpc hpeers ?_ (.of_eq h.idle hidle) ?_ ?_
  · show MutexMove _ _ _ _ (resume task o).holdsPark
    rw [hflag]
    exact h.park
  · show s₁.numParked = s.numParked + (resume task o).isParked.toNat - 0
    rw [hparked, h.parked]
    rfl
  · show s₁.numActive = s.numActive + (resume task o).isActive.toNat - 1
    rw [resume_active, h.active]
    rfl

theorem workerStep_turn {woken : Nat} (h : workerStep s i woken = some s') :
    Turn (.worker i) s s' := by
  have hplain : ∀ pc : WorkerPC (Job α), (s.workers i).pc.Free → pc.Free →
      Turn (.worker i) s (s.setPc i pc) :=
    fun _ hbefore hafter => .free hbefore hafter .refl ⟨rfl, rfl⟩ ⟨rfl, rfl⟩
  unfold workerStep at h
  split at h
  · next pc hpc =>
    cases h
    exact startStep_turn hpc
  · next hpc =>
    cases h
    refine hplain _ (by rw [hpc]; exact ⟨rfl, rfl, rfl, rfl⟩) ?_
    split <;> exact ⟨rfl, rfl, rfl, rfl⟩
  · next pc hpc =>
    cases h
    exact popAccess_turn hpc
  · next start k pc hpc =>
    cases h
    exact stealAccess_turn hpc
  · next hpc =>
    cases h
    exact pullAccess_turn hpc
  · next hpc =>
    cases h
    refine spinOrPark_turn ?_ .refl ⟨rfl, rfl⟩ ⟨rfl, rfl⟩
    rw [hpc]
    exact ⟨rfl, rfl, rfl, rfl⟩
  · next first rest pc hpc =>
    cases h
    exact unloadAccess_turn hpc
  · next first rest hpc =>
    cases h
    exact spillAccess_turn hpc
  · next task hpc =>
    cases h
    exact executeStep_turn hpc
  · cases h
  · next task call hpc =>
    obtain ⟨⟨s₁, o⟩, hstep, rfl⟩ := Option.map_eq_some_iff.mp h
    have hturn := submitting_turn hpc (workerCallStep_errand hstep)
    cases o with
    | more call' =>
      rw [Outcome.reported, accept_nil] at hturn
      exact hturn
    | done accepted => exact hturn
  · next hpc =>
    cases h
    exact retireStep_turn hpc
  · next pc hpc => exact idleStep_turn hpc h
  · next pc hpc => exact parkStep_turn hpc h
  · next pc hpc => exact exitStep_turn hpc h

/-! ## Clients -/

section

variable [DecidableEq K] {k : K}

/-- A step of client `k` that acquires `idle_lock`. -/
theorem Turn.lockIdleClient {pc pc' : ClientPC (Job α)} (hpc : s.clients k = pc)
    (hlock : acquireIdle s (.client k) = some s₁) (hpark : pc'.holdsPark = pc.holdsPark)
    (hidle : pc'.holdsIdle = true) : Turn (.client k) s (s₁.setClient k pc') := by
  have hmove := MutexMove.acquireIdle hlock pc.holdsIdle
  have hpeers := Peers.acquireIdle hlock
  obtain ⟨-, rfl⟩ := acquireIdle_spec hlock
  refine .of_client hpc hpeers (.of_eq rfl hpark) ?_ rfl rfl
  rw [hidle]
  exact hmove

theorem waitStep_turn {pc : WaitPC} (hpc : s.clients k = .waiting pc)
    (h : waitStep s k pc = some s') : Turn (.client k) s s' := by
  cases pc with
  | lock | relock =>
    obtain ⟨s₁, hlock, rfl⟩ := Option.map_eq_some_iff.mp h
    exact .lockIdleClient hpc hlock rfl rfl
  | load =>
    cases h
    split <;> exact .of_client hpc .refl (.keep _ _) (.keep _ _) rfl rfl
  | scan pc =>
    rw [waitStep] at h
    split at h <;> cases h <;> exact .of_client hpc .refl (.keep _ _) (.keep _ _) rfl rfl
  | wait | unlock =>
    cases h
    exact .of_client hpc .releaseIdle (.keep _ _) (.release _) rfl rfl
  | asleep => cases h

theorem destroyStep_turn {pc : DestroyPC} (hpc : s.clients k = .destroying pc)
    (h : destroyStep s k pc = some s') : Turn (.client k) s s' := by
  have hmove : ∀ pc' : ClientPC (Job α), pc'.holdsPark = (s.clients k).holdsPark →
      pc'.holdsIdle = (s.clients k).holdsIdle → Turn (.client k) s (s.setClient k pc') :=
    fun _ hpark hidle => .of_client rfl .refl (.of_eq rfl hpark) (.of_eq rfl hidle) rfl rfl
  rw [hpc] at hmove
  have hdown : Peers s { s with shutdown := true } :=
    ⟨rfl, fun _ => .inl rfl, fun _ => .inl rfl, fun h => h⟩
  cases pc with
  | lock | relock =>
    obtain ⟨s₁, hlock, rfl⟩ := Option.map_eq_some_iff.mp h
    exact .lockIdleClient hpc hlock rfl rfl
  | scan pc =>
    rw [destroyStep] at h
    split at h <;> cases h <;> exact hmove _ rfl rfl
  | load anyWork =>
    cases h
    refine hmove _ ?_ ?_ <;> split <;> rfl
  | wait | unlock =>
    cases h
    exact .of_client hpc .releaseIdle (.keep _ _) (.release _) rfl rfl
  | asleep | returned => cases h
  | shutdown =>
    cases h
    exact .of_client hpc hdown (.keep _ _) (.keep _ _) rfl rfl
  | parkLock =>
    obtain ⟨s₁, hlock, rfl⟩ := Option.map_eq_some_iff.mp h
    have hacquire := MutexMove.acquirePark hlock false
    have hpeers := Peers.acquirePark hlock
    obtain ⟨-, rfl⟩ := acquirePark_spec hlock
    exact .of_client hpc hpeers hacquire (.keep _ _) rfl rfl
  | broadcast =>
    cases h
    exact .of_client hpc .broadcastWork (.keep _ _) (.keep _ _) rfl rfl
  | parkUnlock =>
    cases h
    exact .of_client hpc .releasePark (.release _) (.keep _ _) rfl rfl
  | await =>
    rw [destroyStep] at h
    split at h <;> cases h
    · have hself : s.setClient k (s.clients k) = s := by
        rw [Pool.setClient, Function.update_eq_self]
      have hstay := hmove (s.clients k) (by rw [hpc]) (by rw [hpc])
      rwa [hself] at hstay
    · exact hmove _ rfl rfl
  | join i =>
    rw [destroyStep] at h
    split at h
    · split at h <;> cases h
      exact hmove _ rfl rfl
    · cases h
      exact hmove _ rfl rfl

theorem clientStep_turn {woken : Nat} (h : clientStep s k woken = some s') :
    Turn (.client k) s s' := by
  cases clientStep_cases h with
  | more hpc hstep =>
    have herrand := sharedCallStep_errand hstep
    exact .of_client hpc herrand.peers herrand.park (.of_eq herrand.idle rfl) herrand.parked
      herrand.active
  | @done call accepted s₁ hpc hstep =>
    have herrand := sharedCallStep_errand hstep
    have hpeers : Peers s (s₁.accept accepted) :=
      ⟨herrand.peers.numWorkers, herrand.peers.workers, herrand.peers.clients, herrand.peers.gq⟩
    exact .of_client hpc hpeers herrand.park (.of_eq herrand.idle rfl) herrand.parked
      herrand.active
  | waiting hpc hstep => exact waitStep_turn hpc hstep
  | destroying hpc hstep => exact destroyStep_turn hpc hstep

/-! ## Every step -/

theorem queueNext_flags (pushed rest : List α) (call : Call α)
    (h : queueNext pushed rest = .more call) : call.holdsPark = false := by
  have hflag := holdsPark_queueNext pushed rest
  rw [h] at hflag
  exact hflag

/-- A call begins outside of `park_lock`. -/
theorem clientCall_flags {serial : Nat} {request : Request α} {call : Call (Job α)}
    (h : clientCall serial request = .more call) : call.holdsPark = false := by
  cases request with
  | submit task =>
    cases h
    rfl
  | submitBatch tasks alloc =>
    rw [clientCall] at h
    split at h
    · exact queueNext_flags _ _ _ h
    · cases h

theorem workerCall_flags {serial : Nat} {request : Request α} {call : Call (Job α)}
    (h : workerCall serial request = .more call) : call.holdsPark = false := by
  cases request with
  | submit task =>
    cases h
    rfl
  | submitBatch tasks alloc =>
    have hflag := holdsPark_pushNext [] (Request.jobs serial (.submitBatch tasks alloc)) alloc
    rw [workerCall] at h
    rw [h] at hflag
    exact hflag

theorem beginSubmit_turn (hpc : s.clients k = .idle) (request : Request α) :
    Turn (.client k) s (beginSubmit s k request) := by
  have hserial : ∀ n, Peers s { s with serial := n } :=
    fun n => ⟨rfl, fun _ => .inl rfl, fun _ => .inl rfl, fun h => h⟩
  unfold beginSubmit
  split
  · next call hcall =>
    exact .of_client hpc (hserial _) (.of_eq rfl (clientCall_flags hcall)) (.keep _ _) rfl rfl
  · exact ⟨rfl, fun _ _ => .inl rfl, fun _ _ => .inl rfl, .keep _ _, .keep _ _, rfl,
      rfl, fun h => h⟩

omit [DecidableEq K] in
theorem beginTask_turn {task : Job α} (hpc : (s.workers i).pc = .running task)
    (request : Request α) : Turn (.worker i) s (beginTask s i task request) := by
  have hserial : ∀ n, Peers s { s with serial := n } :=
    fun n => ⟨rfl, fun _ => .inl rfl, fun _ => .inl rfl, fun h => h⟩
  unfold beginTask
  split
  · next call hcall =>
    exact .of_worker hpc (hserial _) (.of_eq rfl (workerCall_flags hcall)) (.keep _ _) rfl rfl
  · refine ⟨rfl, fun _ _ => .inl rfl, fun _ _ => .inl rfl, .keep _ _, .keep _ _, ?_, ?_, fun h => h⟩
    · exact (Nat.add_sub_cancel ..).symm
    · exact (Nat.add_sub_cancel ..).symm

/-- Every step of a thread. -/
theorem perform_turn {a : PoolAct K α} {t : Thread K} (ht : a.thread = some t)
    (h : s.perform a = some s') : Turn t s s' := by
  cases perform_cases h with
  | worker hlt hstep =>
    cases ht
    exact workerStep_turn hstep
  | task hpc request =>
    cases ht
    exact beginTask_turn hpc request
  | @finish i task hpc =>
    cases ht
    have hpeers : Peers s { s with finished := s.finished ++ [task] } :=
      ⟨rfl, fun _ => .inl rfl, fun _ => .inl rfl, fun h => h⟩
    exact .of_worker hpc hpeers (.keep _ _) (.keep _ _) rfl rfl
  | submit hpc request =>
    cases ht
    exact beginSubmit_turn hpc request
  | wait hpc =>
    cases ht
    exact .of_client hpc .refl (.keep _ _) (.keep _ _) rfl rfl
  | destroy hpc =>
    cases ht
    have hpeers : Peers s { s with due := s.accepted } :=
      ⟨rfl, fun _ => .inl rfl, fun _ => .inl rfl, fun h => h⟩
    exact .of_client hpc hpeers (.keep _ _) (.keep _ _) rfl rfl
  | client hstep =>
    cases ht
    exact clientStep_turn hstep
  | wakeWorker | wakeClient => cases ht

/-- A thread that wakes up by itself changes nothing else. -/
structure Woken (s s' : Pool K α) : Prop where
  peers : Peers s s'
  parkLock : s'.parkLock = s.parkLock
  idleLock : s'.idleLock = s.idleLock
  numParked : s'.numParked = s.numParked
  numActive : s'.numActive = s.numActive
  gq : s'.gq = s.gq
  deques : ∀ j, (s'.workers j).deque = (s.workers j).deque

theorem perform_woken {a : PoolAct K α} (ht : a.thread = none) (h : s.perform a = some s') :
    Woken s s' := by
  cases perform_cases h with
  | wakeWorker i =>
    refine ⟨.setPc_wake i, rfl, rfl, rfl, rfl, rfl, fun j => ?_⟩
    by_cases hj : j = i
    · subst hj
      rw [Pool.setPc, workers_setWorker]
    · rw [Pool.setPc, workers_setWorker_ne _ hj]
  | wakeClient k =>
    refine ⟨⟨rfl, fun _ => .inl rfl, fun k' => ?_, fun h => h⟩, rfl, rfl, rfl, rfl, rfl,
      fun _ => rfl⟩
    by_cases hk : k' = k
    · subst hk
      right
      rw [clients_setClient]
    · left
      rw [clients_setClient_ne _ hk]
  | worker | task | finish | submit | wait | destroy | client => cases ht

end

/-! ## Every run -/

theorem flags_of_woken {pc pc' : WorkerPC α} (h : pc' = pc ∨ pc' = pc.wake) :
    pc'.holdsPark = pc.holdsPark ∧ pc'.holdsIdle = pc.holdsIdle ∧ pc'.isParked = pc.isParked ∧
      pc'.isActive = pc.isActive := by
  rcases h with rfl | rfl
  · exact ⟨rfl, rfl, rfl, rfl⟩
  · exact ⟨holdsPark_wake pc, holdsIdle_wake pc, isParked_wake pc, isActive_wake pc⟩

theorem ClientPC.flags_of_woken {pc pc' : ClientPC α} (h : pc' = pc ∨ pc' = pc.wake) :
    pc'.holdsPark = pc.holdsPark ∧ pc'.holdsIdle = pc.holdsIdle := by
  rcases h with rfl | rfl
  · exact ⟨rfl, rfl⟩
  · exact ⟨holdsPark_wake pc, holdsIdle_wake pc⟩

/-- A thread that is where it was, or has been woken up, holds what it held. -/
theorem holds_eq {u : Thread K}
    (hworkers : ∀ j, u = .worker j →
      (s'.workers j).pc = (s.workers j).pc ∨ (s'.workers j).pc = (s.workers j).pc.wake)
    (hclients : ∀ k, u = .client k →
      s'.clients k = s.clients k ∨ s'.clients k = (s.clients k).wake) :
    s'.holdsPark u = s.holdsPark u ∧ s'.holdsIdle u = s.holdsIdle u := by
  cases u with
  | worker j =>
    obtain ⟨hpark, hidle, -⟩ := flags_of_woken (hworkers j rfl)
    exact ⟨hpark, hidle⟩
  | client k => exact ClientPC.flags_of_woken (hclients k rfl)

theorem spare_of_woken (h : s.Spare) (hn : s'.numWorkers = s.numWorkers)
    (hworkers : ∀ j, s.numWorkers ≤ j →
      (s'.workers j).pc = (s.workers j).pc ∨ (s'.workers j).pc = (s.workers j).pc.wake) :
    s'.Spare := by
  intro j hj
  rw [hn] at hj
  rcases hworkers j hj with heq | heq
  · rw [heq, h j hj]
  · rw [heq, h j hj]
    rfl

theorem Pool.Locked.woken (hl : s.Locked) (h : Woken s s') : s'.Locked := by
  obtain ⟨hpeers, hparkLock, hidleLock, hnumParked, hnumActive, -, -⟩ := h
  have hholds : ∀ u, s'.holdsPark u = s.holdsPark u ∧ s'.holdsIdle u = s.holdsIdle u :=
    fun u => holds_eq (fun j _ => hpeers.workers j) (fun k _ => hpeers.clients k)
  constructor
  · rw [hpeers.numWorkers]
    exact hl.pos
  · intro u
    rw [(hholds u).1, hparkLock]
    exact hl.park u
  · intro u
    rw [(hholds u).2, hidleLock]
    exact hl.idle u
  · rw [hnumParked, hpeers.numWorkers, hl.parked]
    exact slotCount_congr fun j _ => (flags_of_woken (hpeers.workers j)).2.2.1.symm
  · rw [hnumActive, hpeers.numWorkers, hl.active]
    exact slotCount_congr fun j _ => (flags_of_woken (hpeers.workers j)).2.2.2.symm
  · exact hpeers.gq hl.gq
  · exact spare_of_woken hl.spare hpeers.numWorkers fun j _ => hpeers.workers j

/-- What one step of thread `t` preserves. -/
theorem Pool.Locked.turn {t : Thread K} (hl : s.Locked) (h : Turn t s s')
    (hlt : ∀ j, t = .worker j → j < s.numWorkers) : s'.Locked := by
  have hholds : ∀ u, u ≠ t → s'.holdsPark u = s.holdsPark u ∧ s'.holdsIdle u = s.holdsIdle u := by
    intro u hu
    refine holds_eq (fun j hj => h.workers j ?_) (fun k hk => h.clients k ?_)
    · rw [← hj]
      exact hu.symm
    · rw [← hk]
      exact hu.symm
  have hothers : ∀ i, t = .worker i → ∀ j, j ≠ i → (s'.workers j).pc = (s.workers j).pc ∨
      (s'.workers j).pc = (s.workers j).pc.wake := by
    rintro i rfl j hj
    refine h.workers j fun heq => hj ?_
    cases heq
    rfl
  -- a client is not counted
  have hclient : ∀ k, t = .client k → ∀ j, (s'.workers j).pc = (s.workers j).pc ∨
      (s'.workers j).pc = (s.workers j).pc.wake := by
    rintro k rfl j
    exact h.workers j nofun
  refine ⟨h.numWorkers.symm ▸ hl.pos, hl.park.step h.park fun u hu => (hholds u hu).1,
    hl.idle.step h.idle fun u hu => (hholds u hu).2, ?_, ?_, h.gq hl.gq, ?_⟩
  · rw [h.numWorkers]
    cases t with
    | worker i =>
      exact slotCount_step hl.parked (hlt i rfl)
        (fun j hj => (flags_of_woken (hothers i rfl j hj)).2.2.1) h.parked
    | client k =>
      refine h.parked.trans (hl.parked.trans (slotCount_congr fun j _ => ?_))
      exact (flags_of_woken (hclient k rfl j)).2.2.1.symm
  · rw [h.numWorkers]
    cases t with
    | worker i =>
      exact slotCount_step hl.active (hlt i rfl)
        (fun j hj => (flags_of_woken (hothers i rfl j hj)).2.2.2) h.active
    | client k =>
      refine h.active.trans (hl.active.trans (slotCount_congr fun j _ => ?_))
      exact (flags_of_woken (hclient k rfl j)).2.2.2.symm
  · refine spare_of_woken hl.spare h.numWorkers fun j hj => h.workers j fun heq => ?_
    exact absurd (hlt j heq) (Nat.not_lt_of_le hj)

theorem locked_create (numThreads : Nat) (tasks : Nat → Nat → Job α) (gqTasks : Nat → Job α) :
    (threadpoolCreate K numThreads tasks gqTasks).Locked := by
  have hfree : ∀ t, (threadpoolCreate K numThreads tasks gqTasks).holdsPark t = false ∧
      (threadpoolCreate K numThreads tasks gqTasks).holdsIdle t = false := by
    intro t
    cases t <;> exact ⟨rfl, rfl⟩
  constructor
  · show 0 < if numThreads = 0 then 1 else numThreads
    split_ifs with h
    · exact Nat.one_pos
    · exact Nat.pos_of_ne_zero h
  · intro t
    rw [(hfree t).1]
    exact ⟨nofun, nofun⟩
  · intro t
    rw [(hfree t).2]
    exact ⟨nofun, nofun⟩
  · exact (slotCount_eq_zero fun _ _ => rfl).symm
  · exact (slotCount_eq_zero fun _ _ => rfl).symm
  · exact gqInit_valid gqTasks
  · exact fun _ _ => rfl

variable [DecidableEq K]

/-- Only the entries below `numWorkers` make steps. -/
theorem Pool.Locked.thread_lt {a : PoolAct K α} (hl : s.Locked) (h : s.perform a = some s')
    (j : Nat) (ht : a.thread = some (.worker j)) : j < s.numWorkers := by
  by_contra hge
  have hj := Nat.le_of_not_lt hge
  exact thread_ne hj (hl.spare j hj) h ht

theorem perform_locked {a : PoolAct K α} (hl : s.Locked) (h : s.perform a = some s') :
    s'.Locked := by
  match ht : a.thread with
  | none => exact hl.woken (perform_woken ht h)
  | some t =>
    refine hl.turn (perform_turn ht h) fun j hj => hl.thread_lt h j ?_
    rw [ht, hj]

/-- The locks and counters are right in every run. -/
theorem reach_locked {numThreads : Nat} {cond : Pool K α → PoolAct K α → Prop}
    (h : Reach (threadpool K α numThreads) cond s) : s.Locked := by
  refine Reach.invariant Pool.Locked ?_ ?_ h
  · rintro s ⟨tasks, gqTasks, rfl⟩
    exact locked_create numThreads tasks gqTasks
  · intro s a s' hl _ hstep
    exact perform_locked hl hstep.2

end Solidc.Threadpool
