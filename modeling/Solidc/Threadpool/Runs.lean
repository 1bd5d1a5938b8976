import Solidc.Threadpool.Submitting

/-! # Runs of the pool

Every step keeps the invariants and moves tasks by one `Flow.Move`; so in every run each
task that entered a queue is at exactly one place.

* `perform_advance` — every step of the pool but the call of `threadpool_destroy` advances;
* `Pool.Consistent` — the invariants together, kept by every step and so true in every
  reachable state (`reach_consistent`).
-/

namespace Solidc.Threadpool

open CLib

variable {K α : Type*} [DecidableEq K] {s s' : Pool K α} {k : K}

/-! ## Waiting and destroying -/

theorem waitStep_advance (hi : PoolInv s) (ha : Accounts s) {pc : WaitPC}
    (hpc : s.clients k = .waiting pc) (h : waitStep s k pc = some s') :
    Advance (some (.client k)) s .inside s' := by
  have hcall : none = (s.clients k).call? := by
    rw [hpc]
    rfl
  cases pc with
  | lock | relock =>
    obtain ⟨s₁, hlock, rfl⟩ := Option.map_eq_some_iff.mp h
    exact setClient_quiet hi ha (acquireIdle_plain hlock) _ hcall
  | scan pc =>
    rw [waitStep] at h
    split at h <;> cases h
    · exact setClient_quiet hi ha (by rfl) _ hcall
    · exact setClient_quiet hi ha (by rfl) _ hcall
    · exact setClient_quiet hi ha (by rfl) _ hcall
  | asleep => cases h
  | load | wait | unlock =>
    cases h
    exact setClient_quiet hi ha (by rfl) _ hcall

theorem destroyStep_advance (hi : PoolInv s) (ha : Accounts s) {pc : DestroyPC}
    (hpc : s.clients k = .destroying pc) (h : destroyStep s k pc = some s') :
    Advance (some (.client k)) s .inside s' := by
  have hcall : none = (s.clients k).call? := by
    rw [hpc]
    rfl
  cases pc with
  | lock | relock =>
    obtain ⟨s₁, hlock, rfl⟩ := Option.map_eq_some_iff.mp h
    exact setClient_quiet hi ha (acquireIdle_plain hlock) _ hcall
  | parkLock =>
    obtain ⟨s₁, hlock, rfl⟩ := Option.map_eq_some_iff.mp h
    exact setClient_quiet hi ha (acquirePark_plain hlock) _ hcall
  | scan pc =>
    rw [destroyStep] at h
    split at h <;> cases h
    · exact setClient_quiet hi ha (by rfl) _ hcall
    · exact setClient_quiet hi ha (by rfl) _ hcall
  | broadcast =>
    cases h
    have hframe : Frame (some (.client k)) s (broadcastWork s) :=
      ⟨rfl, rfl, fun j _ => .inr rfl, nofun, fun k' _ => .inl rfl⟩
    refine .quiet (hframe.setClient _) hi ha rfl nofun ?_
    intro k' hk'
    cases hk'
    rw [clients_setClient]
    exact hcall
  | await =>
    rw [destroyStep] at h
    split at h <;> cases h
    · refine .quiet (.of_plain rfl nofun) hi ha rfl nofun ?_
      exact fun k' _ => rfl
    · exact setClient_quiet hi ha (by rfl) _ hcall
  | join i =>
    rw [destroyStep] at h
    split at h
    · split at h <;> cases h
      exact setClient_quiet hi ha (by rfl) _ hcall
    · cases h
      exact setClient_quiet hi ha (by rfl) _ hcall
  | asleep | returned => cases h
  | load | wait | shutdown | unlock | parkUnlock =>
    cases h
    exact setClient_quiet hi ha (by rfl) _ hcall

/-! ## Every step -/

/-- The thread that makes an action; waking up is not a step of a thread. -/
def PoolAct.thread : PoolAct K α → Option (Thread K)
  | .worker i _ | .task i _ | .finish i => some (.worker i)
  | .submit k _ | .wait k | .destroy k | .client k _ => some (.client k)
  | .wakeWorker _ | .wakeClient _ => none

/-- What a label says about the action. -/
def Pool.Causes (s : Pool K α) (a : PoolAct K α) : Label → Prop
  | .inside => True
  | .dequeue => ∃ i woken, a = .worker i woken ∧ s.takes i
  | .outside => ∃ k woken call, a = .client k woken ∧ s.clients k = .submitting call

/-- The entries of `workers` that are not used. -/
def Pool.Spare (s : Pool K α) : Prop := ∀ j, s.numWorkers ≤ j → (s.workers j).pc = .start .arrive

omit [DecidableEq K] in
theorem workerStep_advance {i woken : Nat} (hi : PoolInv s) (ha : Accounts s) (hroom : s.Roomy)
    (hlt : i < s.numWorkers) (h : workerStep s i woken = some s') :
    ∃ l, Advance (some (.worker i)) s l s' ∧ s.Causes (.worker i woken) l := by
  have hinside : Advance (some (.worker i)) s .inside s' →
      ∃ l, Advance (some (.worker i)) s l s' ∧ s.Causes (.worker i woken) l :=
    fun hadv => ⟨.inside, hadv, trivial⟩
  have hcauses : (∃ l, Advance (some (.worker i)) s l s' ∧ s.Labelled i l) →
      ∃ l, Advance (some (.worker i)) s l s' ∧ s.Causes (.worker i woken) l := by
    rintro ⟨l, hadv, hlabel⟩
    refine ⟨l, hadv, ?_⟩
    cases l with
    | inside => trivial
    | outside => exact hlabel.elim
    | dequeue => exact ⟨i, woken, rfl, hlabel⟩
  unfold workerStep at h
  split at h
  · next pc hpc =>
    cases h
    exact hinside (startStep_advance hi ha hpc)
  · next hpc =>
    cases h
    exact hinside (checkStep_advance hi ha hlt hpc)
  · next pc hpc =>
    cases h
    exact hcauses (popAccess_advance hi ha hroom hlt hpc)
  · next origin k pc hpc =>
    cases h
    exact hcauses (stealAccess_advance hi ha hroom hlt hpc)
  · next hpc =>
    cases h
    exact hcauses (pullAccess_advance hi ha hlt hpc)
  · next hpc =>
    cases h
    exact hinside (spinOrPark_advance hi ha hpc)
  · next first rest pc hpc =>
    cases h
    exact hinside (unloadAccess_advance hi ha hroom hlt hpc)
  · next first rest hpc =>
    -- a batch always fits, so that nothing is handed back
    have hown := hi.own i
    unfold Worker.OwnOk at hown
    rw [hpc] at hown
    exact hown.elim
  · next task hpc =>
    cases h
    exact hinside (executeStep_advance hi ha hlt hpc)
  · cases h
  · next task call hpc =>
    obtain ⟨⟨s₁, o⟩, hstep, rfl⟩ := Option.map_eq_some_iff.mp h
    have hadv := workerCallStep_advance hi ha hroom hlt hpc hstep
    cases o with
    | more call' =>
      rw [Outcome.reported, accept_nil] at hadv
      exact hinside hadv
    | done accepted => exact hinside hadv
  · next hpc =>
    cases h
    exact hinside (retireStep_advance hi ha hlt hpc)
  · next pc hpc => exact hinside (idleStep_advance hi ha hpc h)
  · next pc hpc => exact hinside (parkStep_advance hi ha hpc h)
  · next pc hpc => exact hinside (exitStep_advance hi ha hpc h)

/-! ## What an action is -/

/-- The step of client `k`, by what the client is doing. -/
inductive ClientStepped (s : Pool K α) (k : K) (woken : Nat) : Pool K α → Prop
  | more {call call' : Call (Job α)} {s₁ : Pool K α} (hpc : s.clients k = .submitting call)
      (hstep : sharedCallStep s (.client k) woken call = some (s₁, .more call')) :
      ClientStepped s k woken (s₁.setClient k (.submitting call'))
  | done {call : Call (Job α)} {accepted : List (Job α)} {s₁ : Pool K α}
      (hpc : s.clients k = .submitting call)
      (hstep : sharedCallStep s (.client k) woken call = some (s₁, .done accepted)) :
      ClientStepped s k woken ((s₁.accept accepted).setClient k .idle)
  | waiting {pc : WaitPC} {s' : Pool K α} (hpc : s.clients k = .waiting pc)
      (hstep : waitStep s k pc = some s') : ClientStepped s k woken s'
  | destroying {pc : DestroyPC} {s' : Pool K α} (hpc : s.clients k = .destroying pc)
      (hstep : destroyStep s k pc = some s') : ClientStepped s k woken s'

theorem clientStep_cases {woken : Nat} (h : clientStep s k woken = some s') :
    ClientStepped s k woken s' := by
  match hpc : s.clients k with
  | .idle => simp [clientStep, hpc] at h
  | .submitting call =>
    simp only [clientStep, hpc] at h
    obtain ⟨⟨s₁, o⟩, hstep, rfl⟩ := Option.map_eq_some_iff.mp h
    cases o with
    | more call' => exact .more hpc hstep
    | done accepted => exact .done hpc hstep
  | .waiting pc =>
    simp only [clientStep, hpc] at h
    exact .waiting hpc h
  | .destroying pc =>
    simp only [clientStep, hpc] at h
    exact .destroying hpc h

/-- What an action of the pool is, its guard included. -/
inductive Performed (s : Pool K α) : PoolAct K α → Pool K α → Prop
  | worker {i woken : Nat} {s' : Pool K α} (hlt : i < s.numWorkers)
      (hstep : workerStep s i woken = some s') : Performed s (.worker i woken) s'
  | task {i : Nat} {task : Job α} (hpc : (s.workers i).pc = .running task) (request : Request α) :
      Performed s (.task i request) (beginTask s i task request)
  | finish {i : Nat} {task : Job α} (hpc : (s.workers i).pc = .running task) :
      Performed s (.finish i) ({ s with finished := s.finished ++ [task] }.setPc i .retire)
  | submit {k : K} (hpc : s.clients k = .idle) (request : Request α) :
      Performed s (.submit k request) (beginSubmit s k request)
  | wait {k : K} (hpc : s.clients k = .idle) :
      Performed s (.wait k) (s.setClient k (.waiting .lock))
  | destroy {k : K} (hpc : s.clients k = .idle) :
      Performed s (.destroy k) ({ s with due := s.accepted }.setClient k (.destroying .lock))
  | client {k : K} {woken : Nat} {s' : Pool K α} (hstep : clientStep s k woken = some s') :
      Performed s (.client k woken) s'
  | wakeWorker (i : Nat) : Performed s (.wakeWorker i) (s.setPc i (s.workers i).pc.wake)
  | wakeClient (k : K) : Performed s (.wakeClient k) (s.setClient k (s.clients k).wake)

theorem perform_cases {a : PoolAct K α} (h : s.perform a = some s') : Performed s a s' := by
  cases a with
  | worker i woken =>
    rw [Pool.perform] at h
    split at h
    · next hlt => exact .worker hlt h
    · cases h
  | task | finish | submit | wait | destroy =>
    rw [Pool.perform] at h
    split at h
    · next hpc =>
      cases h
      constructor
      exact hpc
    · cases h
  | client k woken => exact .client h
  | wakeWorker i =>
    cases h
    exact .wakeWorker i
  | wakeClient k =>
    cases h
    exact .wakeClient k

/-! ## Every step advances -/

theorem clientStep_advance {woken : Nat} (hi : PoolInv s) (ha : Accounts s)
    (h : clientStep s k woken = some s') :
    ∃ l, Advance (some (.client k)) s l s' ∧ s.Causes (.client k woken) l := by
  cases clientStep_cases h with
  | more hpc hstep | done hpc hstep =>
    exact ⟨.outside, clientCall_advance hi ha hpc h, k, woken, _, rfl, hpc⟩
  | waiting hpc hstep => exact ⟨.inside, waitStep_advance hi ha hpc hstep, trivial⟩
  | destroying hpc hstep => exact ⟨.inside, destroyStep_advance hi ha hpc hstep, trivial⟩

/-- Every step but the call of `threadpool_destroy` advances. -/
theorem perform_advance {a : PoolAct K α} (hi : PoolInv s) (ha : Accounts s) (hroom : s.Roomy)
    (hspare : s.Spare) (hne : ∀ k, a ≠ .destroy k) (h : s.perform a = some s') :
    ∃ l, Advance a.thread s l s' ∧ s.Causes a l := by
  have hlt : ∀ {i : Nat} {task : Job α}, (s.workers i).pc = .running task → i < s.numWorkers := by
    intro i task hpc
    by_contra hge
    rw [hspare i (Nat.le_of_not_lt hge)] at hpc
    cases hpc
  cases perform_cases h with
  | worker hlt hstep => exact workerStep_advance hi ha hroom hlt hstep
  | task hpc request => exact ⟨.inside, beginTask_advance hi ha (hlt hpc) hpc request, trivial⟩
  | finish hpc => exact ⟨.inside, finish_advance hi ha (hlt hpc) hpc, trivial⟩
  | submit hpc request => exact ⟨.inside, beginSubmit_advance hi ha hpc request, trivial⟩
  | wait hpc =>
    refine ⟨.inside, setClient_quiet hi ha (by rfl) _ ?_, trivial⟩
    rw [hpc]
    rfl
  | destroy hpc => exact absurd rfl (hne _)
  | client hstep => exact clientStep_advance hi ha hstep
  | wakeWorker i =>
    -- a spurious wakeup moves a sleeper only
    have hframe : Frame none s (s.setPc i (s.workers i).pc.wake) := by
      refine ⟨rfl, rfl, fun j _ => ?_, nofun, fun k _ => .inl rfl⟩
      by_cases hj : j = i
      · subst hj
        exact .inr (workers_setWorker _)
      · exact .inl (workers_setWorker_ne _ hj)
    exact ⟨.inside, .quiet hframe hi ha rfl nofun nofun, trivial⟩
  | wakeClient k =>
    have hframe : Frame none s (s.setClient k (s.clients k).wake) := by
      refine ⟨rfl, rfl, fun j _ => .inl rfl, nofun, fun k' _ => ?_⟩
      by_cases hk : k' = k
      · subst hk
        exact .inr (clients_setClient _)
      · exact .inl (clients_setClient_ne _ hk)
    exact ⟨.inside, .quiet hframe hi ha rfl nofun nofun, trivial⟩

/-- Where an action of client `k` leads it. -/
theorem perform_client {a : PoolAct K α} (ht : a.thread = some (.client k))
    (hne : a ≠ .destroy k) (h : s.perform a = some s') :
    (∃ woken pc, a = .client k woken ∧ s.clients k = .waiting pc ∧ waitStep s k pc = some s') ∨
      (∃ woken pc, a = .client k woken ∧ s.clients k = .destroying pc ∧
        destroyStep s k pc = some s') ∨
      s'.clients k = .idle ∨ (∃ call, s'.clients k = .submitting call) ∨
        s'.clients k = .waiting .lock := by
  cases perform_cases h with
  | submit hpc request =>
    cases ht
    unfold beginSubmit
    split
    · exact .inr (.inr (.inr (.inl ⟨_, clients_setClient _⟩)))
    · exact .inr (.inr (.inl hpc))
  | wait hpc =>
    cases ht
    exact .inr (.inr (.inr (.inr (clients_setClient _))))
  | destroy hpc =>
    cases ht
    exact absurd rfl hne
  | client hclient =>
    cases ht
    cases clientStep_cases hclient with
    | more hpc hstep => exact .inr (.inr (.inr (.inl ⟨_, clients_setClient _⟩)))
    | done hpc hstep => exact .inr (.inr (.inl (clients_setClient _)))
    | waiting hpc hstep => exact .inl ⟨_, _, rfl, hpc, hstep⟩
    | destroying hpc hstep => exact .inr (.inl ⟨_, _, rfl, hpc, hstep⟩)
  | worker | task | finish | wakeWorker | wakeClient => cases ht

theorem destroyStep_clients {pc : DestroyPC} (hpc : s.clients k = .destroying pc)
    (h : destroyStep s k pc = some s') : ∃ pc', s'.clients k = .destroying pc' := by
  cases pc with
  | lock | relock | parkLock =>
    obtain ⟨s₁, -, rfl⟩ := Option.map_eq_some_iff.mp h
    exact ⟨_, clients_setClient _⟩
  | scan pc =>
    rw [destroyStep] at h
    split at h <;> cases h <;> exact ⟨_, clients_setClient _⟩
  | await =>
    rw [destroyStep] at h
    split at h <;> cases h
    · exact ⟨_, hpc⟩
    · exact ⟨_, clients_setClient _⟩
  | join i =>
    rw [destroyStep] at h
    split at h
    · split at h <;> cases h
      exact ⟨_, clients_setClient _⟩
    · cases h
      exact ⟨_, clients_setClient _⟩
  | load | wait | shutdown | unlock | broadcast | parkUnlock =>
    cases h
    exact ⟨_, clients_setClient _⟩
  | asleep | returned => cases h

/-! ## Every run -/

/-- What holds in every state of a run. -/
structure Pool.Consistent (s : Pool K α) : Prop where
  inv : PoolInv s
  accounts : Accounts s
  spare : s.Spare
  sound : s.flow.Sound s.numWorkers

omit [DecidableEq K] in
theorem consistent_create (numThreads : Nat) (tasks : Nat → Nat → Job α) (gqTasks : Nat → Job α) :
    (threadpoolCreate K numThreads tasks gqTasks).Consistent := by
  have hholding : ∀ i,
      ((threadpoolCreate K numThreads tasks gqTasks).workers i).holding.all = [] := by
    intro i
    have hvisible : (dequeInit (tasks i)).visible = [] := visible_eq_nil (Nat.le_refl 0)
    have hclaimed : (dequeInit (tasks i)).claimed .idle = [] := claimed_eq_nil rfl
    show (dequeInit (tasks i)).visible ++ (dequeInit (tasks i)).claimed .idle ++ [] ++ [] = []
    rw [hvisible, hclaimed]
    rfl
  refine ⟨⟨?_, gqInit_valid gqTasks, fun j => ?_, fun i => trivial, ?_⟩, ?_, fun j _ => rfl, ?_⟩
  · show 0 < if numThreads = 0 then 1 else numThreads
    split_ifs with h
    · exact Nat.one_pos
    · exact Nat.pos_of_ne_zero h
  · exact ⟨Nat.le_refl 0, Nat.zero_le _, trivial, fun t => trivial⟩
  · exact (slotCount_eq_zero fun i _ => rfl).symm
  · have hpending : ∀ t, (threadpoolCreate K numThreads tasks gqTasks).pending t = [] := by
      intro t
      cases t <;> rfl
    have hplaced : ∀ t, (threadpoolCreate K numThreads tasks gqTasks).placed t = [] := by
      intro t
      cases t <;> rfl
    constructor
    · nofun
    · intro t x hx
      simp [hpending] at hx
    · intro t x hx
      simp [hpending] at hx
    · intro t
      simp [hpending]
    · intro t t' _ x hx
      simp [hpending] at hx
    · intro t x hx
      simp [hplaced] at hx
    · nofun
    · nofun
  · exact .empty (gqInit_content gqTasks) hholding rfl rfl

/-- The call of `threadpool_destroy` moves no task. -/
theorem destroy_consistent (hc : s.Consistent) (hpc : s.clients k = .idle) :
    Pool.Consistent ({ s with due := s.accepted }.setClient k (.destroying .lock)) where
  inv := hc.inv.quiet rfl hc.inv.gq (fun j => ⟨rfl, rfl⟩) rfl
  accounts := by
    have hcall : ∀ t, (Pool.setClient { s with due := s.accepted } k (.destroying .lock)).call? t =
        s.call? t := by
      intro t
      cases t with
      | worker i => rfl
      | client k' =>
        show (Pool.clients (Pool.setClient _ k (.destroying .lock)) k').call? = _
        by_cases hk : k' = k
        · subst hk
          rw [clients_setClient, Pool.call?, hpc]
          rfl
        · rw [clients_setClient_ne _ hk]
          rfl
    exact hc.accounts.keep hcall rfl rfl rfl fun x hx => .inr hx
  spare := hc.spare
  sound := hc.sound

/-- A spare entry makes no step. -/
theorem thread_ne {a : PoolAct K α} {j : Nat} (hj : s.numWorkers ≤ j)
    (hpc : (s.workers j).pc = .start .arrive) (h : s.perform a = some s') :
    a.thread ≠ some (.worker j) := by
  intro ht
  cases perform_cases h with
  | worker hlt hstep =>
    cases ht
    exact absurd hlt (Nat.not_lt_of_le hj)
  | task hrunning | finish hrunning =>
    cases ht
    rw [hpc] at hrunning
    cases hrunning
  | submit | wait | destroy | client | wakeWorker | wakeClient => cases ht

theorem perform_consistent {a : PoolAct K α} (hc : s.Consistent) (hroom : s.Roomy)
    (h : s.perform a = some s') : s'.Consistent := by
  by_cases hdestroy : ∃ k, a = .destroy k
  · obtain ⟨k, rfl⟩ := hdestroy
    cases perform_cases h with
    | destroy hpc => exact destroy_consistent hc hpc
  · obtain ⟨l, hadv, -⟩ := perform_advance hc.inv hc.accounts hroom hc.spare
      (fun k hk => hdestroy ⟨k, hk⟩) h
    refine ⟨hadv.inv, hadv.accounts, fun j hj => ?_, hadv.numWorkers ▸ hadv.move.sound hc.sound⟩
    rw [hadv.numWorkers] at hj
    have hpc := hc.spare j hj
    rcases hadv.workers j (thread_ne hj hpc h) with heq | heq
    · rw [heq, hpc]
    · rw [heq, hpc]
      rfl

/-- The invariants hold in every run in which no index comes near the end of `ptrdiff_t`. -/
theorem reach_consistent {numThreads : Nat} {cond : Pool K α → PoolAct K α → Prop}
    (hcond : ∀ s a, cond s a → s.Roomy) (h : Reach (threadpool K α numThreads) cond s) :
    s.Consistent := by
  refine Reach.invariant Pool.Consistent ?_ ?_ h
  · rintro s ⟨tasks, gqTasks, rfl⟩
    exact consistent_create numThreads tasks gqTasks
  · intro s a s' hc ha hstep
    exact perform_consistent hc (hcond s a ha) hstep.2

/-! ## Runs of a pool with one client -/

def ClientPC.isReturned : ClientPC α → Bool
  | .destroying .returned => true
  | _ => false

omit [DecidableEq K] in
theorem ClientPC.eq_returned {pc : ClientPC α} (h : pc.isReturned = true) :
    pc = .destroying .returned := by
  unfold isReturned at h
  split at h
  · rfl
  · cases h

def ClientPC.isDestroying : ClientPC α → Bool
  | .destroying _ => true
  | _ => false

def Pool.isAllowed (s : Pool Unit α) : PoolAct Unit α → Bool
  | .destroy _ => !(s.clients ()).isDestroying
  | _ => !(s.clients ()).isReturned

/-- The next state, if the action is allowed. -/
def performAllowed (s : Pool Unit α) (a : PoolAct Unit α) : Option (Pool Unit α) :=
  if s.isAllowed a then s.perform a else none

theorem performAllowed_step {s s' : Pool Unit α} {a : PoolAct Unit α}
    (h : performAllowed s a = some s') : s.allowed a ∧ s.perform a = some s' := by
  unfold performAllowed at h
  split at h
  · next hallowed =>
    refine ⟨?_, h⟩
    cases a with
    | destroy k =>
      intro k pc hpc
      rw [Pool.isAllowed, hpc] at hallowed
      cases hallowed
    | worker | task | finish | submit | wait | client | wakeWorker | wakeClient =>
      intro k hpc
      rw [Pool.isAllowed, hpc] at hallowed
      · cases hallowed
      · nofun
  · cases h

end Solidc.Threadpool
