import Solidc.Threadpool.Steps

/-! # Submit calls

A submit call puts its tasks into a queue one after the other and reports those it has put
in. The steps on the global queue are the same for workers and for other threads; a worker
tries its own deque first.

* `Puts` — what one step of a call puts in, and what remains;
* `sharedCallStep_spec` — the steps on the global queue;
* `clientCall_advance`, `workerCallStep_advance` — a step of a client's and a worker's call;
* `beginSubmit_advance`, `beginTask_advance` — a call begins.
-/

namespace Solidc.Threadpool

open CLib

variable {K α : Type*} {s s' : Pool K α}

/-! ## One step of a call -/

/-- The call that goes on, if it does. -/
def Outcome.call? : Outcome (Call α) (List α) → Option (Call α)
  | .more call => some call
  | .done _ => none

/-- The tasks that a call reports when it returns. -/
def Outcome.reported : Outcome (Call α) (List α) → List α
  | .more _ => []
  | .done accepted => accepted

def Outcome.pending (o : Outcome (Call α) (List α)) : List α := o.call?.elim [] Call.pending

/-- The tasks that a call has put in, reported or not. -/
def Outcome.placed (o : Outcome (Call α) (List α)) : List α :=
  o.call?.elim [] Call.placed ++ o.reported

/-- A step of `call` that puts the tasks `xs` into a queue. -/
structure Puts (call : Call α) (xs : List α) (o : Outcome (Call α) (List α)) : Prop where
  pending : (xs ++ o.pending).Sublist call.pending
  placed : ∀ x ∈ o.placed, x ∈ call.placed ∨ x ∈ xs

/-- What a call does to its worker's deque. -/
def Call.owner : Call α → Owner α
  | .push pc | .pushEach _ _ _ pc => .pushing pc
  | _ => .idle

/-- The call has not touched the deque since its last access of it ended. -/
def Outcome.Fresh (o : Outcome (Call α) (List α)) : Prop :=
  ∀ call, o = .more call → call.owner = .idle ∨ ∃ x, call.owner = .pushing (.loadBottom x)

theorem afterBatch_pending (pushed : List α) : (afterBatch pushed).pending = [] := by
  cases pushed <;> rfl

theorem afterBatch_placed (pushed : List α) : (afterBatch pushed).placed = pushed := by
  cases pushed with
  | nil => rfl
  | cons x pushed => exact List.append_nil _

theorem afterBatch_shared (pushed : List α) (call : Call α) (h : afterBatch pushed = .more call) :
    call.owner = .idle := by
  cases pushed <;> cases h
  rfl

theorem queueNext_pending (pushed rest : List α) : (queueNext pushed rest).pending = rest := by
  cases rest with
  | nil => exact afterBatch_pending pushed
  | cons x rest => rfl

theorem queueNext_placed (pushed rest : List α) : (queueNext pushed rest).placed = pushed := by
  cases rest with
  | nil => exact afterBatch_placed pushed
  | cons x rest => exact List.append_nil _

theorem queueNext_shared (pushed rest : List α) (call : Call α)
    (h : queueNext pushed rest = .more call) : call.owner = .idle := by
  cases rest with
  | nil => exact afterBatch_shared pushed call h
  | cons x rest =>
    cases h
    rfl

theorem pushNext_pending (pushed rest : List α) (alloc : Bool) :
    (pushNext pushed rest alloc).pending = rest := by
  cases rest with
  | nil => exact afterBatch_pending pushed
  | cons x rest => rfl

theorem pushNext_placed (pushed rest : List α) (alloc : Bool) :
    (pushNext pushed rest alloc).placed = pushed := by
  cases rest with
  | nil => exact afterBatch_placed pushed
  | cons x rest => exact List.append_nil _

theorem pushNext_fresh (pushed rest : List α) (alloc : Bool) :
    (pushNext pushed rest alloc).Fresh := by
  intro call h
  cases rest with
  | nil => exact .inl (afterBatch_shared pushed call h)
  | cons x rest =>
    cases h
    exact .inr ⟨x, rfl⟩

/-! ## The global queue -/

/-- What a step of a call on the global queue does to the pool: the tasks `xs` enter the
queue, and a worker may be woken up. -/
structure Enqueued (s s' : Pool K α) (xs : List (Job α)) : Prop where
  gq : s'.gq.Valid
  content : s'.gq.content = s.gq.content ++ xs
  tail : s'.gq.tail = s.gq.tail
  entered : s'.entered = s.entered ++ xs
  rest : { s' with gq := s.gq, entered := s.entered, workers := s.workers }.plain = s.plain
  workers : ∀ j, Bystander (s.workers j) (s'.workers j)

theorem Enqueued.of_plain (hgq : s.gq.Valid) (h : s'.plain = s.plain) : Enqueued s s' [] := by
  have hq : s'.plain.gq = s.plain.gq := by rw [h]
  have he : s'.plain.entered = s.plain.entered := by rw [h]
  have hw : s'.plain.workers = s.plain.workers := by rw [h]
  replace hq : s'.gq = s.gq := hq
  replace he : s'.entered = s.entered := he
  replace hw : s'.workers = s.workers := hw
  refine ⟨hq ▸ hgq, ?_, ?_, ?_, ?_, fun j => .inl (by rw [hw])⟩
  · rw [hq, List.append_nil]
  · rw [hq]
  · rw [he, List.append_nil]
  · rw [← hq, ← he, ← hw]
    exact h

theorem signalWork_enqueued {woken : Nat} (hgq : s.gq.Valid) (h : signalWork s woken = some s') :
    Enqueued s s' [] := by
  unfold signalWork at h
  split at h
  · cases h
    refine ⟨hgq, (List.append_nil _).symm, rfl, (List.append_nil _).symm, rfl, fun j => ?_⟩
    by_cases hj : j = woken
    · subst hj
      right
      exact workers_setWorker _
    · left
      exact workers_setWorker_ne _ hj
  · cases h

/-- A step of a submit call on the global queue, or of `unpark_one`. -/
theorem sharedCallStep_spec {t : Thread K} {woken : Nat} {call : Call (Job α)}
    {o : Outcome (Call (Job α)) (List (Job α))} (hgq : s.gq.Valid)
    (h : sharedCallStep s t woken call = some (s', o)) :
    ∃ xs, Enqueued s s' xs ∧ Puts call xs o ∧
      (∀ call', o = .more call' → call'.owner = .idle) ∧ call.owner = .idle := by
  have hsame : Enqueued s s [] := .of_plain hgq rfl
  cases call with
  | push pc => cases h
  | pushEach pushed rest alloc pc => cases h
  | queue x =>
    rw [sharedCallStep] at h
    split at h
    · split at h <;> cases h
      · exact ⟨[], hsame, ⟨List.nil_sublist _, nofun⟩, nofun, rfl⟩
      · refine ⟨[], hsame, ⟨List.Sublist.refl _, nofun⟩, ?_, rfl⟩
        intro call' hc
        -- the queue was full: the task is still in the caller's hand
        cases hc
        rfl
    · next hspace =>
      cases h
      rw [Bool.not_eq_true] at hspace
      refine ⟨[x], ⟨hgq.push x, content_push hgq hspace x, tail_push x, rfl, rfl,
        fun j => .inl rfl⟩,
        ⟨List.Sublist.refl _, fun y hy => .inr hy⟩, ?_, rfl⟩
      intro call' hc
      cases hc
      rfl
  | queueEach pushed rest =>
    rw [sharedCallStep] at h
    split at h
    · split at h <;> cases h
      · refine ⟨[], hsame, ⟨?_, fun x hx => .inl ?_⟩, afterBatch_shared pushed, rfl⟩
        · rw [afterBatch_pending]
          exact List.nil_sublist _
        · rwa [afterBatch_placed] at hx
      · refine ⟨[], hsame, ⟨List.Sublist.refl _, fun x hx => .inl ?_⟩, ?_, rfl⟩
        · rwa [Outcome.placed, Outcome.reported, List.append_nil] at hx
        · intro call' hc
          cases hc
          rfl
    · cases h
      -- the chunk copied is no longer than the room left
      have hfits : (rest.take (s.gq.chunk rest.length)).length ≤
          globalQSize - 1 - s.gq.occupancy :=
        Nat.le_trans (List.length_take_le _ _) (Nat.min_le_right _ _)
      obtain ⟨hvalid, hcontent⟩ := content_pushChunk hgq hfits
      refine ⟨_, ⟨hvalid, hcontent, rfl, rfl, rfl, fun j => .inl rfl⟩, ⟨?_, fun x hx => ?_⟩,
        queueNext_shared _ _, rfl⟩
      · rw [queueNext_pending, List.take_append_drop]
        exact List.Sublist.refl _
      · rw [queueNext_placed] at hx
        exact List.mem_append.mp hx
  | unpark accepted pc =>
    have hputs : ∀ {pc' : UnparkPC}, Puts (.unpark accepted pc) [] (.more (.unpark accepted pc')) :=
      ⟨List.Sublist.refl _, fun x hx => .inl ((List.append_nil accepted) ▸ hx)⟩
    have hdone : Puts (.unpark accepted pc) [] (.done accepted) :=
      ⟨List.Sublist.refl _, fun x hx => .inl hx⟩
    have hshared : ∀ {pc' : UnparkPC} (call' : Call (Job α)),
        (.more (.unpark accepted pc') : Outcome (Call (Job α)) (List (Job α))) = .more call' →
        call'.owner = .idle := by
      intro pc' call' hc
      cases hc
      rfl
    cases pc with
    | load =>
      rw [sharedCallStep] at h
      split at h <;> cases h
      · exact ⟨[], hsame, hputs, hshared, rfl⟩
      · exact ⟨[], hsame, hdone, nofun, rfl⟩
    | lock =>
      obtain ⟨s₁, hlock, heq⟩ := Option.map_eq_some_iff.mp h
      cases heq
      exact ⟨[], .of_plain hgq (acquirePark_plain hlock), hputs, hshared, rfl⟩
    | signal =>
      obtain ⟨s₁, hsignal, heq⟩ := Option.map_eq_some_iff.mp h
      cases heq
      exact ⟨[], signalWork_enqueued hgq hsignal, hputs, hshared, rfl⟩
    | unlock =>
      cases h
      exact ⟨[], .of_plain hgq rfl, hdone, nofun, rfl⟩

/-! ## The books -/

variable {t : Thread K} {call : Call (Job α)} {xs : List (Job α)}
  {o : Outcome (Call (Job α)) (List (Job α))}

theorem pending_of_call (h : s.call? t = some call) : s.pending t = call.pending := by
  rw [Pool.pending, h]
  rfl

theorem placed_of_call (h : s.call? t = some call) : s.placed t = call.placed := by
  rw [Pool.placed, h]
  rfl

/-- The books after a step of a call. -/
theorem Puts.accounts (hp : Puts call xs o) (ha : Accounts s) (hf : Frame (some t) s s')
    (hcall : s.call? t = some call) (hnext : s'.call? t = o.call?)
    (hserial : s'.serial = s.serial) (hentered : s'.entered = s.entered ++ xs)
    (haccepted : s'.accepted = s.accepted ++ o.reported) : Accounts s' := by
  have hpending : s'.pending t = o.pending := by
    rw [Pool.pending, hnext]
    rfl
  have hplaced : s'.placed t = o.call?.elim [] Call.placed := by
    rw [Pool.placed, hnext]
  refine ha.advance t xs hserial hentered (fun t' ht' => hf.call? t' ?_) ?_ ?_ ?_ ?_
  · exact fun hc => ht' (Option.some.inj hc).symm
  · rw [hpending, pending_of_call hcall]
    exact hp.pending
  · rw [hplaced, placed_of_call hcall]
    exact fun x hx => hp.placed x (List.mem_append_left _ hx)
  · rw [haccepted, placed_of_call hcall]
    intro x hx
    rcases List.mem_append.mp hx with hx | hx
    · exact .inl hx
    · exact .inr (hp.placed x (List.mem_append_right _ hx))
  · rw [hf.due]
    exact fun x hx => .inl hx

/-- What a step of a call puts in is new. -/
theorem Puts.new (hp : Puts call xs o) (ha : Accounts s) (hcall : s.call? t = some call) :
    (∀ x ∈ xs, x ∉ s.entered) ∧ xs.Nodup := by
  refine ha.new (t := t) ?_
  rw [pending_of_call hcall]
  exact (List.sublist_append_left xs _).trans hp.pending

/-! ## Clients -/

theorem Enqueued.eq (h : Enqueued s s' xs) :
    s'.numWorkers = s.numWorkers ∧ s'.due = s.due ∧ s'.clients = s.clients ∧
      s'.numActive = s.numActive ∧ s'.serial = s.serial ∧ s'.accepted = s.accepted ∧
      s'.finished = s.finished := by
  have hrest := Pool.mk.inj h.rest
  tauto

theorem accept_nil (s : Pool K α) : s.accept [] = s := by
  unfold Pool.accept
  rw [List.append_nil]

section

variable [DecidableEq K] {k : K}

theorem clients_setClient_ne {k' : K} (pc : ClientPC (Job α)) (h : k' ≠ k) :
    (s.setClient k pc).clients k' = s.clients k' :=
  Function.update_of_ne h ..

theorem clients_setClient (pc : ClientPC (Job α)) : (s.setClient k pc).clients k = pc :=
  Function.update_self ..

/-- A client has put the tasks `xs` into the global queue. -/
theorem Enqueued.client {s₁ : Pool K α} (h : Enqueued s s₁ xs) (pc : ClientPC (Job α))
    (hp : Puts call xs o) (hi : PoolInv s) (ha : Accounts s)
    (hcall : (s.clients k).call? = some call) (hpc : pc.call? = o.call?) :
    Advance (some (.client k)) s .outside ((s₁.accept o.reported).setClient k pc) := by
  obtain ⟨hn, hdue, hclients, hactive, hserial, haccepted, hfinished⟩ := h.eq
  have hframe : Frame (some (.client k)) s ((s₁.accept o.reported).setClient k pc) := by
    refine ⟨hn, hdue, fun j _ => h.workers j, nofun, fun k' hk' => .inl ?_⟩
    rw [clients_setClient_ne pc fun hc => hk' (by rw [hc])]
    exact congrFun hclients k'
  have hnext : ((s₁.accept o.reported).setClient k pc).call? (.client k) = o.call? := by
    show (((s₁.accept o.reported).setClient k pc).clients k).call? = _
    rw [clients_setClient]
    exact hpc
  have halike := fun j => (h.workers j).alike
  refine hframe.advance (hi.quiet hn h.gq halike hactive) ?_ ?_
  · refine hp.accounts ha hframe hcall hnext hserial h.entered ?_
    rw [← haccepted]
    rfl
  · obtain ⟨hnew, hnodup⟩ := hp.new (t := .client k) ha hcall
    have hflow : ((s₁.accept o.reported).setClient k pc).flow =
        { s.flow with queue := s.flow.queue ++ xs, entered := s.flow.entered ++ xs } := by
      simp only [Pool.flow, Flow.mk.injEq]
      exact ⟨h.tail, h.content, flow_workers_of_alike halike, h.entered, hfinished⟩
    rw [hflow]
    exact .submit s.flow xs hnew hnodup

theorem clientCall_advance {woken : Nat} (hi : PoolInv s) (ha : Accounts s)
    (hpc : s.clients k = .submitting call) (h : clientStep s k woken = some s') :
    Advance (some (.client k)) s .outside s' := by
  have hcall : (s.clients k).call? = some call := by
    rw [hpc]
    rfl
  unfold clientStep at h
  rw [hpc] at h
  obtain ⟨⟨s₁, o⟩, hstep, rfl⟩ := Option.map_eq_some_iff.mp h
  obtain ⟨xs, henq, hputs, -, -⟩ := sharedCallStep_spec hi.gq hstep
  cases o with
  | more call' =>
    have hadv := henq.client (.submitting call') hputs hi ha hcall rfl
    rw [Outcome.reported, accept_nil] at hadv
    exact hadv
  | done accepted => exact henq.client .idle hputs hi ha hcall rfl

end

/-! ## Workers -/

section

variable {i : Nat} {task : Job α} {s₁ : Pool K α}

/-- A worker goes on with the submit call of its task, or with the task. -/
def resume (task : α) : Outcome (Call α) (List α) → WorkerPC α
  | .more call => .submitting task call
  | .done _ => .running task

theorem resume_call (task : α) (o : Outcome (Call α) (List α)) :
    (resume task o).call? = o.call? := by
  cases o <;> rfl

theorem resume_hand (task : α) (o : Outcome (Call α) (List α)) : (resume task o).hand = [task] := by
  cases o <;> rfl

theorem resume_extras (task : α) (o : Outcome (Call α) (List α)) : (resume task o).extras = [] := by
  cases o <;> rfl

theorem resume_active (task : α) (o : Outcome (Call α) (List α)) :
    (resume task o).isActive = true := by
  cases o <;> rfl

theorem resume_thief (task : α) (o : Outcome (Call α) (List α)) (n j : Nat) :
    (resume task o).thief n j = none := by
  cases o <;> rfl

theorem resume_ownOk (task : α) (o : Outcome (Call α) (List α)) (n j : Nat) {w : Worker α}
    (hw : w.pc = resume task o) : w.OwnOk n j := by
  unfold Worker.OwnOk
  rw [hw]
  cases o <;> trivial

theorem owner_submitting (task : α) (call : Call α) :
    (WorkerPC.submitting task call).owner = call.owner := by
  cases call <;> rfl

variable (task) in
/-- A call that has not yet touched the deque claims nothing and knows nothing. -/
theorem Outcome.Fresh.deque {T : Type*} {d : Deque (Job α)} {th : T → Option (StealPC (Job α))}
    (h : o.Fresh) (hinv : DequeInv d .idle th) :
    DequeInv d (resume task o).owner th ∧ d.claimed (resume task o).owner = [] := by
  cases o with
  | done accepted => exact ⟨hinv, claimed_eq_nil rfl⟩
  | more call =>
    rw [resume, owner_submitting]
    rcases h call rfl with hc | ⟨x, hc⟩
    · rw [hc]
      exact ⟨hinv, claimed_eq_nil rfl⟩
    · rw [hc]
      exact ⟨hinv.begin rfl rfl trivial, claimed_eq_nil rfl⟩

/-- A step of the submit call of the task that worker `i` runs. -/
theorem submit_advance (hi : PoolInv s) (ha : Accounts s) (hlt : i < s.numWorkers)
    (hpc : (s.workers i).pc = .submitting task call) (hf : Frame (some (.worker i)) s s₁)
    (hp : Puts call xs o) (hgq : s₁.gq.Valid) (hentered : s₁.entered = s.entered ++ xs)
    (hbooks : s₁.serial = s.serial ∧ s₁.accepted = s.accepted ∧ s₁.numActive = s.numActive)
    (hdeque : DequeInv (s₁.workers i).deque (resume task o).owner (s.thieves i))
    (hmove : s.flow.Move s.numWorkers .inside
      { s.flow.set i (Worker.holding { s₁.workers i with pc := resume task o }) with
        tail := s₁.gq.tail, queue := s₁.gq.content, entered := s₁.entered,
        finished := s₁.finished }) :
    Advance (some (.worker i)) s .inside ((s₁.accept o.reported).setPc i (resume task o)) := by
  obtain ⟨hserial, haccepted, hactive⟩ := hbooks
  have hcall : s.call? (.worker i) = some call := by
    show (s.workers i).pc.call? = _
    rw [hpc]
    rfl
  have hframe : Frame (some (.worker i)) s (s₁.accept o.reported) :=
    ⟨hf.numWorkers, hf.due, hf.workers, hf.awake, hf.clients⟩
  refine (hframe.setWorker _).own hi hlt (workers_setWorker _) hgq
    (fun j => .inl (resume_thief ..)) hdeque (resume_ownOk task o _ _ rfl) ?_ ?_ hmove
  · show s₁.numActive + _ = _
    rw [hactive, hpc, resume_active]
    rfl
  · refine hp.accounts ha (hframe.setWorker _) hcall ?_ hserial hentered ?_
    · show (((s₁.accept o.reported).setPc i (resume task o)).workers i).pc.call? = _
      rw [Pool.setPc, workers_setWorker]
      exact resume_call task o
    · rw [← haccepted]
      rfl

/-- A step on the global queue. -/
theorem sharedCall_advance (woken : Nat) (hi : PoolInv s) (ha : Accounts s)
    (hlt : i < s.numWorkers) (hpc : (s.workers i).pc = .submitting task call)
    (h : sharedCallStep s (.worker i) woken call = some (s₁, o)) :
    Advance (some (.worker i)) s .inside ((s₁.accept o.reported).setPc i (resume task o)) := by
  have hawake : (s.workers i).pc ≠ .exit .exited := by simp [hpc]
  obtain ⟨xs, henq, hp, hnext, howner⟩ := sharedCallStep_spec hi.gq h
  obtain ⟨hn, hdue, hclients, hactive, hserial, haccepted, hfinished⟩ := henq.eq
  have hf : Frame (some (.worker i)) s s₁ :=
    ⟨hn, hdue, fun j _ => henq.workers j, worker_awake hawake,
      fun k _ => .inl (congrFun hclients k)⟩
  have hidle : (s.workers i).pc.owner = .idle := by
    rw [hpc, owner_submitting, howner]
  have hdeque := hi.deque i
  rw [hidle, ← (henq.workers i).alike.deque] at hdeque
  have hfresh : o.Fresh := fun call' hc => .inl (hnext call' hc)
  obtain ⟨hinv, hclaimed⟩ := hfresh.deque task hdeque
  rw [(henq.workers i).alike.deque] at hclaimed
  refine submit_advance hi ha hlt hpc hf hp henq.gq henq.entered ⟨hserial, haccepted,
    hactive⟩ hinv ?_
  have hholding : Worker.holding { s₁.workers i with pc := resume task o } =
      (s.workers i).holding := by
    simp only [Worker.holding, (henq.workers i).alike.deque, resume_extras, resume_hand, hclaimed,
      hidle]
    rw [claimed_eq_nil rfl, hpc]
    rfl
  have hsame : s.flow.set i (s.workers i).holding = s.flow := flow_set_self s.flow i
  have hbusy : (s.flow.workers i).hand ≠ [] := by
    show (s.workers i).pc.hand ≠ []
    rw [hpc]
    exact List.cons_ne_nil _ _
  obtain ⟨hnew, hnodup⟩ := hp.new (t := .worker i) ha (by rw [Pool.call?, hpc]; rfl)
  rw [hholding, hsame, henq.tail, henq.content, henq.entered, hfinished]
  exact .enqueue s.flow i xs hlt hbusy hnew hnodup

section

variable {pc : PushPC (Job α)} {d : Deque (Job α)}

theorem workers_setDeque (s : Pool K α) (i : Nat) (d : Deque (Job α)) :
    (s.setDeque i d).workers i = { s.workers i with deque := d } :=
  workers_setWorker _

/-- The frame and the deque of a push by the task of worker `i`. -/
theorem PoolInv.pushing (hi : PoolInv s) (hroom : s.Roomy) (hlt : i < s.numWorkers)
    (hpc : (s.workers i).pc = .submitting task call) (howner : call.owner = .pushing pc) :
    Frame (some (.worker i)) s (s.setDeque i d) ∧
      DequeInv (s.workers i).deque (.pushing pc) (s.thieves i) ∧
      (s.workers i).deque.bottom < 2 ^ 63 ∧
        (s.workers i).deque.claimed (s.workers i).pc.owner = [] := by
  have hawake : (s.workers i).pc ≠ .exit .exited := by simp [hpc]
  have hf : Frame (some (.worker i)) s s := .of_eq rfl rfl rfl rfl (worker_awake hawake)
  have hpush : (s.workers i).pc.owner = .pushing pc := by rw [hpc, owner_submitting, howner]
  refine ⟨hf.setWorker _, hpush ▸ hi.deque i, Nat.lt_of_succ_lt (hroom i hlt), ?_⟩
  rw [hpush]
  exact claimed_eq_nil rfl

/-- An access of a push that goes on. -/
theorem pushMore_advance (hi : PoolInv s) (ha : Accounts s) (hroom : s.Roomy)
    (hlt : i < s.numWorkers) (hpc : (s.workers i).pc = .submitting task call)
    (howner : call.owner = .pushing pc) {pc' : PushPC (Job α)} {call' : Call (Job α)}
    (hstep : pushStep (s.workers i).deque pc = (d, .more pc')) (hnext : call'.owner = .pushing pc')
    (hp : Puts call [] (.more call')) :
    Advance (some (.worker i)) s .inside
      (((s.setDeque i d).accept []).setPc i (.submitting task call')) := by
  obtain ⟨hf, hdeque, hbottom, hclaimed⟩ := hi.pushing hroom hlt hpc howner
  obtain ⟨hinv, -, -, -, htop⟩ := pushStep_more hdeque hbottom hstep
  have hpush : (resume task (.more call')).owner = .pushing pc' := by
    rw [resume, owner_submitting, hnext]
  refine submit_advance (o := .more call') hi ha hlt hpc hf hp hi.gq (List.append_nil _).symm
    ⟨rfl, rfl, rfl⟩ ?_ ?_
  · rw [hpush, workers_setDeque]
    exact hinv
  · refine .of_holding ?_
    simp only [Worker.holding, workers_setDeque, hpush, visible_pushStep_more hdeque hbottom hstep,
      htop, hclaimed, resume_extras, resume_hand]
    rw [claimed_eq_nil rfl, hpc]
    rfl

/-- The last access of a push: the task is in the deque, or the deque is full. -/
theorem pushDone_advance (hi : PoolInv s) (ha : Accounts s) (hroom : s.Roomy)
    (hlt : i < s.numWorkers) (hpc : (s.workers i).pc = .submitting task call)
    (howner : call.owner = .pushing pc) {ok : Bool}
    (hstep : pushStep (s.workers i).deque pc = (d, .done ok)) (hfresh : o.Fresh)
    (hp : Puts call (if ok then [pc.task] else []) o) :
    Advance (some (.worker i)) s .inside
      ((((s.setDeque i d).enter (if ok then [pc.task] else [])).accept o.reported).setPc i
        (resume task o)) := by
  obtain ⟨hf, hdeque, hbottom, hclaimed⟩ := hi.pushing (d := d) hroom hlt hpc howner
  obtain ⟨hinv, htop, -, hfull⟩ := pushStep_done hdeque hbottom hstep
  obtain ⟨hinv', hclaimed'⟩ := hfresh.deque task hinv
  have hf' : ∀ ys, Frame (some (.worker i)) s ((s.setDeque i d).enter ys) := fun ys =>
    ⟨hf.numWorkers, hf.due, hf.workers, hf.awake, hf.clients⟩
  have hhand : (s.workers i).pc.hand = [task] := by rw [hpc]; rfl
  have hextras : (s.workers i).pc.extras = [] := by rw [hpc]; rfl
  refine submit_advance hi ha hlt hpc (hf' _) hp hi.gq rfl ⟨rfl, rfl, rfl⟩ ?_ ?_
  · show DequeInv ((s.setDeque i d).workers i).deque _ _
    rw [workers_setDeque]
    exact hinv'
  · have hworker : Worker.holding
        { ((s.setDeque i d).enter (if ok then [pc.task] else [])).workers i with
          pc := resume task o } =
        { (s.workers i).holding with visible := d.visible } := by
      show Worker.holding { (s.setDeque i d).workers i with pc := resume task o } = _
      simp only [Worker.holding, workers_setDeque, htop, hclaimed, hclaimed', resume_extras,
        resume_hand, hhand, hextras]
    rw [hworker]
    cases ok with
    | true =>
      -- the deque took the task: it moves from the call into the worker's own deque
      obtain ⟨hnew, -⟩ := hp.new (t := .worker i) ha (by rw [Pool.call?, hpc]; rfl)
      have hbusy : (s.flow.workers i).hand ≠ [] := by
        show (s.workers i).pc.hand ≠ []
        rw [hhand]
        exact List.cons_ne_nil _ _
      rw [visible_pushStep_done hdeque hbottom hstep]
      exact .push s.flow i pc.task hlt hbusy (hnew pc.task List.mem_cons_self)
    | false =>
      -- the deque was full and is as it was: the call goes on to the global queue
      have hsame : s.flow.set i { (s.workers i).holding with visible := d.visible } = s.flow := by
        rw [(hfull rfl).1]
        exact flow_set_self s.flow i
      have hflow : s.flow = { s.flow with entered := s.entered ++ [] } := by
        rw [List.append_nil]
        rfl
      rw [hsame]
      exact hflow ▸ .stay s.flow

theorem pushStep_task {d d' : Deque α} {pc pc' : PushPC α} (h : pushStep d pc = (d', .more pc')) :
    pc'.task = pc.task := by
  cases pc with
  | loadBottom x | write x b =>
    cases h
    rfl
  | loadTop x b =>
    rw [pushStep] at h
    split at h <;> cases h
    rfl
  | store x b => cases h

theorem enter_nil (s : Pool K α) : s.enter [] = s := by
  unfold Pool.enter
  rw [List.append_nil]

theorem placed_more {call call' : Call α} (h : call'.placed = call.placed) (xs : List α) :
    ∀ x ∈ (.more call' : Outcome (Call α) (List α)).placed, x ∈ call.placed ∨ x ∈ xs := by
  intro x hx
  left
  rw [← h]
  exact List.append_nil call'.placed ▸ hx

/-- A step of a submit call of worker `i`. -/
theorem workerCallStep_advance {woken : Nat} (hi : PoolInv s) (ha : Accounts s) (hroom : s.Roomy)
    (hlt : i < s.numWorkers) (hpc : (s.workers i).pc = .submitting task call)
    (h : workerCallStep s i woken call = some (s₁, o)) :
    Advance (some (.worker i)) s .inside ((s₁.accept o.reported).setPc i (resume task o)) := by
  cases call with
  | queue x => exact sharedCall_advance woken hi ha hlt hpc h
  | queueEach pushed rest => exact sharedCall_advance woken hi ha hlt hpc h
  | unpark accepted pc => exact sharedCall_advance woken hi ha hlt hpc h
  | push pc =>
    rw [workerCallStep] at h
    split at h <;> cases h
    · next d pc' hstep =>
      refine pushMore_advance hi ha hroom hlt hpc rfl hstep rfl ⟨?_, placed_more rfl _⟩
      show List.Sublist [pc'.task] [pc.task]
      rw [pushStep_task hstep]
    · next d hstep =>
      have hfresh : Outcome.Fresh (.more (.unpark [pc.task] .load)) := by
        intro call hc
        cases hc
        exact .inl rfl
      have hadv := pushDone_advance hi ha hroom hlt hpc rfl hstep hfresh
        ⟨List.Sublist.refl _, fun x hx => .inr hx⟩
      exact hadv
    · next d hstep =>
      have hfresh : Outcome.Fresh (.more (.queue pc.task)) := by
        intro call hc
        cases hc
        exact .inl rfl
      have hadv := pushDone_advance hi ha hroom hlt hpc rfl hstep hfresh
        ⟨List.Sublist.refl _, placed_more rfl _⟩
      rw [if_neg Bool.false_ne_true, enter_nil] at hadv
      exact hadv
  | pushEach pushed rest alloc pc =>
    rw [workerCallStep] at h
    split at h
    · next d pc' hstep =>
      cases h
      refine pushMore_advance hi ha hroom hlt hpc rfl hstep rfl ⟨?_, placed_more rfl _⟩
      show List.Sublist (pc'.task :: rest) (pc.task :: rest)
      rw [pushStep_task hstep]
    · next d hstep =>
      cases h
      have hputs : Puts (.pushEach pushed rest alloc pc) [pc.task]
          (pushNext (pushed ++ [pc.task]) rest alloc) := by
        refine ⟨?_, fun x hx => ?_⟩
        · rw [pushNext_pending]
          exact List.Sublist.refl _
        · rw [pushNext_placed] at hx
          exact List.mem_append.mp hx
      have hadv := pushDone_advance hi ha hroom hlt hpc rfl hstep (pushNext_fresh _ _ _) hputs
      exact hadv
    · next d hstep =>
      -- what is left goes to the global queue, or is given up
      have hadv : ∀ {o : Outcome (Call (Job α)) (List (Job α))}, o.Fresh →
          Puts (.pushEach pushed rest alloc pc) [] o →
          Advance (some (.worker i)) s .inside
            (((s.setDeque i d).accept o.reported).setPc i (resume task o)) := by
        intro o hfresh hp
        have hadv := pushDone_advance hi ha hroom hlt hpc rfl hstep hfresh hp
        rw [if_neg Bool.false_ne_true, enter_nil] at hadv
        exact hadv
      split at h <;> cases h
      · refine hadv ?_ ⟨List.Sublist.refl _, placed_more rfl _⟩
        intro call hc
        cases hc
        exact .inl rfl
      · refine hadv (fun call hc => .inl (afterBatch_shared pushed call hc)) ⟨?_, fun x hx => ?_⟩
        · rw [afterBatch_pending]
          exact List.nil_sublist _
        · rw [afterBatch_placed] at hx
          exact .inl hx

end

end

/-! ## New calls -/

/-- The submissions of a call are numbered one after the other. -/
theorem map_fst_jobs (serial : Nat) (request : Request α) :
    (request.jobs serial).map (·.1) = List.range' serial (request.jobs serial).length := by
  cases request with
  | submit task => rfl
  | submitBatch tasks alloc =>
    apply List.ext_getElem
    · simp
    · intro j hj hj'
      simp [Request.jobs]

theorem jobs_fresh {serial : Nat} {request : Request α} {x : Job α} (hx : x ∈ request.jobs serial) :
    serial ≤ x.1 ∧ x.1 < serial + (request.jobs serial).length := by
  have hmem : x.1 ∈ (request.jobs serial).map (·.1) := List.mem_map_of_mem hx
  rw [map_fst_jobs, List.mem_range'_1] at hmem
  exact hmem

theorem jobs_nodup (serial : Nat) (request : Request α) : (request.jobs serial).Nodup := by
  apply List.Nodup.of_map Prod.fst
  rw [map_fst_jobs]
  exact List.nodup_range'

/-- A call begins with all its submissions pending. -/
theorem clientCall_jobs (serial : Nat) (request : Request α) :
    (clientCall serial request).pending.Sublist (request.jobs serial) ∧
      (clientCall serial request).placed = [] := by
  cases request with
  | submit task => exact ⟨List.Sublist.refl _, rfl⟩
  | submitBatch tasks alloc =>
    rw [clientCall]
    split
    · rw [queueNext_pending, queueNext_placed]
      exact ⟨List.Sublist.refl _, rfl⟩
    · exact ⟨List.nil_sublist _, rfl⟩

theorem workerCall_jobs (serial : Nat) (request : Request α) :
    (workerCall serial request).pending.Sublist (request.jobs serial) ∧
      (workerCall serial request).placed = [] ∧ (workerCall serial request).Fresh := by
  cases request with
  | submit task =>
    refine ⟨List.Sublist.refl _, rfl, fun call hc => ?_⟩
    cases hc
    exact .inr ⟨_, rfl⟩
  | submitBatch tasks alloc =>
    rw [workerCall, pushNext_pending, pushNext_placed]
    exact ⟨List.Sublist.refl _, rfl, pushNext_fresh _ _ _⟩

/-- The books after a call has begun. -/
theorem Accounts.begin {t : Thread K} {request : Request α} (h : Accounts s)
    (hserial : s'.serial = s.serial + (request.jobs s.serial).length)
    (hentered : s'.entered = s.entered) (haccepted : s'.accepted = s.accepted)
    (hdue : s'.due = s.due) (hothers : ∀ t', t' ≠ t → s'.call? t' = s.call? t')
    (hnext : s'.call? t = o.call?) (hjobs : o.pending.Sublist (request.jobs s.serial))
    (hnone : o.placed = []) : Accounts s' := by
  have hpending : (s'.pending t).Sublist (request.jobs s.serial) := by
    rw [Pool.pending, hnext]
    exact hjobs
  have hplaced : s'.placed t = [] := by
    rw [Pool.placed, hnext]
    exact (List.append_eq_nil_iff.mp hnone).1
  -- the tasks of the new call carry serial numbers that nothing before it used
  have hfresh : ∀ x ∈ s'.pending t, s.serial ≤ x.1 ∧ x.1 < s'.serial := by
    intro x hx
    rw [hserial]
    exact jobs_fresh (hpending.subset hx)
  have hpend : ∀ t', t' ≠ t → s'.pending t' = s.pending t' := fun t' ht' => by
    unfold Pool.pending
    rw [hothers t' ht']
  have hnew : ∀ t', t' ≠ t → ∀ x ∈ s'.pending t, x ∉ s'.pending t' := by
    intro t' ht' x hx hc
    rw [hpend t' ht'] at hc
    have hlt := h.pending_lt t' x hc
    have hge := (hfresh x hx).1
    omega
  constructor
  · intro x hx
    rw [hentered] at hx
    have hlt := h.entered_lt x hx
    omega
  · intro t' x hx
    by_cases ht' : t' = t
    · subst ht'
      exact (hfresh x hx).2
    · rw [hpend t' ht'] at hx
      have hlt := h.pending_lt t' x hx
      omega
  · intro t' x hx hc
    rw [hentered] at hc
    by_cases ht' : t' = t
    · subst ht'
      have hlt := h.entered_lt x hc
      have hge := (hfresh x hx).1
      omega
    · rw [hpend t' ht'] at hx
      exact h.pending_new t' x hx hc
  · intro t'
    by_cases ht' : t' = t
    · subst ht'
      exact hpending.nodup (jobs_nodup ..)
    · rw [hpend t' ht']
      exact h.pending_nodup t'
  · intro t₁ t₂ hne x hx hc
    by_cases h₁ : t₁ = t
    · subst h₁
      exact hnew t₂ (Ne.symm hne) x hx hc
    · by_cases h₂ : t₂ = t
      · subst h₂
        exact hnew t₁ h₁ x hc hx
      · rw [hpend t₁ h₁] at hx
        rw [hpend t₂ h₂] at hc
        exact h.pending_disjoint t₁ t₂ hne x hx hc
  · intro t' x hx
    rw [hentered]
    by_cases ht' : t' = t
    · subst ht'
      rw [hplaced] at hx
      cases hx
    · have heq : s'.placed t' = s.placed t' := by
        unfold Pool.placed
        rw [hothers t' ht']
      exact h.placed_entered t' x (heq ▸ hx)
  · rw [hentered, haccepted]
    exact h.accepted_entered
  · rw [hentered, hdue]
    exact h.due_entered

/-- The task of worker `i` calls a submit function. -/
theorem beginTask_advance {i : Nat} {task : Job α} (hi : PoolInv s) (ha : Accounts s)
    (hlt : i < s.numWorkers) (hpc : (s.workers i).pc = .running task) (request : Request α) :
    Advance (some (.worker i)) s .inside (beginTask s i task request) := by
  have hawake : (s.workers i).pc ≠ .exit .exited := by simp [hpc]
  obtain ⟨hjobs, hplaced, hfresh⟩ := workerCall_jobs s.serial request
  have hdeque := hi.deque i
  rw [hpc] at hdeque
  obtain ⟨hinv, hclaimed⟩ := hfresh.deque task hdeque
  have hframe : Frame (some (.worker i)) s
      { s with serial := s.serial + (request.jobs s.serial).length } :=
    .of_eq rfl rfl rfl rfl (worker_awake hawake)
  -- a call that returns at once leaves the worker in its task
  have hstate : beginTask s i task request =
      { s with serial := s.serial + (request.jobs s.serial).length }.setPc i
        (resume task (workerCall s.serial request)) := by
    unfold beginTask
    split
    · next call hcall => rw [hcall]; rfl
    · next accepted hcall =>
      rw [hcall]
      show _ = Pool.setWorker _ i { s.workers i with pc := .running task }
      rw [← hpc]
      simp [Pool.setWorker]
  rw [hstate]
  refine (hframe.setWorker _).own hi hlt (workers_setWorker _) hi.gq
    (fun j => .inl (resume_thief ..)) hinv (resume_ownOk task _ _ _ rfl) ?_ ?_ ?_
  · rw [hpc, resume_active]
    rfl
  · have hnext : (Pool.setPc { s with serial := s.serial + (request.jobs s.serial).length } i
        (resume task (workerCall s.serial request))).call? (.worker i) =
        (workerCall s.serial request).call? := by
      show (Worker.pc (Pool.workers (Pool.setWorker _ i _) i)).call? = _
      rw [workers_setWorker]
      exact resume_call task _
    refine ha.begin (t := .worker i) rfl rfl rfl rfl (fun t' ht' => ?_) hnext hjobs hplaced
    exact (hframe.setWorker _).call? t' fun hc => ht' (Option.some.inj hc).symm
  · refine .of_holding ?_
    simp only [Worker.holding, hclaimed, resume_extras, resume_hand, hpc]
    rw [claimed_eq_nil rfl]
    rfl

section

variable [DecidableEq K] {k : K}

theorem Frame.setClient (h : Frame (some (.client k)) s s') (pc : ClientPC (Job α)) :
    Frame (some (.client k)) s (s'.setClient k pc) where
  numWorkers := h.numWorkers
  due := h.due
  workers := h.workers
  awake := h.awake
  clients k' hk' := by
    rw [clients_setClient_ne pc fun hc => hk' (by rw [hc])]
    exact h.clients k' hk'

/-- A step of a client outside of a submit call. -/
theorem setClient_quiet (hi : PoolInv s) (ha : Accounts s) {s₁ : Pool K α}
    (h : s₁.plain = s.plain) (pc : ClientPC (Job α)) (hcall : pc.call? = (s.clients k).call?) :
    Advance (some (.client k)) s .inside (s₁.setClient k pc) := by
  have hbooks : (s₁.setClient k pc).books = s.books := by
    show s₁.books = s.books
    exact books_of_plain h
  have hframe : Frame (some (.client k)) s s₁ := .of_plain h nofun
  refine .quiet (hframe.setClient pc) hi ha hbooks nofun ?_
  intro k' hk'
  cases hk'
  rw [clients_setClient]
  exact hcall

/-- A client calls a submit function. -/
theorem beginSubmit_advance (hi : PoolInv s) (ha : Accounts s) (hpc : s.clients k = .idle)
    (request : Request α) : Advance (some (.client k)) s .inside (beginSubmit s k request) := by
  obtain ⟨hjobs, hplaced⟩ := clientCall_jobs s.serial request
  have hframe : Frame (some (.client k)) s
      { s with serial := s.serial + (request.jobs s.serial).length } :=
    .of_eq rfl rfl rfl rfl nofun
  have hbegin : ∀ {s' : Pool K α}, Frame (some (.client k)) s s' →
      (s'.clients k).call? = (clientCall s.serial request).call? →
      s'.serial = s.serial + (request.jobs s.serial).length → s'.entered = s.entered →
      s'.accepted = s.accepted → Accounts s' := by
    intro s' hf hnext hserial hentered haccepted
    refine ha.begin (t := .client k) hserial hentered haccepted hf.due (fun t' ht' => ?_) hnext
      hjobs hplaced
    exact hf.call? t' fun hc => ht' (Option.some.inj hc).symm
  unfold beginSubmit
  split
  · next call hcall =>
    refine (hframe.setClient _).advance (hi.quiet rfl hi.gq (fun j => ⟨rfl, rfl⟩) rfl) ?_ (.stay _)
    refine hbegin (hframe.setClient _) ?_ rfl rfl rfl
    rw [clients_setClient, hcall]
    rfl
  · next accepted hcall =>
    refine hframe.advance (hi.quiet rfl hi.gq (fun j => ⟨rfl, rfl⟩) rfl) ?_ (.stay _)
    refine hbegin hframe ?_ rfl rfl rfl
    rw [hcall, hpc]
    rfl

end

end Solidc.Threadpool
