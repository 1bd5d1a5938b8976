import Solidc.Threadpool.Roles

/-! # What a step has to show

Each step of a worker or a client keeps the invariants and is one of the moves of
`Flow.Move`. Most of the pool is untouched by a step, and these are the rules that say so
once.

* `Frame` — what a step of one thread leaves alone;
* `PoolInv.quiet`, `PoolInv.own_step`, `PoolInv.steal_step`, `Accounts.advance` — what a step
  has to show about the one thread that makes it;
* `Advance` — a step that keeps the invariants and moves tasks by one `Flow.Move`.
-/

namespace Solidc.Threadpool

open CLib

variable {K α : Type*} {s s' : Pool K α}

/-! ## Frame rules -/

theorem DequeInv.weaken {T : Type*} {d : Deque α} {o : Owner α} {th th' : T → Option (StealPC α)}
    (h : DequeInv d o th) (hth : ∀ t, th' t = th t ∨ th' t = none ∨ th' t = some .loadTop) :
    DequeInv d o th' where
  top_le := h.top_le
  limit_le := h.limit_le
  owner := h.owner
  thief t := by
    rcases hth t with heq | heq | heq <;> rw [heq]
    · exact h.thief t
    · trivial
    · trivial

/-- An owner that begins a call knows nothing yet. -/
theorem DequeInv.begin {T : Type*} {d : Deque α} {o : Owner α} {th : T → Option (StealPC α)}
    (h : DequeInv d .idle th) (hlimit : d.limit o = d.bottom) (hsafe : d.safe o = d.bottom)
    (howner : d.OwnerOk o) : DequeInv d o th where
  top_le := hlimit ▸ h.top_le
  limit_le := hlimit ▸ h.limit_le
  owner := howner
  thief t := hsafe ▸ h.thief t

/-- A step that leaves every deque alone. -/
theorem PoolInv.quiet (h : PoolInv s) (hn : s'.numWorkers = s.numWorkers) (hgq : s'.gq.Valid)
    (halike : ∀ j, Alike (s.workers j) (s'.workers j)) (hactive : s'.numActive = s.numActive) :
    PoolInv s' where
  pos := hn ▸ h.pos
  gq := hgq
  deque j := by
    have hthieves : s'.thieves j = s.thieves j := by
      funext i
      unfold Pool.thieves
      rw [hn, (halike i).thief]
    rw [(halike j).deque, (halike j).owner, hthieves]
    exact h.deque j
  own i := hn ▸ ownOk_core (halike i).deque (halike i).core (h.own i)
  active := by
    rw [hactive, hn, h.active]
    exact slotCount_congr fun i _ => (halike i).isActive.symm

/-- A step of worker `i` on its own deque. -/
theorem PoolInv.own_step (h : PoolInv s) {i : Nat} (hi : i < s.numWorkers)
    (hn : s'.numWorkers = s.numWorkers) (hgq : s'.gq.Valid)
    (hothers : ∀ j, j ≠ i → Alike (s.workers j) (s'.workers j))
    (hthief : ∀ j, (s'.workers i).pc.thief s.numWorkers j = none ∨
      (s'.workers i).pc.thief s.numWorkers j = some .loadTop)
    (hdeque : DequeInv (s'.workers i).deque (s'.workers i).pc.owner (s.thieves i))
    (hown : (s'.workers i).OwnOk s.numWorkers i)
    (hactive : s'.numActive + (if (s.workers i).pc.isActive then 1 else 0) =
      s.numActive + (if (s'.workers i).pc.isActive then 1 else 0)) :
    PoolInv s' where
  pos := hn ▸ h.pos
  gq := hgq
  deque j := by
    have hthieves : ∀ t, s'.thieves j t = s.thieves j t ∨ s'.thieves j t = none ∨
        s'.thieves j t = some .loadTop := by
      intro t
      unfold Pool.thieves
      rw [hn]
      by_cases ht : t = i
      · right
        rw [ht]
        exact hthief j
      · exact .inl ((hothers t ht).thief ..)
    by_cases hj : j = i
    · subst hj
      exact hdeque.weaken hthieves
    · rw [(hothers j hj).deque, (hothers j hj).owner]
      exact (h.deque j).weaken hthieves
  own j := by
    rw [hn]
    by_cases hj : j = i
    · exact hj ▸ hown
    · exact ownOk_core (hothers j hj).deque (hothers j hj).core (h.own j)
  active := by
    have hcount := slotCount_update (f := s.workers) (q := (·.pc.isActive)) hi (s'.workers i)
    have hsame : slotCount s.numWorkers s'.workers (·.pc.isActive) =
        slotCount s.numWorkers (Function.update s.workers i (s'.workers i)) (·.pc.isActive) := by
      refine slotCount_congr fun j _ => ?_
      by_cases hj : j = i
      · rw [hj, Function.update_self]
      · rw [Function.update_of_ne hj, (hothers j hj).isActive]
    rw [hn, hsame]
    have hold := h.active
    omega

/-- A step of worker `i` on the deque of worker `v`, from which it steals. -/
theorem PoolInv.steal_step (h : PoolInv s) {i v : Nat} {d : Deque (Job α)}
    {pc : WorkerPC (Job α)} {th : Option (StealPC (Job α))} (hne : v ≠ i)
    (hold : (s.workers i).pc.owner = .idle ∧ (s.workers i).pc.isActive = false)
    (hnew : pc.owner = .idle ∧ pc.isActive = false)
    (hthief : ∀ j, pc.thief s.numWorkers j = none ∨ pc.thief s.numWorkers j = some .loadTop ∨
      j = v ∧ pc.thief s.numWorkers j = th)
    (hdeque : DequeInv d (s.workers v).pc.owner (Function.update (s.thieves v) i th))
    (hvictim : Worker.OwnOk s.numWorkers v { s.workers v with deque := d })
    (hown : Worker.OwnOk s.numWorkers i { s.workers i with pc := pc }) :
    PoolInv ((s.setDeque v d).setPc i pc) := by
  have hself : ((s.setDeque v d).setPc i pc).workers i = { s.workers i with pc := pc } := by
    simp [Pool.setPc, Pool.setDeque, Pool.setWorker, Ne.symm hne]
  have hv : ((s.setDeque v d).setPc i pc).workers v = { s.workers v with deque := d } := by
    simp [Pool.setPc, Pool.setDeque, Pool.setWorker, hne]
  have hothers : ∀ j, j ≠ i → j ≠ v → ((s.setDeque v d).setPc i pc).workers j = s.workers j := by
    intro j hji hjv
    simp [Pool.setPc, Pool.setDeque, Pool.setWorker, hji, hjv]
  have hthieves : ∀ j t, t ≠ i →
      ((s.setDeque v d).setPc i pc).thieves j t = s.thieves j t := by
    intro j t ht
    show (((s.setDeque v d).setPc i pc).workers t).pc.thief s.numWorkers j = _
    by_cases htv : t = v
    · rw [htv, hv]
      rfl
    · rw [hothers t ht htv]
      rfl
  have hthiefi : ∀ j, ((s.setDeque v d).setPc i pc).thieves j i = pc.thief s.numWorkers j := by
    intro j
    show (((s.setDeque v d).setPc i pc).workers i).pc.thief s.numWorkers j = _
    rw [hself]
  refine ⟨h.pos, h.gq, fun j => ?_, fun j => ?_, ?_⟩
  · by_cases hjv : j = v
    · subst hjv
      rw [hv]
      -- the victim's deque, as its thieves see it: only the thief `i` has moved
      refine hdeque.weaken fun t => ?_
      by_cases ht : t = i
      · rw [ht, hthiefi, Function.update_self]
        rcases hthief j with hc | hc | hc
        · exact .inr (.inl hc)
        · exact .inr (.inr hc)
        · exact .inl hc.2
      · rw [Function.update_of_ne ht]
        exact .inl (hthieves j t ht)
    · -- any other deque: thief `i` left it, or begins there by loading `top`
      have hsame : DequeInv (((s.setDeque v d).setPc i pc).workers j).deque
          (((s.setDeque v d).setPc i pc).workers j).pc.owner (s.thieves j) := by
        by_cases hji : j = i
        · rw [hji, hself, hnew.1, ← hold.1]
          exact h.deque i
        · rw [hothers j hji hjv]
          exact h.deque j
      refine hsame.weaken fun t => ?_
      by_cases ht : t = i
      · rw [ht, hthiefi]
        rcases hthief j with hc | hc | hc
        · exact .inr (.inl hc)
        · exact .inr (.inr hc)
        · exact absurd hc.1 hjv
      · exact .inl (hthieves j t ht)
  · by_cases hjv : j = v
    · rw [hjv, hv]
      exact hvictim
    · by_cases hji : j = i
      · rw [hji, hself]
        exact hown
      · rw [hothers j hji hjv]
        exact h.own j
  · refine h.active.trans (slotCount_congr fun j _ => ?_)
    by_cases hjv : j = v
    · rw [hjv, hv]
    · by_cases hji : j = i
      · rw [hji, hself, hold.2]
        exact hnew.2.symm
      · rw [hothers j hji hjv]

theorem flow_workers_of_alike (halike : ∀ j, Alike (s.workers j) (s'.workers j)) :
    s'.flow.workers = s.flow.workers :=
  funext fun j => (halike j).holding

theorem flow_workers_own {i : Nat} (hothers : ∀ j, j ≠ i → Alike (s.workers j) (s'.workers j)) :
    s'.flow.workers = Function.update s.flow.workers i (s'.workers i).holding := by
  funext j
  by_cases hj : j = i
  · rw [hj, Function.update_self]
    rfl
  · rw [Function.update_of_ne hj]
    exact (hothers j hj).holding

/-- What a step of thread `t` may do to the books: the tasks `xs` enter a queue. -/
theorem Accounts.advance (h : Accounts s) (t : Thread K) (xs : List (Job α))
    (hserial : s'.serial = s.serial) (hentered : s'.entered = s.entered ++ xs)
    (hothers : ∀ t', t' ≠ t → s'.call? t' = s.call? t')
    (hpending : (xs ++ s'.pending t).Sublist (s.pending t))
    (hplaced : ∀ x ∈ s'.placed t, x ∈ s.placed t ∨ x ∈ xs)
    (haccepted : ∀ x ∈ s'.accepted, x ∈ s.accepted ∨ x ∈ s.placed t ∨ x ∈ xs)
    (hdue : ∀ x ∈ s'.due, x ∈ s.due ∨ x ∈ s.accepted) : Accounts s' := by
  have hnodup : (xs ++ s'.pending t).Nodup := hpending.nodup (h.pending_nodup t)
  have hpend : ∀ t', t' ≠ t → s'.pending t' = s.pending t' := fun t' ht' => by
    unfold Pool.pending
    rw [hothers t' ht']
  have hxs : ∀ x ∈ xs, x ∈ s.pending t := fun x hx => hpending.subset (List.mem_append_left _ hx)
  have hsub : ∀ x ∈ s'.pending t, x ∈ s.pending t :=
    fun x hx => hpending.subset (List.mem_append_right _ hx)
  have hmem : ∀ x, x ∈ s'.entered ↔ x ∈ s.entered ∨ x ∈ xs := fun x => by
    rw [hentered, List.mem_append]
  have hold : ∀ t', ∀ x ∈ s'.pending t', x ∈ s.pending t' := by
    intro t' x hx
    by_cases ht' : t' = t
    · subst ht'
      exact hsub x hx
    · exact hpend t' ht' ▸ hx
  constructor
  · intro x hx
    rw [hserial]
    rcases (hmem x).mp hx with hx | hx
    · exact h.entered_lt x hx
    · exact h.pending_lt t x (hxs x hx)
  · intro t' x hx
    rw [hserial]
    exact h.pending_lt t' x (hold t' x hx)
  · intro t' x hx hc
    -- a task that just entered was pending at `t`, and so is pending there no more
    rcases (hmem x).mp hc with hc | hc
    · exact h.pending_new t' x (hold t' x hx) hc
    · by_cases ht' : t' = t
      · subst ht'
        exact (List.nodup_append.mp hnodup).2.2 x hc x hx rfl
      · exact h.pending_disjoint t' t ht' x (hold t' x hx) (hxs x hc)
  · intro t'
    by_cases ht' : t' = t
    · subst ht'
      exact hnodup.of_append_right
    · rw [hpend t' ht']
      exact h.pending_nodup t'
  · intro t₁ t₂ hne x hx hc
    exact h.pending_disjoint t₁ t₂ hne x (hold t₁ x hx) (hold t₂ x hc)
  · intro t' x hx
    rw [hmem]
    by_cases ht' : t' = t
    · subst ht'
      rcases hplaced x hx with hx | hx
      · exact .inl (h.placed_entered t' x hx)
      · exact .inr hx
    · have heq : s'.placed t' = s.placed t' := by
        unfold Pool.placed
        rw [hothers t' ht']
      exact .inl (h.placed_entered t' x (heq ▸ hx))
  · intro x hx
    rw [hmem]
    rcases haccepted x hx with hx | hx | hx
    · exact .inl (h.accepted_entered x hx)
    · exact .inl (h.placed_entered t x hx)
    · exact .inr hx
  · intro x hx
    rw [hmem]
    rcases hdue x hx with hx | hx
    · exact .inl (h.due_entered x hx)
    · exact .inl (h.accepted_entered x hx)

/-- A step outside of the submit calls; `threadpool_destroy` notes what is due. -/
theorem Accounts.keep (h : Accounts s) (hcall : ∀ t, s'.call? t = s.call? t)
    (hserial : s'.serial = s.serial) (hentered : s'.entered = s.entered)
    (haccepted : s'.accepted = s.accepted) (hdue : ∀ x ∈ s'.due, x ∈ s.due ∨ x ∈ s.accepted) :
    Accounts s' := by
  have hpending : ∀ t, s'.pending t = s.pending t := fun t => by
    unfold Pool.pending
    rw [hcall]
  have hplaced : ∀ t, s'.placed t = s.placed t := fun t => by
    unfold Pool.placed
    rw [hcall]
  refine h.advance (.worker 0) [] hserial (by rw [hentered, List.append_nil])
    (fun t _ => hcall t) ?_ ?_ ?_ hdue
  · rw [List.nil_append, hpending]
  · rw [hplaced]
    exact fun x hx => .inl hx
  · rw [haccepted]
    exact fun x hx => .inl hx

theorem Accounts.same (h : Accounts s) (hcall : ∀ t, s'.call? t = s.call? t)
    (hserial : s'.serial = s.serial) (hentered : s'.entered = s.entered)
    (haccepted : s'.accepted = s.accepted) (hdue : s'.due = s.due) : Accounts s' :=
  h.keep hcall hserial hentered haccepted fun _ hx => .inl (hdue ▸ hx)

/-- The tasks that enter a queue are new. -/
theorem Accounts.new (h : Accounts s) {t : Thread K} {xs : List (Job α)}
    (hxs : xs.Sublist (s.pending t)) : (∀ x ∈ xs, x ∉ s.entered) ∧ xs.Nodup :=
  ⟨fun x hx => h.pending_new t x (hxs.subset hx), hxs.nodup (h.pending_nodup t)⟩

/-! ## Frames -/

/-- A worker that another thread's step can at most wake up. -/
def Bystander (w w' : Worker α) : Prop := w' = w ∨ w' = { w with pc := w.pc.wake }

theorem Bystander.alike {w w' : Worker α} (h : Bystander w w') : Alike w w' := by
  rcases h with rfl | rfl
  · exact ⟨rfl, rfl⟩
  · exact alike_wake w

theorem Bystander.pc {w w' : Worker α} (h : Bystander w w') : w'.pc = w.pc ∨ w'.pc = w.pc.wake := by
  rcases h with rfl | rfl
  · exact .inl rfl
  · exact .inr rfl

/-- A step of the thread `t` leaves the other threads where they are, or wakes them up; with
`none` no thread makes a step of its own. -/
structure Frame (t : Option (Thread K)) (s s' : Pool K α) : Prop where
  numWorkers : s'.numWorkers = s.numWorkers
  due : s'.due = s.due
  workers : ∀ j, t ≠ some (.worker j) → Bystander (s.workers j) (s'.workers j)
  awake : ∀ j, t = some (.worker j) → (s.workers j).pc ≠ .exit .exited
  clients : ∀ k, t ≠ some (.client k) →
    s'.clients k = s.clients k ∨ s'.clients k = (s.clients k).wake

theorem call?_wake (pc : ClientPC α) : pc.wake.call? = pc.call? := by
  match pc with
  | .idle | .submitting _ => rfl
  | .waiting pc => cases pc <;> rfl
  | .destroying pc => cases pc <;> rfl

section

variable {t : Option (Thread K)}

theorem Frame.call? (h : Frame t s s') (t' : Thread K) (ht : t ≠ some t') :
    s'.call? t' = s.call? t' := by
  cases t' with
  | worker j => exact (h.workers j ht).alike.call?
  | client k =>
    show (s'.clients k).call? = (s.clients k).call?
    rcases h.clients k ht with heq | heq
    · rw [heq]
    · rw [heq, call?_wake]

theorem Frame.alike {i : Nat} (h : Frame (some (.worker i)) s s') (j : Nat) (hj : j ≠ i) :
    Alike (s.workers j) (s'.workers j) :=
  (h.workers j fun ht => hj (by cases ht; rfl)).alike

/-- The data that only a few steps change. -/
def Pool.books (s : Pool K α) :
    GlobalQueue (Job α) × Nat × Nat × List (Job α) × List (Job α) × List (Job α) :=
  (s.gq, s.numActive, s.serial, s.entered, s.accepted, s.finished)

/-- A step that keeps the invariants, and how it moves tasks. -/
structure Advance (t : Option (Thread K)) (s : Pool K α) (l : Label) (s' : Pool K α) : Prop where
  numWorkers : s'.numWorkers = s.numWorkers
  due : s'.due = s.due
  workers : ∀ j, t ≠ some (.worker j) →
    (s'.workers j).pc = (s.workers j).pc ∨ (s'.workers j).pc = (s.workers j).pc.wake
  awake : ∀ j, t = some (.worker j) → (s.workers j).pc ≠ .exit .exited
  clients : ∀ k, t ≠ some (.client k) →
    s'.clients k = s.clients k ∨ s'.clients k = (s.clients k).wake
  inv : PoolInv s'
  accounts : Accounts s'
  move : s.flow.Move s.numWorkers l s'.flow

theorem Frame.advance {l : Label} (h : Frame t s s') (hinv : PoolInv s') (hacc : Accounts s')
    (hmove : s.flow.Move s.numWorkers l s'.flow) : Advance t s l s' where
  numWorkers := h.numWorkers
  due := h.due
  workers j ht := (h.workers j ht).pc
  awake := h.awake
  clients := h.clients
  inv := hinv
  accounts := hacc
  move := hmove

/-- A worker that has left stays away. -/
theorem Advance.exited {l : Label} (h : Advance t s l s') {j : Nat}
    (hpc : (s.workers j).pc = .exit .exited) : (s'.workers j).pc = .exit .exited := by
  rcases h.workers j fun ht => h.awake j ht hpc with heq | heq
  · rw [heq, hpc]
  · rw [heq, hpc]
    rfl

/-- A step that changes no books, no deque and no submit call. -/
theorem Advance.quiet (hf : Frame t s s') (hi : PoolInv s) (ha : Accounts s)
    (hbooks : s'.books = s.books)
    (hworker : ∀ i, t = some (.worker i) → Alike (s.workers i) (s'.workers i))
    (hclient : ∀ k, t = some (.client k) → (s'.clients k).call? = (s.clients k).call?) :
    Advance t s .inside s' := by
  simp only [Pool.books, Prod.mk.injEq] at hbooks
  obtain ⟨hgq, hactive, hserial, hentered, haccepted, hfinished⟩ := hbooks
  have halike : ∀ j, Alike (s.workers j) (s'.workers j) := by
    intro j
    by_cases ht : t = some (.worker j)
    · exact hworker j ht
    · exact (hf.workers j ht).alike
  have hcall : ∀ t', s'.call? t' = s.call? t' := by
    intro t'
    by_cases ht : t = some t'
    · cases t' with
      | worker i => exact (hworker i ht).call?
      | client k => exact hclient k ht
    · exact hf.call? t' ht
  have hflow : s'.flow = s.flow := by
    simp only [Pool.flow, Flow.mk.injEq]
    exact ⟨by rw [hgq], by rw [hgq], flow_workers_of_alike halike, hentered, hfinished⟩
  refine hf.advance ?_ ?_ ?_
  · exact hi.quiet hf.numWorkers (hgq ▸ hi.gq) halike hactive
  · exact ha.same hcall hserial hentered haccepted hf.due
  · rw [hflow]
    exact .stay _

end

end Solidc.Threadpool
