import Solidc.Threadpool.Flow
import Solidc.Threadpool.Pool

/-! # What each thread is doing

A program point decides what its thread does on the deques, which tasks it has taken out of
the queues, and which it still has to put in. `Pool.flow` reads the tasks of the pool
off its state.

* `PoolInv` — every deque keeps its invariant under its owner and its thieves, and a worker
  that steals or pulls has an empty deque of its own, so that a batch always fits;
* `Accounts` — the tasks that submit calls still have to put in are new, and what is
  accepted has entered a queue.
-/

namespace Solidc.Threadpool

open CLib

variable {K α : Type*}

/-! ## Roles of a worker -/

/-- Program points that hold no task and touch no deque are all alike. -/
def WorkerPC.core : WorkerPC α → WorkerPC α
  | .start _ | .pullEmpty | .idle _ | .park _ | .exit _ => .check
  | pc => pc

/-- What a worker does to its own deque. -/
def WorkerPC.owner : WorkerPC α → Owner α
  | .pop pc => .popping pc
  | .unload _ _ pc => .pushing pc
  | .submitting _ (.push pc) => .pushing pc
  | .submitting _ (.pushEach _ _ _ pc) => .pushing pc
  | _ => .idle

/-- What a worker does to the deque of worker `j`. -/
def WorkerPC.thief (n j : Nat) : WorkerPC α → Option (StealPC α)
  | .steal origin k pc => if (origin + k) % n = j then some pc else none
  | _ => none

/-- The rest of the batch that a worker has pulled from the global queue. -/
def WorkerPC.extras : WorkerPC α → List α
  | .unload _ rest pc => pc.task :: rest
  | .spill _ rest => rest
  | _ => []

/-- The task that a worker executes next or is executing. -/
def WorkerPC.hand : WorkerPC α → List α
  | .pop pc => pc.won.map (·.2)
  | .unload first _ _ | .spill first _ => [first]
  | .execute task | .running task | .submitting task _ => [task]
  | _ => []

/-- Counted in `num_active`. -/
def WorkerPC.isActive : WorkerPC α → Bool
  | .running _ | .submitting .. | .retire => true
  | _ => false

/-- The tasks that a submit call still has to put into a queue. -/
def Call.pending : Call α → List α
  | .push pc => [pc.task]
  | .queue x => [x]
  | .pushEach _ rest _ pc => pc.task :: rest
  | .queueEach _ rest => rest
  | .unpark .. => []

/-- The tasks that a submit call has put into a queue and not yet reported. -/
def Call.placed : Call α → List α
  | .pushEach pushed .. | .queueEach pushed _ => pushed
  | .unpark accepted _ => accepted
  | .push _ | .queue _ => []

def WorkerPC.call? : WorkerPC α → Option (Call α)
  | .submitting _ call => some call
  | _ => none

def ClientPC.call? : ClientPC α → Option (Call α)
  | .submitting call => some call
  | _ => none

/-- The submit call that a thread is in. -/
def Pool.call? (s : Pool K α) : Thread K → Option (Call (Job α))
  | .worker i => (s.workers i).pc.call?
  | .client k => (s.clients k).call?

def Pool.pending (s : Pool K α) (t : Thread K) : List (Job α) :=
  (s.call? t).elim [] Call.pending

def Pool.placed (s : Pool K α) (t : Thread K) : List (Job α) :=
  (s.call? t).elim [] Call.placed

/-! ## The tasks of the pool -/

/-- The tasks of a deque that the other threads see. -/
def Deque.visible (d : Deque α) : List α := (ring dequeSize d.tasks d.top d.bottom).map (·.2)

/-- The task of a deque that its owner has withdrawn from the others and not yet taken. -/
def Deque.claimed (d : Deque α) (o : Owner α) : List α :=
  ((d.cells o).map (·.2)).drop d.visible.length

def Worker.holding (w : Worker α) : Holding α where
  top := w.deque.top
  visible := w.deque.visible
  claimed := w.deque.claimed w.pc.owner
  extras := w.pc.extras
  hand := w.pc.hand

def Pool.flow (s : Pool K α) : Flow (Job α) where
  tail := s.gq.tail
  queue := s.gq.content
  workers i := (s.workers i).holding
  entered := s.entered
  finished := s.finished

/-! ## A deque as the others see it -/

section Sight

variable {T : Type*} {d d' : Deque α} {thieves : T → Option (StealPC α)}

theorem length_visible : d.visible.length = d.bottom - d.top := by
  simp [Deque.visible]

/-- Nothing is claimed while the end of the queue is `bottom`. -/
theorem claimed_eq_nil {o : Owner α} (h : d.limit o = d.bottom) : d.claimed o = [] := by
  unfold Deque.claimed Deque.cells Deque.visible
  rw [h]
  exact List.drop_length

/-- A pop that has lowered `bottom` claims the task at its index. -/
theorem claimed_eq_last {o : Owner α} (h : d.limit o = d.bottom + 1) (htop : d.top ≤ d.bottom) :
    d.claimed o = [d.tasks (d.bottom % dequeSize)] := by
  unfold Deque.claimed Deque.cells Deque.visible
  rw [h, ring_snoc htop, List.map_append, List.drop_left']
  · rfl
  · simp

/-- A pop that has lost the race claims nothing. -/
theorem claimed_eq_nil_of_lost {o : Owner α} (h : d.limit o ≤ d.top) : d.claimed o = [] := by
  unfold Deque.claimed Deque.cells
  rw [ring_eq_nil h]
  exact List.drop_nil

theorem visible_eq_nil (h : d.bottom ≤ d.top) : d.visible = [] := by
  unfold Deque.visible
  rw [ring_eq_nil h]
  rfl

theorem visible_pushStep_more {pc pc' : PushPC α} (inv : DequeInv d (.pushing pc) thieves)
    (hb : d.bottom < 2 ^ 63) (h : pushStep d pc = (d', .more pc')) : d'.visible = d.visible :=
  congrArg (List.map Prod.snd) (pushStep_more inv hb h).2.1

theorem visible_pushStep_done {pc : PushPC α} (inv : DequeInv d (.pushing pc) thieves)
    (hb : d.bottom < 2 ^ 63) (h : pushStep d pc = (d', .done true)) :
    d'.visible = d.visible ++ [pc.task] := by
  have hcells := ((pushStep_done inv hb h).2.2.1 rfl).1
  have hmap := congrArg (List.map Prod.snd) hcells
  rw [List.map_append] at hmap
  exact hmap

/-- What one access of a pop does to what the others see, what is claimed and what is won. -/
inductive PopSight (d d' : Deque α) (o o' : Owner α) (won won' : List α) : Prop
  | stay (hv : d'.visible = d.visible) (hc : d'.claimed o' = d.claimed o) (hw : won' = won)
    (ht : d'.top = d.top)
  | claim (v : List α) (x : α) (b : Nat) (ho : o = .popping (.lower b)) (hlow : d.top < d.bottom)
    (hv : d.visible = v ++ [x]) (hv' : d'.visible = v) (hc : d.claimed o = [])
    (hc' : d'.claimed o' = [x]) (hw : won' = won) (ht : d'.top = d.top)
  | take (x : α) (hv : d'.visible = d.visible) (hc : d.claimed o = [x]) (hc' : d'.claimed o' = [])
    (hw : won = []) (hw' : won' = [x]) (ht : d'.top = d.top ∨ d.visible = [])

theorem popStep_more_sight {pc pc' : PopPC α} (inv : DequeInv d (.popping pc) thieves)
    (hb : d.limit (.popping pc) < 2 ^ 63) (h : popStep d pc = (d', .more pc')) :
    PopSight d d' (.popping pc) (.popping pc') (pc.won.map (·.2)) (pc'.won.map (·.2)) := by
  obtain ⟨htop, hlimit, howner, hthief⟩ := inv
  cases pc with
  | loadBottom =>
    cases h
    exact .stay rfl rfl rfl rfl
  | loadTop b =>
    rw [popStep] at h
    split at h
    · simp at h
    · cases h
      exact .stay rfl rfl rfl rfl
  | lower b =>
    have hb' : b + 1 = d.bottom := howner
    have htop' : d.top ≤ d.bottom := htop
    cases h
    by_cases hlost : d.top = b + 1
    · -- a thief was faster, and the deque is empty
      refine .stay ?_ ?_ rfl rfl
      · rw [visible_eq_nil (d := { d with bottom := b }) (by show b ≤ d.top; omega),
          visible_eq_nil (by omega)]
      · rw [claimed_eq_nil_of_lost (d := { d with bottom := b }) (by show b + 1 ≤ d.top; omega),
          claimed_eq_nil rfl]
    · have hle : d.top ≤ b := by omega
      refine .claim _ _ b rfl (by omega) ?_ rfl (claimed_eq_nil rfl)
        (claimed_eq_last (d := { d with bottom := b }) rfl hle) rfl rfl
      show (ring dequeSize d.tasks d.top d.bottom).map (·.2) = _
      rw [← hb', ring_snoc hle, List.map_append]
      rfl
  | reload b =>
    rw [popStep] at h
    split at h
    · cases h
      exact .stay rfl rfl rfl rfl
    · split at h <;> cases h <;> exact .stay rfl rfl rfl rfl
  | read b => simp [popStep] at h
  | readLast b t =>
    cases h
    exact .stay rfl rfl rfl rfl
  | cas b t x =>
    obtain ⟨hb', ht, hle, hslot⟩ : b = d.bottom ∧ t = b ∧ b ≤ d.top ∧
      (d.top = b → d.tasks (b % dequeSize) = x) := howner
    have hbound : b + 1 < 2 ^ 63 := hb
    by_cases hwon : d.top = t
    · rw [popStep, if_pos hwon, sizeSucc_eq (by omega)] at h
      cases h
      have hbt : d.top = b := hwon.trans ht
      refine .take x ?_ ?_ ?_ rfl rfl (.inr (visible_eq_nil (by omega)))
      · rw [visible_eq_nil (d := { d with top := t + 1 }) (by show d.bottom ≤ t + 1; omega),
          visible_eq_nil (by omega)]
      · rw [claimed_eq_last (by show b + 1 = d.bottom + 1; omega) (by omega), ← hb', hslot hbt]
      · exact claimed_eq_nil_of_lost (by show b + 1 ≤ t + 1; omega)
    · rw [popStep, if_neg hwon] at h
      cases h
      exact .stay rfl rfl rfl rfl
  | restore b won => simp [popStep] at h

theorem popStep_done_sight {pc : PopPC α} {won : Option α} (inv : DequeInv d (.popping pc) thieves)
    (hb : d.limit (.popping pc) < 2 ^ 63) (h : popStep d pc = (d', .done won)) :
    PopSight d d' (.popping pc) .idle (pc.won.map (·.2)) won.toList ∧
      (won = none → d'.bottom = d'.top) := by
  obtain ⟨htop, hlimit, howner, hthief⟩ := inv
  rcases popStep_done_cases h with ⟨rfl, rfl, rfl⟩ | ⟨b, rfl, rfl, rfl⟩ | ⟨b, rfl, rfl⟩
  · have hempty : d'.top = d'.bottom := howner
    exact ⟨.stay rfl rfl rfl rfl, fun _ => hempty.symm⟩
  · obtain ⟨hb', hle⟩ : b = d'.bottom ∧ d'.top ≤ b := howner
    refine ⟨.take _ rfl ?_ (claimed_eq_nil rfl) rfl rfl (.inl rfl), by rintro ⟨⟩⟩
    rw [claimed_eq_last (by show b + 1 = d'.bottom + 1; omega) (by omega), hb']
  · obtain ⟨hb', htop'⟩ : b = d.bottom ∧ d.top = b + 1 := howner
    have hbound : b + 1 < 2 ^ 63 := hb
    rw [sizeSucc_eq (by omega)]
    refine ⟨.stay ?_ ?_ ?_ rfl, fun _ => htop'.symm⟩
    · rw [visible_eq_nil (d := { d with bottom := b + 1 }) htop'.ge, visible_eq_nil (by omega)]
    · rw [claimed_eq_nil (d := { d with bottom := b + 1 }) rfl,
        claimed_eq_nil_of_lost (by show b + 1 ≤ d.top; omega)]
    · cases won <;> rfl

/-- A successful steal takes the first task that the others see, or the claimed one. -/
theorem stealStep_sight {o : Owner α} {c : Nat × α} (hd : d' = { d with top := d.top + 1 })
    (hcells : d.cells o = c :: d'.cells o) :
    d.visible = c.2 :: d'.visible ∧ d.claimed o = d'.claimed o ∨
      d.visible = [] ∧ d'.visible = [] ∧ d.claimed o = c.2 :: d'.claimed o := by
  subst hd
  rcases Nat.lt_or_ge d.top d.bottom with hlt | hge
  · left
    have hvis : d.visible = d.tasks (d.top % dequeSize) ::
        Deque.visible { d with top := d.top + 1 } := by
      unfold Deque.visible
      rw [ring_cons hlt]
      rfl
    have hfirst : c.2 = d.tasks (d.top % dequeSize) := by
      have hlim : d.top < d.limit o := by
        rcases Nat.lt_or_ge d.top (d.limit o) with h | h
        · exact h
        · rw [Deque.cells, ring_eq_nil h] at hcells
          simp at hcells
      rw [Deque.cells, ring_cons hlim] at hcells
      rw [← (List.cons.inj hcells).1]
    refine ⟨hfirst ▸ hvis, ?_⟩
    unfold Deque.claimed
    rw [hcells, hvis]
    rfl
  · right
    have hvis := visible_eq_nil hge
    have hvis' := visible_eq_nil (d := { d with top := d.top + 1 }) (Nat.le_succ_of_le hge)
    refine ⟨hvis, hvis', ?_⟩
    unfold Deque.claimed
    rw [hcells, hvis, hvis']
    rfl

end Sight

/-! ## Invariants -/

/-- The thieves of the deque of worker `j`. -/
def Pool.thieves (s : Pool K α) (j : Nat) (i : Nat) : Option (StealPC (Job α)) :=
  (s.workers i).pc.thief s.numWorkers j

/-- A worker steals from others, and only when its own deque is empty; it pulls at most
`BATCH_SIZE` tasks into it. -/
def Worker.OwnOk (n i : Nat) (w : Worker α) : Prop :=
  match w.pc with
  | .steal origin k _ => (origin + k) % n ≠ i ∧ w.deque.bottom = w.deque.top
  | .pull => w.deque.bottom = w.deque.top
  | .unload _ rest _ => w.deque.bottom + rest.length + 2 ≤ w.deque.top + batchSize
  | .spill .. => False
  | _ => True

structure PoolInv (s : Pool K α) : Prop where
  pos : 0 < s.numWorkers
  gq : s.gq.Valid
  deque : ∀ j, DequeInv (s.workers j).deque (s.workers j).pc.owner (s.thieves j)
  own : ∀ i, (s.workers i).OwnOk s.numWorkers i
  active : s.numActive = slotCount s.numWorkers s.workers (·.pc.isActive)

/-- The tasks of the submit calls. -/
structure Accounts (s : Pool K α) : Prop where
  entered_lt : ∀ x ∈ s.entered, x.1 < s.serial
  pending_lt : ∀ t, ∀ x ∈ s.pending t, x.1 < s.serial
  pending_new : ∀ t, ∀ x ∈ s.pending t, x ∉ s.entered
  pending_nodup : ∀ t, (s.pending t).Nodup
  pending_disjoint : ∀ t t', t ≠ t' → ∀ x ∈ s.pending t, x ∉ s.pending t'
  placed_entered : ∀ t, ∀ x ∈ s.placed t, x ∈ s.entered
  accepted_entered : ∀ x ∈ s.accepted, x ∈ s.entered
  due_entered : ∀ x ∈ s.due, x ∈ s.entered

/-! ## Steps that leave a worker alone -/

theorem owner_core (pc : WorkerPC α) : pc.core.owner = pc.owner := by cases pc <;> rfl
theorem thief_core (n j : Nat) (pc : WorkerPC α) : pc.core.thief n j = pc.thief n j := by
  cases pc <;> rfl
theorem extras_core (pc : WorkerPC α) : pc.core.extras = pc.extras := by cases pc <;> rfl
theorem hand_core (pc : WorkerPC α) : pc.core.hand = pc.hand := by cases pc <;> rfl
theorem isActive_core (pc : WorkerPC α) : pc.core.isActive = pc.isActive := by cases pc <;> rfl
theorem call_core (pc : WorkerPC α) : pc.core.call? = pc.call? := by cases pc <;> rfl
theorem core_wake (pc : WorkerPC α) : pc.wake.core = pc.core := by cases pc <;> rfl

theorem ownOk_core {n i : Nat} {w w' : Worker α} (hd : w'.deque = w.deque)
    (hpc : w'.pc.core = w.pc.core) (h : w.OwnOk n i) : w'.OwnOk n i := by
  obtain ⟨d, pc, spin, rng⟩ := w
  obtain ⟨d', pc', spin', rng'⟩ := w'
  cases hd
  cases pc <;> cases pc' <;> simp only [WorkerPC.core] at hpc <;>
    first | cases hpc; exact h | trivial

/-- A step of another thread, or one between program points that are alike: the deque is the
same and the program point has the same core. -/
structure Alike (w w' : Worker α) : Prop where
  deque : w'.deque = w.deque
  core : w'.pc.core = w.pc.core

variable {w w' : Worker α}

theorem Alike.owner (h : Alike w w') : w'.pc.owner = w.pc.owner := by
  rw [← owner_core, h.core, owner_core]

theorem Alike.thief (h : Alike w w') (n j : Nat) : w'.pc.thief n j = w.pc.thief n j := by
  rw [← thief_core, h.core, thief_core]

theorem Alike.isActive (h : Alike w w') : w'.pc.isActive = w.pc.isActive := by
  rw [← isActive_core, h.core, isActive_core]

theorem Alike.call? (h : Alike w w') : w'.pc.call? = w.pc.call? := by
  rw [← call_core, h.core, call_core]

theorem Alike.holding (h : Alike w w') : w'.holding = w.holding := by
  unfold Worker.holding
  rw [h.deque, h.owner, ← extras_core, h.core, extras_core, ← hand_core w'.pc, h.core, hand_core]

theorem alike_wake (w : Worker α) : Alike w { w with pc := w.pc.wake } :=
  ⟨rfl, core_wake w.pc⟩

end Solidc.Threadpool
