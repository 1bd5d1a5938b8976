import Solidc.Lib.Cyclic
import Solidc.Threadpool.Queue
import Mathlib.Data.List.Nodup

/-! # Where the tasks are

What the pool is for, without its program points: a task enters the global queue or a
deque, a worker takes it out, executes it, and it is finished. `Holding` is what one worker
has, `Flow` all tasks, and `Flow.Move` the ways in which one step can move them.

* `Flow.Sound` — every task that entered is at exactly one place; kept by every move;
* `Flow.Move.clear`, `Flow.Move.behind`, `Flow.Move.drained` — what a thread that scans
  the queues one after the other can rely on while tasks move;
* `Flow.Move.eq_of_quiet` — when no worker has taken a task out, only a dequeue or an
  outside submission moves anything.
-/

namespace Solidc.Threadpool

open CLib

variable {β : Type*}

/-- What a worker has: the tasks in its deque that the other threads see, from index
`top` on; a task that a pop has withdrawn from them but not yet taken; the tasks pulled from
the global queue and not yet in the deque; and the task in its hands, running or not. -/
structure Holding (β : Type*) where
  top : Nat
  visible : List β
  claimed : List β
  extras : List β
  hand : List β

/-- All tasks of a worker. -/
def Holding.all (h : Holding β) : List β := h.visible ++ h.claimed ++ h.extras ++ h.hand

/-- All tasks of the pool. -/
structure Flow (β : Type*) where
  tail : Nat
  queue : List β
  workers : Nat → Holding β
  entered : List β
  finished : List β

def Flow.set (f : Flow β) (i : Nat) (h : Holding β) : Flow β :=
  { f with workers := Function.update f.workers i h }

/-- Whether a move takes a task out of a queue, comes from a client, or neither. -/
inductive Label where
  | inside
  | outside
  | dequeue

/-- The ways in which one step of `n` workers and their clients can move tasks. -/
inductive Flow.Move (n : Nat) : Flow β → Label → Flow β → Prop
  | stay (f : Flow β) : Move n f .inside f
  | submit (f : Flow β) (xs : List β) (hnew : ∀ x ∈ xs, x ∉ f.entered) (hnodup : xs.Nodup) :
    Move n f .outside { f with queue := f.queue ++ xs, entered := f.entered ++ xs }
  | enqueue (f : Flow β) (i : Nat) (xs : List β) (hi : i < n) (hbusy : (f.workers i).hand ≠ [])
    (hnew : ∀ x ∈ xs, x ∉ f.entered) (hnodup : xs.Nodup) :
    Move n f .inside { f with queue := f.queue ++ xs, entered := f.entered ++ xs }
  | push (f : Flow β) (i : Nat) (x : β) (hi : i < n) (hbusy : (f.workers i).hand ≠ [])
    (hnew : x ∉ f.entered) :
    Move n f .inside
      { f.set i { f.workers i with visible := (f.workers i).visible ++ [x] } with
        entered := f.entered ++ [x] }
  | claim (f : Flow β) (i : Nat) (v : List β) (x : β) (hi : i < n)
    (hv : (f.workers i).visible = v ++ [x]) (hc : (f.workers i).claimed = []) :
    Move n f .dequeue (f.set i { f.workers i with visible := v, claimed := [x] })
  | pop (f : Flow β) (i : Nat) (x : β) (top : Nat) (hi : i < n)
    (hc : (f.workers i).claimed = [x]) (hh : (f.workers i).hand = [])
    (htop : top = (f.workers i).top ∨ (f.workers i).visible = []) :
    Move n f .inside (f.set i { f.workers i with top := top, claimed := [], hand := [x] })
  | steal (f : Flow β) (i j : Nat) (x : β) (v c : List β) (hi : i < n) (hj : j < n) (hne : i ≠ j)
    (hv : (f.workers j).visible = x :: v ∧ (f.workers j).claimed = c ∨
      (f.workers j).visible = [] ∧ v = [] ∧ (f.workers j).claimed = x :: c)
    (hh : (f.workers i).hand = []) :
    Move n f .dequeue
      ((f.set j { f.workers j with top := (f.workers j).top + 1, visible := v, claimed := c }).set i
        { f.workers i with hand := [x] })
  | pull (f : Flow β) (i : Nat) (x : β) (rest q : List β) (hi : i < n)
    (hq : f.queue = x :: rest ++ q) (he : (f.workers i).extras = [])
    (hh : (f.workers i).hand = []) :
    Move n f .dequeue
      { f.set i { f.workers i with extras := rest, hand := [x] } with
        queue := q
        tail := (f.tail + (x :: rest).length) % globalQSize }
  | unload (f : Flow β) (i : Nat) (x : β) (rest : List β) (hi : i < n)
    (he : (f.workers i).extras = x :: rest) :
    Move n f .inside
      (f.set i { f.workers i with visible := (f.workers i).visible ++ [x], extras := rest })
  | finish (f : Flow β) (i : Nat) (x : β) (hi : i < n) (hh : (f.workers i).hand = [x]) :
    Move n f .inside
      { f.set i { f.workers i with hand := [] } with finished := f.finished ++ [x] }

/-! ## Every task is at one place -/

open Classical in
/-- How often `x` occurs. -/
noncomputable def Flow.tally (n : Nat) (f : Flow β) (x : β) : Nat :=
  f.queue.count x + ∑ i ∈ Finset.range n, (f.workers i).all.count x + f.finished.count x

open Classical in
/-- Every task that entered is at exactly one place. -/
structure Flow.Sound (n : Nat) (f : Flow β) : Prop where
  nodup : f.entered.Nodup
  tally : ∀ x, f.tally n x = f.entered.count x

variable {n : Nat} {f f' : Flow β} {l : Label}

theorem Flow.Move.nodup (hm : f.Move n l f') (h : f.entered.Nodup) : f'.entered.Nodup := by
  have happend : ∀ {xs : List β}, (∀ x ∈ xs, x ∉ f.entered) → xs.Nodup →
      (f.entered ++ xs).Nodup := by
    intro xs hnew hnodup
    refine List.nodup_append.mpr ⟨h, hnodup, fun a ha b hb hab => ?_⟩
    exact hnew b hb (hab ▸ ha)
  cases hm with
  | submit xs hnew hnodup => exact happend hnew hnodup
  | enqueue i xs hi hbusy hnew hnodup => exact happend hnew hnodup
  | push i x hi hbusy hnew =>
    exact happend (fun y hy => List.mem_singleton.mp hy ▸ hnew) (List.nodup_singleton x)
  | stay | claim | pop | steal | pull | unload | finish => exact h

open Classical in
theorem Flow.sum_set {i : Nat} (hi : i < n) (g : Nat → Holding β) (h : Holding β) (x : β) :
    ∑ j ∈ Finset.range n, (Function.update g i h j).all.count x + (g i).all.count x =
      ∑ j ∈ Finset.range n, (g j).all.count x + h.all.count x :=
  sum_update (Finset.mem_range.mpr hi) (fun h => h.all.count x) g h

open Classical in
/-- A move keeps the balance of every task. -/
theorem Flow.Move.tally (hm : f.Move n l f') (x : β) :
    f'.tally n x + f.entered.count x = f.tally n x + f'.entered.count x := by
  cases hm with
  | stay => rfl
  | submit xs =>
    simp only [Flow.tally, List.count_append]
    omega
  | enqueue i xs =>
    simp only [Flow.tally, List.count_append]
    omega
  | push i y hi =>
    have hsum := sum_set hi f.workers
      { f.workers i with visible := (f.workers i).visible ++ [y] } x
    simp only [Flow.tally, Flow.set, Holding.all, List.count_append] at hsum ⊢
    omega
  | claim i v y hi hv hc =>
    have hsum := sum_set hi f.workers { f.workers i with visible := v, claimed := [y] } x
    simp only [Flow.tally, Flow.set, Holding.all, hv, hc, List.count_append,
      List.count_nil] at hsum ⊢
    omega
  | pop i y top hi hc hh =>
    have hsum := sum_set hi f.workers
      { f.workers i with top := top, claimed := [], hand := [y] } x
    simp only [Flow.tally, Flow.set, Holding.all, hc, hh, List.count_append,
      List.count_nil] at hsum ⊢
    omega
  | steal i j y v c hi hj hne hv hh =>
    have hsumj := sum_set hj f.workers
      { f.workers j with top := (f.workers j).top + 1, visible := v, claimed := c } x
    have hsumi := sum_set hi (Function.update f.workers j
      { f.workers j with top := (f.workers j).top + 1, visible := v, claimed := c })
      { f.workers i with hand := [y] } x
    rw [Function.update_of_ne hne] at hsumi
    -- the stolen task leaves the victim from either end of what it holds
    have hlost : ((f.workers j).visible ++ (f.workers j).claimed).count x =
        [y].count x + (v ++ c).count x := by
      rcases hv with ⟨hv, hc⟩ | ⟨hv, rfl, hc⟩
      · rw [hv, hc, ← List.count_append]
        rfl
      · rw [hv, hc, ← List.count_append]
        rfl
    simp only [Flow.tally, Flow.set, Holding.all, hh, List.count_append, List.count_nil]
      at hsumj hsumi hlost ⊢
    omega
  | pull i y rest q hi hq he hh =>
    have hsum := sum_set hi f.workers { f.workers i with extras := rest, hand := [y] } x
    have hqueue : f.queue.count x = [y].count x + rest.count x + q.count x := by
      rw [hq, ← List.count_append, ← List.count_append]
      rfl
    simp only [Flow.tally, Flow.set, Holding.all, he, hh, List.count_append,
      List.count_nil] at hsum ⊢
    omega
  | unload i y rest hi he =>
    have hsum := sum_set hi f.workers
      { f.workers i with visible := (f.workers i).visible ++ [y], extras := rest } x
    have hextras : (f.workers i).extras.count x = [y].count x + rest.count x := by
      rw [he, ← List.count_append]
      rfl
    simp only [Flow.tally, Flow.set, Holding.all, List.count_append] at hsum ⊢
    omega
  | finish i y hi hh =>
    have hsum := sum_set hi f.workers { f.workers i with hand := [] } x
    simp only [Flow.tally, Flow.set, Holding.all, hh, List.count_append, List.count_nil] at hsum ⊢
    omega

theorem Flow.Move.sound (hm : f.Move n l f') (h : f.Sound n) : f'.Sound n where
  nodup := hm.nodup h.nodup
  tally x := by
    have hmove := hm.tally x
    have hold := h.tally x
    omega

/-- A pool without tasks. -/
theorem Flow.Sound.empty (hq : f.queue = []) (hw : ∀ i, (f.workers i).all = [])
    (he : f.entered = []) (hf : f.finished = []) : f.Sound n where
  nodup := he ▸ List.nodup_nil
  tally x := by
    simp [Flow.tally, hq, hw, he, hf]

theorem Flow.Sound.finished_nodup (h : f.Sound n) : f.finished.Nodup := by
  classical
  rw [List.nodup_iff_count_le_one]
  intro x
  have htally := h.tally x
  have hone := List.nodup_iff_count_le_one.mp h.nodup x
  unfold Flow.tally at htally
  omega

/-- A task that is in no queue and with no worker is finished. -/
theorem Flow.Sound.mem_finished (h : f.Sound n) {x : β} (hx : x ∈ f.entered) (hq : x ∉ f.queue)
    (hw : ∀ i < n, x ∉ (f.workers i).all) : x ∈ f.finished := by
  classical
  have hsum : ∑ i ∈ Finset.range n, (f.workers i).all.count x = 0 :=
    Finset.sum_eq_zero fun i hi => List.count_eq_zero.mpr (hw i (Finset.mem_range.mp hi))
  have htally := h.tally x
  have hpos := List.count_pos_iff.mpr hx
  have hqueue := List.count_eq_zero.mpr hq
  unfold Flow.tally at htally
  rw [← List.count_pos_iff]
  omega

/-! ## Scanning while tasks move -/

section Scan

variable {due : List β} {j b : Nat}

/-- None of the tasks `due` is in the deque for others to see, or on its way there. -/
def Holding.Clear (due : List β) (h : Holding β) : Prop :=
  ∀ x ∈ due, x ∉ h.visible ∧ x ∉ h.extras

/-- The tasks `due` that others see in the deque have an index below `b`. -/
def Holding.Behind (due : List β) (b : Nat) (h : Holding β) : Prop :=
  ∀ x ∈ due, x ∉ h.visible.drop (b - h.top) ∧ x ∉ h.extras

/-- The tasks `due` that are in the queue come before the position stored as `h`. -/
def Flow.Drained (due : List β) (h : Nat) (f : Flow β) : Prop :=
  ∃ old new, f.queue = old ++ new ∧ (∀ x ∈ due, x ∉ new) ∧
    ((f.tail + old.length) % globalQSize = h ∨ ∀ x ∈ due, x ∉ old)

/-- What a move does to the deque of worker `j`, as the others see it. -/
inductive Holding.Change (f : Flow β) : Holding β → Holding β → Prop
  | same {h h' : Holding β} (hv : h'.visible = h.visible) (he : h'.extras = h.extras)
    (ht : h'.top = h.top ∨ h.visible = []) : Change f h h'
  | pushed {h h' : Holding β} (x : β) (hnew : x ∉ f.entered) (hv : h'.visible = h.visible ++ [x])
    (he : h'.extras = h.extras) (ht : h'.top = h.top) : Change f h h'
  | unloaded {h h' : Holding β} (x : β) (hv : h'.visible = h.visible ++ [x])
    (he : h.extras = x :: h'.extras) (ht : h'.top = h.top) : Change f h h'
  | lowered {h h' : Holding β} (x : β) (hv : h.visible = h'.visible ++ [x])
    (he : h'.extras = h.extras) (ht : h'.top = h.top) : Change f h h'
  | stolen {h h' : Holding β} (x : β) (hv : h.visible = x :: h'.visible)
    (he : h'.extras = h.extras) (ht : h'.top = h.top + 1) : Change f h h'
  | pulled {h h' : Holding β} (hv : h'.visible = h.visible) (he : ∀ x ∈ h'.extras, x ∈ f.queue)
    (ht : h'.top = h.top) : Change f h h'

theorem Flow.set_workers (f : Flow β) (i j : Nat) (h : Holding β) :
    (f.set i h).workers j = if j = i then h else f.workers j :=
  Function.update_apply f.workers i h j

theorem Flow.Move.change (hm : f.Move n l f') (j : Nat) :
    Holding.Change f (f.workers j) (f'.workers j) := by
  have hsame : ∀ {i : Nat} {h : Holding β}, Holding.Change f (f.workers i) h →
      Holding.Change f (f.workers j) ((f.set i h).workers j) := by
    intro i h hi
    rw [Flow.set_workers]
    split_ifs with hj
    · exact hj ▸ hi
    · exact .same rfl rfl (.inl rfl)
  cases hm with
  | stay => exact .same rfl rfl (.inl rfl)
  | submit xs => exact .same rfl rfl (.inl rfl)
  | enqueue i xs => exact .same rfl rfl (.inl rfl)
  | push i x hi hbusy hnew => exact hsame (.pushed x hnew rfl rfl rfl)
  | claim i v x hi hv hc => exact hsame (.lowered x hv rfl rfl)
  | pop i x top hi hc hh htop => exact hsame (.same rfl rfl htop)
  | steal i v x vis c hi hj hne hv hh =>
    -- the thief's deque stays, its victim loses a task that the others see or one that a
    -- pop has claimed
    rw [Flow.set_workers]
    split_ifs with hji
    · subst hji
      exact .same rfl rfl (.inl rfl)
    · apply hsame
      rcases hv with ⟨hv, -⟩ | ⟨hv, hvis, -⟩
      · exact .stolen x hv rfl rfl
      · exact .same (hvis.trans hv.symm) rfl (.inr hv)
  | pull i x rest q hi hq he hh =>
    refine hsame (.pulled rfl (fun y hy => ?_) rfl)
    rw [hq]
    exact List.mem_append_left _ (List.mem_cons_of_mem _ hy)
  | unload i x rest hi he => exact hsame (.unloaded x rfl he rfl)
  | finish i x hi hh => exact hsame (.same rfl rfl (.inl rfl))

/-- A deque that was found without due tasks stays so. -/
theorem Flow.Move.clear (hm : f.Move n l f') (hdue : ∀ x ∈ due, x ∈ f.entered)
    (hqueue : ∀ x ∈ due, x ∉ f.queue) (h : (f.workers j).Clear due) : (f'.workers j).Clear due := by
  intro x hx
  obtain ⟨hvis, hext⟩ := h x hx
  cases hm.change j with
  | same hv he =>
    rw [hv, he]
    exact ⟨hvis, hext⟩
  | pushed y hnew hv he =>
    rw [hv, he]
    refine ⟨fun hc => ?_, hext⟩
    rcases List.mem_append.mp hc with hc | hc
    · exact hvis hc
    · exact hnew (List.mem_singleton.mp hc ▸ hdue x hx)
  | unloaded y hv he =>
    rw [he] at hext
    rw [hv]
    refine ⟨fun hc => ?_, fun hc => hext (List.mem_cons_of_mem _ hc)⟩
    rcases List.mem_append.mp hc with hc | hc
    · exact hvis hc
    · exact hext (List.mem_singleton.mp hc ▸ List.mem_cons_self)
  | lowered y hv he =>
    rw [hv] at hvis
    rw [he]
    exact ⟨fun hc => hvis (List.mem_append_left _ hc), hext⟩
  | stolen y hv he =>
    rw [hv] at hvis
    rw [he]
    exact ⟨fun hc => hvis (List.mem_cons_of_mem _ hc), hext⟩
  | pulled hv he =>
    rw [hv]
    exact ⟨hvis, fun hc => hqueue x hx (he x hc)⟩

/-- Due tasks do not get beyond an index that was read from `bottom`. -/
theorem Flow.Move.behind (hm : f.Move n l f') (hdue : ∀ x ∈ due, x ∈ f.entered)
    (hqueue : ∀ x ∈ due, x ∉ f.queue) (h : (f.workers j).Behind due b) :
    (f'.workers j).Behind due b := by
  intro x hx
  obtain ⟨hvis, hext⟩ := h x hx
  have hsnoc : ∀ {k : Nat} {v : List β} {y : β}, x ∉ v.drop k → x ≠ y → x ∉ (v ++ [y]).drop k := by
    intro k v y hv hne hc
    rw [List.drop_append] at hc
    rcases List.mem_append.mp hc with hc | hc
    · exact hv hc
    · exact hne (List.mem_singleton.mp (List.mem_of_mem_drop hc))
  cases hm.change j with
  | same hv he ht =>
    rw [hv, he]
    refine ⟨?_, hext⟩
    rcases ht with ht | ht
    · rw [ht]
      exact hvis
    · simp [ht]
  | pushed y hnew hv he ht =>
    rw [hv, he, ht]
    exact ⟨hsnoc hvis fun heq => hnew (heq ▸ hdue x hx), hext⟩
  | unloaded y hv he ht =>
    rw [he] at hext
    rw [hv, ht]
    refine ⟨hsnoc hvis fun heq => hext (heq ▸ List.mem_cons_self),
      fun hc => hext (List.mem_cons_of_mem _ hc)⟩
  | lowered y hv he ht =>
    rw [hv] at hvis
    rw [he, ht]
    refine ⟨fun hc => hvis ?_, hext⟩
    rw [List.drop_append]
    exact List.mem_append_left _ hc
  | stolen y hv he ht =>
    rw [hv] at hvis
    rw [he, ht]
    refine ⟨fun hc => hvis ?_, hext⟩
    -- the remaining tasks have the indices they had before
    rcases Nat.lt_or_ge (f.workers j).top b with hlt | hge
    · rw [show b - (f.workers j).top = (b - ((f.workers j).top + 1)) + 1 by omega]
      exact hc
    · rw [show b - (f.workers j).top = 0 by omega]
      exact List.mem_cons_of_mem _ (List.mem_of_mem_drop hc)
  | pulled hv he ht =>
    rw [hv, ht]
    exact ⟨hvis, fun hc => hqueue x hx (he x hc)⟩

/-- Due tasks enter the queue only once. -/
theorem Flow.Move.queue_clear (hm : f.Move n l f') (hdue : ∀ x ∈ due, x ∈ f.entered)
    (hqueue : ∀ x ∈ due, x ∉ f.queue) : ∀ x ∈ due, x ∉ f'.queue := by
  intro x hx
  have happend : ∀ {xs : List β}, (∀ y ∈ xs, y ∉ f.entered) → x ∉ f.queue ++ xs := by
    intro xs hnew hc
    rcases List.mem_append.mp hc with hc | hc
    · exact hqueue x hx hc
    · exact hnew x hc (hdue x hx)
  cases hm with
  | submit xs hnew => exact happend hnew
  | enqueue i xs hi hbusy hnew => exact happend hnew
  | pull i y rest q hi hq =>
    intro hc
    exact hqueue x hx (hq ▸ List.mem_append_right _ hc)
  | stay | push | claim | pop | steal | unload | finish => exact hqueue x hx

theorem Flow.Move.drained {h : Nat} (hm : f.Move n l f') (hdue : ∀ x ∈ due, x ∈ f.entered)
    (hd : f.Drained due h) : f'.Drained due h := by
  obtain ⟨old, new, hq, hnew, hold⟩ := hd
  have happend : ∀ {xs : List β}, (∀ y ∈ xs, y ∉ f.entered) →
      Flow.Drained due h { f with queue := f.queue ++ xs, entered := f.entered ++ xs } := by
    intro xs hfresh
    refine ⟨old, new ++ xs, ?_, fun x hx hc => ?_, hold⟩
    · show f.queue ++ xs = _
      rw [hq, List.append_assoc]
    · rcases List.mem_append.mp hc with hc | hc
      · exact hnew x hx hc
      · exact hfresh x hc (hdue x hx)
  cases hm with
  | submit xs hfresh => exact happend hfresh
  | enqueue i xs hi hbusy hfresh => exact happend hfresh
  | pull i y rest q hi hpull =>
    rcases List.append_eq_append_iff.mp (hpull.symm.trans hq) with ⟨old', hold', hq'⟩ |
      ⟨c, hc, hnew'⟩
    · -- the batch is a part of the old tasks
      refine ⟨old', new, hq', hnew, ?_⟩
      rcases hold with hold | hold
      · left
        rw [← hold, hold', List.length_append, Nat.mod_add_mod, Nat.add_assoc]
      · right
        intro x hx hc
        exact hold x hx (hold' ▸ List.mem_append_right _ hc)
    · -- the old tasks are gone
      refine ⟨[], q, rfl, fun x hx hc => hnew x hx ?_, .inr fun _ _ => List.not_mem_nil⟩
      rw [hnew']
      exact List.mem_append_right _ hc
  | stay | push | claim | pop | steal | unload | finish => exact ⟨old, new, hq, hnew, hold⟩

/-- `tail` equal to the `head` read before: no due task is left in the queue. -/
theorem Flow.Drained.clear (hd : f.Drained due f.tail) (hlen : f.queue.length < globalQSize) :
    ∀ x ∈ due, x ∉ f.queue := by
  obtain ⟨old, new, hq, hnew, hold⟩ := hd
  intro x hx hc
  rw [hq] at hc hlen
  rw [List.length_append] at hlen
  rcases List.mem_append.mp hc with hc | hc
  · rcases hold with hold | hold
    · have hpos : 0 < old.length := List.length_pos_of_mem hc
      rw [globalQSize_eq] at hold hlen
      omega
    · exact hold x hx hc
  · exact hnew x hx hc

/-- No worker has taken a task out of a queue that it has not finished. -/
def Flow.Quiet (n : Nat) (f : Flow β) : Prop :=
  ∀ i < n, (f.workers i).claimed = [] ∧ (f.workers i).extras = [] ∧ (f.workers i).hand = []

/-- Then nothing moves by itself. -/
theorem Flow.Move.eq_of_quiet (hm : f.Move n .inside f') (h : f.Quiet n) : f' = f := by
  cases hm with
  | stay => rfl
  | enqueue i xs hi hbusy => exact absurd (h i hi).2.2 hbusy
  | push i x hi hbusy => exact absurd (h i hi).2.2 hbusy
  | pop i x top hi hc => exact absurd ((h i hi).1.symm.trans hc) nofun
  | unload i x rest hi he => exact absurd ((h i hi).2.1.symm.trans he) nofun
  | finish i x hi hh => exact absurd ((h i hi).2.2.symm.trans hh) nofun

end Scan

end Solidc.Threadpool
