import Solidc.Lib.Transition
import Mathlib.Data.List.Basic
import Mathlib.Tactic.Common
import Mathlib.Algebra.Ring.Nat

/-! # Programs with several pools

Threads of a program create pools and submit to any of them, also from within tasks. A
thread is known to the submit functions only by its thread-local `tls_worker_index`, which
`worker_thread` sets to the index of its worker and which carries no pool. The model keeps
the threads, the sizes of the pools and every call of a queue operation that a submission
makes; what a deque answers (full or not) and whether `malloc` succeeds is arbitrary.

* `threadpoolSubmit`, `threadpoolSubmitBatch` — the queue operations that the two calls make;
* `Program.OwnerOnly` — the precondition of `deque_push_bottom` at every call;
* `ownerOnly_of_native` — it holds in every run in which workers submit to their own pool only;
* `foreign_push` — a worker of another pool always breaks it.
-/

namespace Solidc.Threadpool

open CLib

/-! ## The submit functions -/

/-- `SIZE_MAX`, the index of an external thread. -/
def sizeMax : Nat := 2 ^ 64 - 1

/-- An operation on a queue of the pool submitted to: `deque_push_bottom` on the deque of
`workers[index]`, `gq_push` or `gq_push_batch`. -/
inductive QueueOp (τ : Type*) where
  | pushBottom (index : Nat) (task : τ)
  | gqPush (task : τ)
  | gqPushBatch (tasks : List τ)

variable {τ : Type*}

/-- `threadpool_submit`, where `none` is a NULL function and `room` is what
`deque_push_bottom` returns. -/
def threadpoolSubmit (tls : Nat) (room : Bool) : Option τ → List (QueueOp τ)
  | none => []
  | some task =>
    if tls ≠ sizeMax then
      .pushBottom tls task :: if room then [] else [.gqPush task]
    else [.gqPush task]

/-- The loop of a worker in `threadpool_submit_batch` from the `i`-th function on. The first
task that the deque refuses goes with all later ones to the global queue, if the array for
them can be allocated. -/
def submitOwn (tls : Nat) (room : Nat → Bool) (alloc : Bool) : Nat → List (Option τ) →
    List (QueueOp τ)
  | _, [] => []
  | i, none :: rest => submitOwn tls room alloc (i + 1) rest
  | i, some task :: rest =>
    .pushBottom tls task ::
      if room i then submitOwn tls room alloc (i + 1) rest
      else if alloc then [.gqPushBatch (task :: rest.filterMap id)]
      else []

/-- `threadpool_submit_batch`. Up to 64 tasks of an external thread need no allocation. -/
def threadpoolSubmitBatch (tls : Nat) (room : Nat → Bool) (alloc : Bool)
    (functions : List (Option τ)) : List (QueueOp τ) :=
  if functions.length = 0 then []
  else if tls ≠ sizeMax then submitOwn tls room alloc 0 functions
  else if functions.length ≤ 64 ∨ alloc then [.gqPushBatch (functions.filterMap id)]
  else []

/-! ## Programs -/

/-- A thread. `worker` is the argument of `worker_thread`, the pool and the index in it;
other threads have none. -/
structure ThreadState where
  worker : Option (Nat × Nat)
  tlsWorkerIndex : Nat
  running : Bool

/-- The operation `op` that thread `caller` makes on pool `pool`. -/
structure PoolOp (τ : Type*) where
  caller : Nat
  pool : Nat
  op : QueueOp τ

/-- The threads and pools by number, `pools` holding `num_workers`, and the history of the
queue operations. -/
structure Program (τ : Type*) where
  threads : List ThreadState
  pools : List Nat
  ops : List (PoolOp τ)

inductive ProgramAct (τ : Type*) where
  /-- A thread starts that is no worker. -/
  | spawn
  /-- `threadpool_create`. -/
  | create (numThreads : Nat)
  /-- The first statement of `worker_thread`. -/
  | start (thread : Nat)
  | submit (thread pool : Nat) (function : Option τ) (room : Bool)
  | submitBatch (thread pool : Nat) (functions : List (Option τ)) (room : Nat → Bool)
      (alloc : Bool)

/-- A thread before its first statement. -/
def ThreadState.fresh (worker : Option (Nat × Nat)) (running : Bool) : ThreadState :=
  ⟨worker, sizeMax, running⟩

/-- The worker threads that `threadpool_create` starts for pool number `pool`. -/
def workersOf (pool numWorkers : Nat) : List ThreadState :=
  (List.range numWorkers).map fun i => .fresh (some (pool, i)) false

/-- Thread `caller` makes the operations of one submission. -/
def Program.record (s : Program τ) (caller pool : Nat) (ops : List (QueueOp τ)) : Program τ :=
  { s with ops := s.ops ++ ops.map (⟨caller, pool, ·⟩) }

/-- A submission by a running thread to a pool that exists, `ops` being what the submit
function does under the thread's `tls_worker_index`. -/
def Program.call (s : Program τ) (caller pool : Nat) (ops : Nat → List (QueueOp τ)) :
    Option (Program τ) :=
  match s.threads[caller]? with
  | some thread =>
    if thread.running ∧ pool < s.pools.length then
      some (s.record caller pool (ops thread.tlsWorkerIndex))
    else none
  | none => none

def Program.perform (s : Program τ) : ProgramAct τ → Option (Program τ)
  | .spawn => some { s with threads := s.threads ++ [.fresh none true] }
  | .create numThreads =>
    if numThreads ≤ sizeMax then
      let numWorkers := if numThreads = 0 then 1 else numThreads
      some { s with
        pools := s.pools ++ [numWorkers]
        threads := s.threads ++ workersOf s.pools.length numWorkers }
    else none
  | .start t =>
    match s.threads[t]? with
    | some ⟨some (pool, index), _, false⟩ =>
      some { s with threads := s.threads.set t ⟨some (pool, index), index, true⟩ }
    | _ => none
  | .submit t pool function room =>
    s.call t pool fun tls => threadpoolSubmit tls room function
  | .submitBatch t pool functions room alloc =>
    s.call t pool fun tls => threadpoolSubmitBatch tls room alloc functions

/-- Every program with any number of pools: it starts with its main thread. -/
def programs (τ : Type*) : System (Program τ) (ProgramAct τ) where
  init s := s = ⟨[.fresh none true], [], []⟩
  step s a s' := s.perform a = some s'

/-- Thread `t` is worker `i` of the pool `q`, which has such a worker. -/
def Program.Owns (s : Program τ) (t q i : Nat) : Prop :=
  (∃ thread, s.threads[t]? = some thread ∧ thread.worker = some (q, i)) ∧
    ∃ n, s.pools[q]? = some n ∧ i < n

/-- `deque_push_bottom` is called by the owner of the deque only. -/
def Program.OwnerOnly (s : Program τ) : Prop :=
  ∀ op ∈ s.ops, ∀ i task, op.op = .pushBottom i task → s.Owns op.caller op.pool i

/-- The thread is no worker of a pool other than `q`. -/
def Program.Native (s : Program τ) (t q : Nat) : Prop :=
  ∀ thread ∈ s.threads[t]?, ∀ p i, thread.worker = some (p, i) → p = q

/-- The condition on a step: workers submit to their own pool. -/
def SubmitsNatively (s : Program τ) : ProgramAct τ → Prop
  | .submit t q _ _ => s.Native t q
  | .submitBatch t q _ _ _ => s.Native t q
  | _ => True

/-! ## What a submission pushes -/

/-- The only deque that a batch touches is that of the thread's index. -/
theorem submitOwn_index {tls : Nat} {room : Nat → Bool} {alloc : Bool} {functions : List (Option τ)}
    {j i : Nat} {task : τ} (h : .pushBottom i task ∈ submitOwn tls room alloc j functions) :
    i = tls := by
  induction functions generalizing j with
  | nil => simp [submitOwn] at h
  | cons f rest ih =>
    cases f with
    | none => exact ih h
    | some first =>
      rw [submitOwn, List.mem_cons] at h
      rcases h with h | h
      · injection h
      · split at h
        · exact ih h
        · split at h <;> simp at h

/-- An operation on a deque is on that of the thread's index, and external threads make none. -/
def PushesAt (tls : Nat) (ops : List (QueueOp τ)) : Prop :=
  ∀ i task, .pushBottom i task ∈ ops → i = tls ∧ tls ≠ sizeMax

theorem threadpoolSubmit_pushesAt (tls : Nat) (room : Bool) (function : Option τ) :
    PushesAt tls (threadpoolSubmit tls room function) := by
  intro i task h
  cases function with
  | none => simp [threadpoolSubmit] at h
  | some first =>
    by_cases htls : tls = sizeMax
    · simp [threadpoolSubmit, htls] at h
    · cases room <;> simp [threadpoolSubmit, htls] at h <;> exact ⟨h.1, htls⟩

theorem threadpoolSubmitBatch_pushesAt (tls : Nat) (room : Nat → Bool) (alloc : Bool)
    (functions : List (Option τ)) :
    PushesAt tls (threadpoolSubmitBatch tls room alloc functions) := by
  intro i task h
  unfold threadpoolSubmitBatch at h
  split at h
  · simp at h
  · split at h
    case isTrue htls => exact ⟨submitOwn_index h, htls⟩
    case isFalse =>
      split at h <;> simp at h

/-! ## The invariant -/

variable {s s' : Program τ}

/-- What `tls_worker_index` says about a thread: the index of its worker, once it runs. -/
structure ThreadState.Placed (t : ThreadState) (pools : List Nat) : Prop where
  external : t.worker = none → t.tlsWorkerIndex = sizeMax
  index : ∀ q i, t.worker = some (q, i) → t.running = true → t.tlsWorkerIndex = i
  inside : ∀ q i, t.worker = some (q, i) → ∃ n, pools[q]? = some n ∧ i < n

/-- Every thread is placed and every push so far was made by an owner. -/
structure Program.Inv (s : Program τ) : Prop where
  placed : ∀ t ∈ s.threads, t.Placed s.pools
  owned : s.OwnerOnly

/-- Threads keep their workers and pools their sizes. -/
theorem Program.Owns.mono {t q i : Nat} (h : s.Owns t q i)
    (hthreads : ∀ thread, s.threads[t]? = some thread →
      ∃ thread', s'.threads[t]? = some thread' ∧ thread'.worker = thread.worker)
    (hpools : s.pools <+: s'.pools) : s'.Owns t q i := by
  obtain ⟨⟨thread, hthread, hworker⟩, n, hn, hi⟩ := h
  obtain ⟨thread', hthread', hsame⟩ := hthreads thread hthread
  obtain ⟨more, hmore⟩ := hpools
  refine ⟨⟨thread', hthread', by rw [hsame, hworker]⟩, n, ?_, hi⟩
  rw [← hmore, List.getElem?_append_left (List.getElem?_eq_some_iff.mp hn).1, hn]

theorem ThreadState.Placed.mono {t : ThreadState} {pools pools' : List Nat} (h : t.Placed pools)
    (hpools : pools <+: pools') : t.Placed pools' := by
  refine ⟨h.external, h.index, fun q i hw => ?_⟩
  obtain ⟨n, hn, hi⟩ := h.inside q i hw
  obtain ⟨more, rfl⟩ := hpools
  exact ⟨n, by rw [List.getElem?_append_left (List.getElem?_eq_some_iff.mp hn).1, hn], hi⟩

/-- New threads and pools leave the history as it is. -/
theorem Program.Inv.extend {threads : List ThreadState} {pools : List Nat} (h : s.Inv)
    (hnew : ∀ t ∈ threads, t.Placed (s.pools ++ pools)) :
    Program.Inv { s with threads := s.threads ++ threads, pools := s.pools ++ pools } := by
  have hpools : s.pools <+: s.pools ++ pools := List.prefix_append _ _
  constructor
  · intro t ht
    rcases List.mem_append.mp ht with ht | ht
    · exact (h.placed t ht).mono hpools
    · exact hnew t ht
  · intro op hop i task heq
    refine (h.owned op hop i task heq).mono (fun thread hthread => ?_) hpools
    refine ⟨thread, ?_, rfl⟩
    exact (List.getElem?_append_left (List.getElem?_eq_some_iff.mp hthread).1).trans hthread

theorem workersOf_placed {pool numWorkers : Nat} {pools : List Nat}
    (hpool : pools[pool]? = some numWorkers) :
    ∀ t ∈ workersOf pool numWorkers, t.Placed pools := by
  intro t ht
  obtain ⟨i, hi, rfl⟩ := List.mem_map.mp ht
  refine ⟨fun _ => rfl, fun _ _ _ hrun => absurd hrun (by simp [ThreadState.fresh]), ?_⟩
  rintro q j hw
  obtain ⟨rfl, rfl⟩ : pool = q ∧ i = j := by simpa [ThreadState.fresh] using hw
  exact ⟨numWorkers, hpool, List.mem_range.mp hi⟩

/-- A worker thread sets its index. -/
theorem Program.Inv.start {t q i tls : Nat} (h : s.Inv)
    (ht : s.threads[t]? = some ⟨some (q, i), tls, false⟩) :
    Program.Inv { s with threads := s.threads.set t ⟨some (q, i), i, true⟩ } := by
  constructor
  · intro thread hmem
    rcases List.mem_or_eq_of_mem_set hmem with hmem | rfl
    · exact h.placed thread hmem
    · refine ⟨nofun, fun p j hw _ => ?_, fun p j hw => ?_⟩
      · simp only [Option.some.injEq, Prod.mk.injEq] at hw
        exact hw.2
      · exact (h.placed _ (List.mem_of_getElem? ht)).inside p j hw
  · intro op hop j task heq
    refine (h.owned op hop j task heq).mono (fun thread hthread => ?_) (List.prefix_refl _)
    -- only the thread that starts changes, and it keeps its worker
    by_cases hcaller : op.caller = t
    · rw [hcaller, ht] at hthread
      obtain rfl := Option.some.inj hthread
      refine ⟨⟨some (q, i), i, true⟩, ?_, rfl⟩
      rw [hcaller]
      exact List.getElem?_set_self (List.getElem?_eq_some_iff.mp ht).1
    · exact ⟨thread, (List.getElem?_set_ne (Ne.symm hcaller)).trans hthread, rfl⟩

/-- A running thread that is no worker of another pool owns the deque it pushes to. -/
theorem Program.Inv.owns {t q i : Nat} {thread : ThreadState} (h : s.Inv)
    (ht : s.threads[t]? = some thread) (hrun : thread.running = true) (hnative : s.Native t q)
    (hi : i = thread.tlsWorkerIndex) (hext : thread.tlsWorkerIndex ≠ sizeMax) : s.Owns t q i := by
  have hplaced := h.placed thread (List.mem_of_getElem? ht)
  rcases hw : thread.worker with _ | ⟨p, j⟩
  · exact absurd (hplaced.external hw) hext
  · obtain rfl := hnative thread ht p j hw
    obtain rfl : i = j := hi.trans (hplaced.index p j hw hrun)
    exact ⟨⟨thread, ht, hw⟩, hplaced.inside p i hw⟩

theorem Program.Inv.call {t q : Nat} {ops : Nat → List (QueueOp τ)} (h : s.Inv)
    (hnative : s.Native t q) (hops : ∀ tls, PushesAt tls (ops tls))
    (hcall : s.call t q ops = some s') : s'.Inv := by
  unfold Program.call at hcall
  split at hcall
  case h_2 => cases hcall
  case h_1 thread ht =>
    split at hcall
    case isFalse => cases hcall
    case isTrue hrun =>
      obtain rfl := Option.some.inj hcall
      refine ⟨h.placed, fun op hop i task heq => ?_⟩
      rcases List.mem_append.mp hop with hop | hop
      · exact h.owned op hop i task heq
      · obtain ⟨qop, hqop, rfl⟩ := List.mem_map.mp hop
        obtain rfl : qop = .pushBottom i task := heq
        obtain ⟨hi, hext⟩ := hops _ i task hqop
        exact h.owns ht hrun.1 hnative hi hext

theorem perform_programInv {a : ProgramAct τ} (h : s.Inv) (hc : SubmitsNatively s a)
    (hstep : s.perform a = some s') : s'.Inv := by
  cases a with
  | spawn =>
    obtain rfl := Option.some.inj hstep
    have hnew : ∀ t ∈ [ThreadState.fresh none true], t.Placed (s.pools ++ []) := by
      intro t ht
      obtain rfl := List.mem_singleton.mp ht
      exact ⟨fun _ => rfl, nofun, nofun⟩
    simpa using h.extend hnew
  | create numThreads =>
    simp only [Program.perform] at hstep
    split at hstep
    · obtain rfl := Option.some.inj hstep
      exact h.extend (workersOf_placed (by simp))
    · cases hstep
  | start t =>
    simp only [Program.perform] at hstep
    split at hstep
    · next ht =>
      obtain rfl := Option.some.inj hstep
      exact h.start ht
    · cases hstep
  | submit t q function room =>
    exact h.call hc (fun tls => threadpoolSubmit_pushesAt tls room function) hstep
  | submitBatch t q functions room alloc =>
    exact h.call hc (fun tls => threadpoolSubmitBatch_pushesAt tls room alloc functions) hstep

/-! ## Runs -/

/-- In every run in which no worker submits to another pool, `deque_push_bottom` is called by
the owner of the deque only, and every caller that owns no deque of the pool uses its global
queue. -/
theorem ownerOnly_of_native (h : Reach (programs τ) SubmitsNatively s) :
    s.OwnerOnly ∧ ∀ op ∈ s.ops, (∀ i, ¬ s.Owns op.caller op.pool i) →
      ∀ i task, op.op ≠ .pushBottom i task := by
  have hinv : s.Inv := by
    refine h.invariant Program.Inv ?_ fun s a s' hs hc hstep => perform_programInv hs hc hstep
    rintro s rfl
    refine ⟨fun t ht => ?_, by simp [Program.OwnerOnly]⟩
    obtain rfl := List.mem_singleton.mp ht
    exact ⟨fun _ => rfl, nofun, nofun⟩
  exact ⟨hinv.owned, fun op hop hno i task heq => hno i (hinv.owned op hop i task heq)⟩

/-- Two pools of one worker each. -/
def twoPools : List (ProgramAct Nat) := [.create 1, .start 1, .create 1, .start 2]

/-- The main thread submits to the first pool, whose worker submits to its own pool. -/
def homeRun : List (ProgramAct Nat) :=
  twoPools ++ [.submit 0 0 (some 7) true, .submit 1 0 (some 8) true]

instance (s : Program τ) (t q : Nat) : Decidable (s.Native t q) :=
  decidable_of_iff (∀ thread ∈ s.threads[t]?, ∀ w ∈ thread.worker, w.1 = q)
    ⟨fun h thread ht p i hw => h thread ht (p, i) hw,
      fun h thread ht w hw => h thread ht w.1 w.2 hw⟩

instance (s : Program τ) : (a : ProgramAct τ) → Decidable (SubmitsNatively s a)
  | .submit t q _ _ => inferInstanceAs (Decidable (s.Native t q))
  | .submitBatch t q _ _ _ => inferInstanceAs (Decidable (s.Native t q))
  | .spawn | .create _ | .start _ => isTrue trivial

/-- A step that meets the condition. -/
def Program.performNatively (s : Program τ) (a : ProgramAct τ) : Option (Program τ) :=
  if SubmitsNatively s a then s.perform a else none

theorem performNatively_step {a : ProgramAct τ} (h : s.performNatively a = some s') :
    SubmitsNatively s a ∧ (programs τ).step s a s' := by
  unfold Program.performNatively at h
  split at h
  case isTrue hc => exact ⟨hc, h⟩
  case isFalse => cases h

theorem ownerOnly_homeRun : ∃ s, Reach (programs Nat) SubmitsNatively s ∧
    s.ops.length = 2 ∧ s.OwnerOnly := by
  have hrun : ∃ s, homeRun.foldlM Program.performNatively ⟨[.fresh none true], [], []⟩ = some s ∧
      s.ops.length = 2 := by
    refine ⟨_, rfl, rfl⟩
  obtain ⟨s, hs, hlen⟩ := hrun
  have hreach : Reach (programs Nat) SubmitsNatively s :=
    Reach.run (fun _ _ _ => performNatively_step) (.init rfl) hs
  exact ⟨s, hreach, hlen, (ownerOnly_of_native hreach).1⟩

/-- A worker of another pool never owns the deque that its first task goes to. -/
theorem foreign_push {t q p i : Nat} {thread : ThreadState} {task : τ} {room : Bool}
    (ht : s.threads[t]? = some thread) (hw : thread.worker = some (p, i))
    (htls : thread.tlsWorkerIndex ≠ sizeMax) (hpq : p ≠ q)
    (hstep : s.perform (.submit t q (some task) room) = some s') : ¬ s'.OwnerOnly := by
  simp only [Program.perform, Program.call, ht] at hstep
  split at hstep
  case isFalse => cases hstep
  case isTrue =>
    obtain rfl := Option.some.inj hstep
    intro howner
    have hpush : ⟨t, q, .pushBottom thread.tlsWorkerIndex task⟩ ∈
        (s.record t q (threadpoolSubmit thread.tlsWorkerIndex room (some task))).ops := by
      simp [Program.record, threadpoolSubmit, htls]
    obtain ⟨⟨thread', ht', hw'⟩, -⟩ := howner _ hpush _ _ rfl
    obtain rfl := Option.some.inj (ht.symm.trans ht')
    rw [hw] at hw'
    injection hw' with hw'
    injection hw' with hp
    exact hpq hp

/-- The worker of the first of two pools submits to the second one. -/
theorem foreign_worker_pushes : ∃ s, Reach (programs Nat) AnyStep s ∧ ¬ s.OwnerOnly := by
  have hrun : ∃ s s', twoPools.foldlM Program.perform ⟨[.fresh none true], [], []⟩ = some s ∧
      s.threads[1]? = some ⟨some (0, 0), 0, true⟩ ∧
      s.perform (.submit 1 1 (some 7) true) = some s' := by
    refine ⟨_, _, rfl, rfl, rfl⟩
  obtain ⟨s, s', hs, ht, hstep⟩ := hrun
  have hreach : Reach (programs Nat) AnyStep s :=
    Reach.run (fun _ _ _ h => ⟨trivial, h⟩) (.init rfl) hs
  exact ⟨s', hreach.step trivial hstep,
    foreign_push ht rfl (by decide) (by decide) hstep⟩

end Solidc.Threadpool
