import Solidc.Lib.Transition
import Solidc.Threadpool.Deque
import Solidc.Threadpool.Queue

/-! # The thread pool

A pool is used by its workers and by any number of client threads. A client submits
tasks, waits for the pool to be idle, or destroys it; a running task may submit more
tasks. A step is one access to shared memory (a critical section of the global queue counts
as one), one lock or condition operation, or a step of a task. Every sequentially consistent
interleaving is a run, and a thread may wake up from a condition at any time.

* `WorkerPC`, `ClientPC` — the program points of `worker_thread` and of the public functions;
* `workerStep`, `clientStep` — one step of a thread;
* `threadpool` — the system of all of them.

Each submission gets a number of its own, so that equal tasks are told apart.
-/

namespace Solidc.Threadpool

open CLib

def batchSize : Nat := 64
def yieldThreshold : Nat := 8

/-! ## Program points -/

/-- The scan of all queues that parking, idle detection, waiting and destroying make. -/
inductive ScanPC where
  | head
  | tail (h : Nat)
  | bottom (i : Nat)
  | top (i b : Nat)

/-- `unpark_one`. -/
inductive UnparkPC where
  | load
  | lock
  | signal
  | unlock

/-- A call of `threadpool_submit` or `threadpool_submit_batch`. Tasks not yet in a queue are
in the first argument or `rest`; those of a batch that are, in `pushed`. -/
inductive Call (α : Type*) where
  | push (pc : PushPC α)
  | queue (task : α)
  | pushEach (pushed rest : List α) (alloc : Bool) (pc : PushPC α)
  | queueEach (pushed rest : List α)
  | unpark (accepted : List α) (pc : UnparkPC)

/-- The startup barrier. -/
inductive StartPC where
  | arrive
  | barrier
  | enlist

/-- The idle detection after a task. -/
inductive IdlePC where
  | scan (pc : ScanPC)
  | lock
  | load
  | broadcast
  | unlock

/-- `worker_park`. -/
inductive ParkPC where
  | raise
  | lock
  | scan (pc : ScanPC)
  | shutdown
  | wait
  | asleep
  | relock
  | unlock
  | lower

/-- The end of `worker_thread`. -/
inductive ExitPC where
  | leave
  | lock
  | broadcast
  | unlock
  | exited

/-- `worker_thread`, with `try_steal` and what the running task calls. -/
inductive WorkerPC (α : Type*) where
  | start (pc : StartPC)
  | check
  | pop (pc : PopPC α)
  | steal (start k : Nat) (pc : StealPC α)
  | pull
  | pullEmpty
  | unload (first : α) (rest : List α) (pc : PushPC α)
  | spill (first : α) (rest : List α)
  | execute (task : α)
  | running (task : α)
  | submitting (task : α) (call : Call α)
  | retire
  | idle (pc : IdlePC)
  | park (pc : ParkPC)
  | exit (pc : ExitPC)

/-- `threadpool_wait`. -/
inductive WaitPC where
  | lock
  | load
  | scan (pc : ScanPC)
  | wait
  | asleep
  | relock
  | unlock

/-- `threadpool_destroy`. -/
inductive DestroyPC where
  | lock
  | scan (pc : ScanPC)
  | load (anyWork : Bool)
  | wait
  | asleep
  | relock
  | shutdown
  | unlock
  | parkLock
  | broadcast
  | parkUnlock
  | await
  | join (i : Nat)
  | returned

inductive ClientPC (α : Type*) where
  | idle
  | submitting (call : Call α)
  | waiting (pc : WaitPC)
  | destroying (pc : DestroyPC)

/-! ## States -/

/-- A worker: its deque, its program point, and the locals `spin` and `rng`. -/
structure Worker (α : Type*) where
  deque : Deque α
  pc : WorkerPC α
  spin : Nat
  rng : UInt64

inductive Thread (K : Type*) where
  | worker (i : Nat)
  | client (k : K)

/-- A submission: its number and its task. -/
abbrev Job (α : Type*) : Type _ := Nat × α

/-- `Threadpool`, its threads, and the history of its tasks. -/
structure Pool (K α : Type*) where
  shutdown : Bool
  numThreadsAlive : Nat
  numWorkers : Nat
  workersReady : Nat
  gq : GlobalQueue (Job α)
  parkLock : Option (Thread K)
  numParked : Nat
  idleLock : Option (Thread K)
  numActive : Nat
  workers : Nat → Worker (Job α)
  clients : K → ClientPC (Job α)
  /-- The number of submissions so far. -/
  serial : Nat
  /-- The tasks that were put into a queue. -/
  entered : List (Job α)
  /-- The tasks that a submit call reported as accepted. -/
  accepted : List (Job α)
  /-- The tasks that were executed. -/
  finished : List (Job α)
  /-- The tasks that were accepted when `threadpool_destroy` was called. -/
  due : List (Job α)

inductive Request (α : Type*) where
  | submit (task : α)
  | submitBatch (tasks : List (Option α)) (alloc : Bool)

inductive PoolAct (K α : Type*) where
  /-- The next step of a worker; a `cond_signal` wakes the worker `woken`. -/
  | worker (i woken : Nat)
  /-- The running task of a worker submits, or returns. -/
  | task (i : Nat) (request : Request α)
  | finish (i : Nat)
  /-- A client calls, or makes its next step. -/
  | submit (k : K) (request : Request α)
  | wait (k : K)
  | destroy (k : K)
  | client (k : K) (woken : Nat)
  /-- A thread wakes up, by itself or after a timeout. -/
  | wakeWorker (i : Nat)
  | wakeClient (k : K)

variable {K α : Type*}

/-- `threadpool_create`, when all threads are started. -/
def threadpoolCreate (K : Type*) (numThreads : Nat) (tasks : Nat → Nat → Job α)
    (gqTasks : Nat → Job α) : Pool K α where
  shutdown := false
  numThreadsAlive := 0
  numWorkers := if numThreads = 0 then 1 else numThreads
  workersReady := 0
  gq := gqInit gqTasks
  parkLock := none
  numParked := 0
  idleLock := none
  numActive := 0
  workers i := ⟨dequeInit (tasks i), .start .arrive, 0, 0⟩
  clients _ := .idle
  serial := 0
  entered := []
  accepted := []
  finished := []
  due := []

namespace Pool

variable (s : Pool K α)

def setWorker (i : Nat) (w : Worker (Job α)) : Pool K α :=
  { s with workers := Function.update s.workers i w }

def setPc (i : Nat) (pc : WorkerPC (Job α)) : Pool K α :=
  s.setWorker i { s.workers i with pc := pc }

def setDeque (i : Nat) (d : Deque (Job α)) : Pool K α :=
  s.setWorker i { s.workers i with deque := d }

def setClient [DecidableEq K] (k : K) (pc : ClientPC (Job α)) : Pool K α :=
  { s with clients := Function.update s.clients k pc }

/-- `tasks` are put into a queue. -/
def enter (tasks : List (Job α)) : Pool K α := { s with entered := s.entered ++ tasks }

/-- `gq_push` of a submitted task. -/
def enterQueue (task : Job α) : Pool K α := { s.enter [task] with gq := s.gq.push task }

/-- One chunk of `gq_push_batch`. -/
def enterChunk (chunk : List (Job α)) : Pool K α :=
  { s.enter chunk with gq := s.gq.pushChunk chunk }

/-- A call reports `tasks` as accepted. -/
def accept (tasks : List (Job α)) : Pool K α := { s with accepted := s.accepted ++ tasks }

end Pool

/-! ## Conditions -/

def ParkPC.wake : ParkPC → ParkPC
  | .asleep => .relock
  | pc => pc

def WorkerPC.wake : WorkerPC α → WorkerPC α
  | .park pc => .park pc.wake
  | pc => pc

def ClientPC.wake : ClientPC α → ClientPC α
  | .waiting .asleep => .waiting .relock
  | .destroying .asleep => .destroying .relock
  | pc => pc

/-- `cond_broadcast(&pool->all_idle)`. -/
def broadcastIdle (s : Pool K α) : Pool K α :=
  { s with clients := fun k => (s.clients k).wake }

/-- `cond_broadcast(&pool->work_available)`. -/
def broadcastWork (s : Pool K α) : Pool K α :=
  { s with workers := fun i => { s.workers i with pc := (s.workers i).pc.wake } }

/-- Blocked in the `cond_wait` of `worker_park`. -/
def WorkerPC.isAsleep : WorkerPC α → Bool
  | .park .asleep => true
  | _ => false

/-- `cond_signal(&pool->work_available)` wakes a sleeping worker, if there is one. -/
def signalWork (s : Pool K α) (woken : Nat) : Option (Pool K α) :=
  if (s.workers woken).pc.isAsleep || !(List.range s.numWorkers).any
      fun i => (s.workers i).pc.isAsleep then
    some (s.setPc woken (s.workers woken).pc.wake)
  else none

/-- `lock_acquire(&pool->park_lock)`. -/
def acquirePark (s : Pool K α) (t : Thread K) : Option (Pool K α) :=
  match s.parkLock with
  | none => some { s with parkLock := some t }
  | some _ => none

def releasePark (s : Pool K α) : Pool K α := { s with parkLock := none }

/-- `lock_acquire(&pool->idle_lock)`. -/
def acquireIdle (s : Pool K α) (t : Thread K) : Option (Pool K α) :=
  match s.idleLock with
  | none => some { s with idleLock := some t }
  | some _ => none

def releaseIdle (s : Pool K α) : Pool K α := { s with idleLock := none }

/-! ## Scanning and submitting -/

/-- The loop over the deques goes on with deque `i`, or ends. -/
def scanNext (s : Pool K α) (i : Nat) : Outcome ScanPC Bool :=
  if i < s.numWorkers then .more (.bottom i) else .done false

/-- One load of the scan; the result is `any_work`. -/
def scanStep (s : Pool K α) : ScanPC → Outcome ScanPC Bool
  | .head => .more (.tail s.gq.head)
  | .tail h => if h = s.gq.tail then scanNext s 0 else .done true
  | .bottom i => .more (.top i (s.workers i).deque.bottom)
  | .top i b =>
    if isPositive (sizeSub b (s.workers i).deque.top) then .done true else scanNext s (i + 1)

/-- `threadpool_submit_batch` after its pushes: it wakes a worker unless nothing was pushed. -/
def afterBatch (pushed : List α) : Outcome (Call α) (List α) :=
  match pushed with
  | [] => .done []
  | _ => .more (.unpark pushed .load)

/-- The loop of `gq_push_batch`, entered with tasks left or not. -/
def queueNext (pushed rest : List α) : Outcome (Call α) (List α) :=
  match rest with
  | [] => afterBatch pushed
  | _ => .more (.queueEach pushed rest)

/-- The loop of `threadpool_submit_batch` on a worker. -/
def pushNext (pushed rest : List α) (alloc : Bool) : Outcome (Call α) (List α) :=
  match rest with
  | [] => afterBatch pushed
  | x :: rest' => .more (.pushEach pushed rest' alloc (.loadBottom x))

/-- The steps of a submit call on the global queue, which waits while the queue is full,
and of `unpark_one`. -/
def sharedCallStep (s : Pool K α) (t : Thread K) (woken : Nat) :
    Call (Job α) → Option (Pool K α × Outcome (Call (Job α)) (List (Job α)))
  | .queue x =>
    if s.gq.isFull then
      if s.shutdown then some (s, .done []) else some (s, .more (.queue x))
    else
      some (s.enterQueue x, .more (.unpark [x] .load))
  | .queueEach pushed rest =>
    if s.gq.isFull then
      if s.shutdown then some (s, afterBatch pushed) else some (s, .more (.queueEach pushed rest))
    else
      some (s.enterChunk (rest.take (s.gq.chunk rest.length)),
        queueNext (pushed ++ rest.take (s.gq.chunk rest.length))
          (rest.drop (s.gq.chunk rest.length)))
  | .unpark accepted .load =>
    if 0 < s.numParked then some (s, .more (.unpark accepted .lock)) else some (s, .done accepted)
  | .unpark accepted .lock =>
    (acquirePark s t).map fun s' => (s', .more (.unpark accepted .signal))
  | .unpark accepted .signal =>
    (signalWork s woken).map fun s' => (s', .more (.unpark accepted .unlock))
  | .unpark accepted .unlock => some (releasePark s, .done accepted)
  | .push _ | .pushEach .. => none

/-- The steps of a submit call of worker `i`, which pushes into its own deque first. -/
def workerCallStep (s : Pool K α) (i woken : Nat) :
    Call (Job α) → Option (Pool K α × Outcome (Call (Job α)) (List (Job α)))
  | .push pc =>
    match pushStep (s.workers i).deque pc with
    | (d, .more pc') => some (s.setDeque i d, .more (.push pc'))
    | (d, .done true) => some ((s.setDeque i d).enter [pc.task], .more (.unpark [pc.task] .load))
    | (d, .done false) => some (s.setDeque i d, .more (.queue pc.task))
  | .pushEach pushed rest alloc pc =>
    match pushStep (s.workers i).deque pc with
    | (d, .more pc') => some (s.setDeque i d, .more (.pushEach pushed rest alloc pc'))
    | (d, .done true) =>
      some ((s.setDeque i d).enter [pc.task], pushNext (pushed ++ [pc.task]) rest alloc)
    | (d, .done false) =>
      -- the rest goes to the global queue, unless the copy of it cannot be allocated
      if alloc then some (s.setDeque i d, .more (.queueEach pushed (pc.task :: rest)))
      else some (s.setDeque i d, afterBatch pushed)
  | call => sharedCallStep s (.worker i) woken call

/-- The submissions of a call, numbered; entries without a function are skipped. -/
def Request.jobs (serial : Nat) : Request α → List (Job α)
  | .submit task => [(serial, task)]
  | .submitBatch tasks _ => (tasks.filterMap id).mapIdx fun j task => (serial + j, task)

/-- A submit call of a worker. -/
def workerCall (serial : Nat) : Request α → Outcome (Call (Job α)) (List (Job α))
  | .submit task => .more (.push (.loadBottom (serial, task)))
  | .submitBatch tasks alloc =>
    pushNext [] (Request.jobs serial (.submitBatch tasks alloc)) alloc

/-- A submit call of another thread. Up to `BATCH_SIZE` tasks are copied to the stack. -/
def clientCall (serial : Nat) : Request α → Outcome (Call (Job α)) (List (Job α))
  | .submit task => .more (.queue (serial, task))
  | .submitBatch tasks alloc =>
    if tasks.length ≤ batchSize ∨ alloc then
      queueNext [] (Request.jobs serial (.submitBatch tasks alloc))
    else .done []

/-! ## Workers -/

/-- `xorshift64`, seeded by the worker's index. -/
def nextRng (i : Nat) (rng : UInt64) : UInt64 :=
  let r := if rng = 0 then (UInt64.ofNat i + 1) * 6364136223846793005 else rng
  let r := r ^^^ (r <<< 13)
  let r := r ^^^ (r >>> 7)
  r ^^^ (r <<< 17)

/-- The loop of `try_steal` from `k` on: the next deque that is not the worker's own, and
after the last the global queue. -/
def stealNext (n i start k : Nat) : WorkerPC α :=
  match (List.range' k (n - k)).find? fun j => (start + j) % n != i with
  | some j => .steal start j .loadTop
  | none => .pull

/-- `try_steal` draws where its scan starts. -/
def beginSteal (s : Pool K α) (i : Nat) : Pool K α :=
  s.setWorker i
    { s.workers i with
      rng := nextRng i (s.workers i).rng
      pc := stealNext s.numWorkers i
        ((nextRng i (s.workers i).rng).toNat % s.numWorkers) 0 }

/-- The loop of `try_steal` that pushes the rest of a batch. -/
def unloadNext (first : α) (rest : List α) : WorkerPC α :=
  match rest with
  | [] => .execute first
  | x :: rest' => .unload first rest' (.loadBottom x)

/-- The loop of `try_steal` that hands back what does not fit into its deque. -/
def spillNext (first : α) (rest : List α) : WorkerPC α :=
  match rest with
  | [] => .execute first
  | _ => .spill first rest

def startStep (s : Pool K α) (i : Nat) : StartPC → Pool K α
  | .arrive => { s with workersReady := s.workersReady + 1 }.setPc i (.start .barrier)
  | .barrier => if s.workersReady < s.numWorkers then s else s.setPc i (.start .enlist)
  | .enlist => { s with numThreadsAlive := s.numThreadsAlive + 1 }.setPc i .check

def popAccess (s : Pool K α) (i : Nat) (pc : PopPC (Job α)) : Pool K α :=
  match popStep (s.workers i).deque pc with
  | (d, .more pc') => (s.setDeque i d).setPc i (.pop pc')
  | (d, .done (some x)) => (s.setDeque i d).setPc i (.execute x)
  | (d, .done none) => beginSteal (s.setDeque i d) i

def stealAccess (s : Pool K α) (i start k : Nat) (pc : StealPC (Job α)) : Pool K α :=
  match stealStep (s.workers ((start + k) % s.numWorkers)).deque pc with
  | (d, .more pc') => (s.setDeque ((start + k) % s.numWorkers) d).setPc i (.steal start k pc')
  | (d, .done (.success x)) => (s.setDeque ((start + k) % s.numWorkers) d).setPc i (.execute x)
  | (d, .done _) =>
    (s.setDeque ((start + k) % s.numWorkers) d).setPc i (stealNext s.numWorkers i start (k + 1))

/-- A worker that found nothing yields a few times before it parks. -/
def spinOrPark (s : Pool K α) (i : Nat) : Pool K α :=
  if (s.workers i).spin < yieldThreshold then
    s.setWorker i { s.workers i with spin := (s.workers i).spin + 1, pc := .check }
  else s.setWorker i { s.workers i with spin := 0, pc := .park .raise }

/-- The section of `gq_pull_batch` in `try_steal`. -/
def pullAccess (s : Pool K α) (i : Nat) : Pool K α :=
  if s.gq.head = s.gq.tail then s.setPc i .pullEmpty
  else
    match s.gq.batch batchSize with
    | [] => spinOrPark { s with gq := s.gq.pullBatch batchSize } i
    | x :: rest => { s with gq := s.gq.pullBatch batchSize }.setPc i (unloadNext x rest)

def unloadAccess (s : Pool K α) (i : Nat) (first : Job α) (rest : List (Job α))
    (pc : PushPC (Job α)) : Pool K α :=
  match pushStep (s.workers i).deque pc with
  | (d, .more pc') => (s.setDeque i d).setPc i (.unload first rest pc')
  | (d, .done true) => (s.setDeque i d).setPc i (unloadNext first rest)
  | (d, .done false) => (s.setDeque i d).setPc i (.spill first (pc.task :: rest))

/-- One `gq_push` of the tasks handed back; its result is ignored. -/
def spillAccess (s : Pool K α) (i : Nat) (first : Job α) : List (Job α) → Pool K α
  | [] => s.setPc i (.execute first)
  | x :: rest =>
    if s.gq.isFull then
      if s.shutdown then s.setPc i (spillNext first rest) else s
    else { s with gq := s.gq.push x }.setPc i (spillNext first rest)

def executeStep (s : Pool K α) (i : Nat) (task : Job α) : Pool K α :=
  { s with numActive := s.numActive + 1 }.setWorker i
    { s.workers i with spin := 0, pc := .running task }

def retireStep (s : Pool K α) (i : Nat) : Pool K α :=
  { s with numActive := s.numActive - 1 }.setPc i
    (if s.numActive - 1 = 0 then .idle (.scan .head) else .check)

def idleStep (s : Pool K α) (i : Nat) : IdlePC → Option (Pool K α)
  | .scan pc =>
    match scanStep s pc with
    | .more pc' => some (s.setPc i (.idle (.scan pc')))
    | .done true => some (s.setPc i .check)
    | .done false => some (s.setPc i (.idle .lock))
  | .lock => (acquireIdle s (.worker i)).map (·.setPc i (.idle .load))
  | .load => some (s.setPc i (.idle (if s.numActive = 0 then .broadcast else .unlock)))
  | .broadcast => some ((broadcastIdle s).setPc i (.idle .unlock))
  | .unlock => some ((releaseIdle s).setPc i .check)

def parkStep (s : Pool K α) (i : Nat) : ParkPC → Option (Pool K α)
  | .raise => some ({ s with numParked := s.numParked + 1 }.setPc i (.park .lock))
  | .lock => (acquirePark s (.worker i)).map (·.setPc i (.park (.scan .head)))
  | .scan pc =>
    match scanStep s pc with
    | .more pc' => some (s.setPc i (.park (.scan pc')))
    | .done true => some (s.setPc i (.park .unlock))
    | .done false => some (s.setPc i (.park .shutdown))
  | .shutdown => some (s.setPc i (.park (if s.shutdown then .unlock else .wait)))
  | .wait => some ((releasePark s).setPc i (.park .asleep))
  | .asleep => none
  | .relock => (acquirePark s (.worker i)).map (·.setPc i (.park .unlock))
  | .unlock => some ((releasePark s).setPc i (.park .lower))
  | .lower => some ({ s with numParked := s.numParked - 1 }.setPc i .check)

def exitStep (s : Pool K α) (i : Nat) : ExitPC → Option (Pool K α)
  | .leave =>
    some ({ s with numThreadsAlive := s.numThreadsAlive - 1 }.setPc i
      (.exit (if s.numThreadsAlive - 1 = 0 then .lock else .exited)))
  | .lock => (acquireIdle s (.worker i)).map (·.setPc i (.exit .broadcast))
  | .broadcast => some ((broadcastIdle s).setPc i (.exit .unlock))
  | .unlock => some ((releaseIdle s).setPc i (.exit .exited))
  | .exited => none

/-- The next step of worker `i`; none while it is blocked or runs a task. -/
def workerStep (s : Pool K α) (i woken : Nat) : Option (Pool K α) :=
  match (s.workers i).pc with
  | .start pc => some (startStep s i pc)
  | .check => some (s.setPc i (if s.shutdown then .exit .leave else .pop .loadBottom))
  | .pop pc => some (popAccess s i pc)
  | .steal start k pc => some (stealAccess s i start k pc)
  | .pull => some (pullAccess s i)
  | .pullEmpty => some (spinOrPark s i)
  | .unload first rest pc => some (unloadAccess s i first rest pc)
  | .spill first rest => some (spillAccess s i first rest)
  | .execute task => some (executeStep s i task)
  | .running _ => none
  | .submitting task call =>
    (workerCallStep s i woken call).map fun
      | (s', .more call') => s'.setPc i (.submitting task call')
      | (s', .done accepted) => (s'.accept accepted).setPc i (.running task)
  | .retire => some (retireStep s i)
  | .idle pc => idleStep s i pc
  | .park pc => parkStep s i pc
  | .exit pc => exitStep s i pc

/-! ## Clients -/

section

variable [DecidableEq K]

def waitStep (s : Pool K α) (k : K) : WaitPC → Option (Pool K α)
  | .lock => (acquireIdle s (.client k)).map (·.setClient k (.waiting .load))
  | .load =>
    some (s.setClient k (.waiting (if s.numActive = 0 then .scan .head else .wait)))
  | .scan pc =>
    match scanStep s pc with
    | .more pc' => some (s.setClient k (.waiting (.scan pc')))
    | .done true => some (s.setClient k (.waiting .wait))
    | .done false => some (s.setClient k (.waiting .unlock))
  | .wait => some ((releaseIdle s).setClient k (.waiting .asleep))
  | .asleep => none
  | .relock => (acquireIdle s (.client k)).map (·.setClient k (.waiting .load))
  | .unlock => some ((releaseIdle s).setClient k .idle)

def destroyStep (s : Pool K α) (k : K) : DestroyPC → Option (Pool K α)
  | .lock => (acquireIdle s (.client k)).map (·.setClient k (.destroying (.scan .head)))
  | .scan pc =>
    match scanStep s pc with
    | .more pc' => some (s.setClient k (.destroying (.scan pc')))
    | .done anyWork => some (s.setClient k (.destroying (.load anyWork)))
  | .load anyWork =>
    some (s.setClient k (.destroying
      (if anyWork = false ∧ s.numActive = 0 then .shutdown else .wait)))
  | .wait => some ((releaseIdle s).setClient k (.destroying .asleep))
  | .asleep => none
  | .relock => (acquireIdle s (.client k)).map (·.setClient k (.destroying (.scan .head)))
  | .shutdown => some ({ s with shutdown := true }.setClient k (.destroying .unlock))
  | .unlock => some ((releaseIdle s).setClient k (.destroying .parkLock))
  | .parkLock => (acquirePark s (.client k)).map (·.setClient k (.destroying .broadcast))
  | .broadcast => some ((broadcastWork s).setClient k (.destroying .parkUnlock))
  | .parkUnlock => some ((releasePark s).setClient k (.destroying .await))
  | .await =>
    if 0 < s.numThreadsAlive then some s else some (s.setClient k (.destroying (.join 0)))
  | .join i =>
    if i < s.numWorkers then
      match (s.workers i).pc with
      | .exit .exited => some (s.setClient k (.destroying (.join (i + 1))))
      | _ => none
    else some (s.setClient k (.destroying .returned))
  | .returned => none

/-- The next step of a client in a call. -/
def clientStep (s : Pool K α) (k : K) (woken : Nat) : Option (Pool K α) :=
  match s.clients k with
  | .idle => none
  | .submitting call =>
    (sharedCallStep s (.client k) woken call).map fun
      | (s', .more call') => s'.setClient k (.submitting call')
      | (s', .done accepted) => (s'.accept accepted).setClient k .idle
  | .waiting pc => waitStep s k pc
  | .destroying pc => destroyStep s k pc

/-- A client calls a submit function. -/
def beginSubmit (s : Pool K α) (k : K) (request : Request α) : Pool K α :=
  match clientCall s.serial request with
  | .more call =>
    { s with serial := s.serial + (request.jobs s.serial).length }.setClient k (.submitting call)
  | .done _ => { s with serial := s.serial + (request.jobs s.serial).length }

/-- The task that worker `i` runs calls a submit function. -/
def beginTask (s : Pool K α) (i : Nat) (task : Job α) (request : Request α) : Pool K α :=
  match workerCall s.serial request with
  | .more call =>
    { s with serial := s.serial + (request.jobs s.serial).length }.setPc i (.submitting task call)
  | .done _ => { s with serial := s.serial + (request.jobs s.serial).length }

/-- One step of the pool. No thread touches the pool once `threadpool_destroy` has returned,
and it is called once. -/
def Pool.perform (s : Pool K α) : PoolAct K α → Option (Pool K α)
  | .worker i woken => if i < s.numWorkers then workerStep s i woken else none
  | .task i request =>
    match (s.workers i).pc with
    | .running task => some (beginTask s i task request)
    | _ => none
  | .finish i =>
    match (s.workers i).pc with
    | .running task => some ({ s with finished := s.finished ++ [task] }.setPc i .retire)
    | _ => none
  | .submit k request =>
    match s.clients k with
    | .idle => some (beginSubmit s k request)
    | _ => none
  | .wait k =>
    match s.clients k with
    | .idle => some (s.setClient k (.waiting .lock))
    | _ => none
  | .destroy k =>
    match s.clients k with
    | .idle => some ({ s with due := s.accepted }.setClient k (.destroying .lock))
    | _ => none
  | .client k woken => clientStep s k woken
  | .wakeWorker i => some (s.setPc i (s.workers i).pc.wake)
  | .wakeClient k => some (s.setClient k (s.clients k).wake)

/-- The pool is destroyed at most once, and not used afterwards. -/
def Pool.allowed (s : Pool K α) : PoolAct K α → Prop
  | .destroy _ => ∀ k pc, s.clients k ≠ .destroying pc
  | _ => ∀ k, s.clients k ≠ .destroying .returned

end

/-- A pool of `numThreads` workers and the clients `K`, every interleaving of their steps. -/
def threadpool (K α : Type*) [DecidableEq K] (numThreads : Nat) :
    System (Pool K α) (PoolAct K α) where
  init s := ∃ tasks gqTasks, s = threadpoolCreate K numThreads tasks gqTasks
  step s a s' := s.allowed a ∧ s.perform a = some s'

end Solidc.Threadpool
