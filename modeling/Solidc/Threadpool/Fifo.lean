import Solidc.Lib.Transition
import Solidc.Threadpool.Queue
import Mathlib.Data.List.Nodup

/-! # Producers and consumers of the global queue

Any number of threads call `gq_push`, `gq_push_batch` and `gq_pull_batch`. A step is one
section of the mutex: a section of a producer ends when it has written, or in `cond_wait`,
from which a thread may wake up at any time. A batch larger than the queue is written in
several sections, with those of other threads in between.

* `gqStep` — one section of a thread;
* `GqRun.Tracked` — the invariant: what was pulled, followed by the content of the ring, is
  what was pushed, and each call has put in the tasks that it counts;
* `gq_fifo` — the queue is a bounded FIFO in every run.
-/

namespace Solidc.Threadpool

open CLib

/-! ## The system -/

/-- Where a thread is. The calls of producers are numbered, and `pushed` of a batch is the
number of tasks written so far. -/
inductive GqPC (α : Type*) where
  | idle
  | push (call : Nat) (task : α)
  | pushAsleep (call : Nat) (task : α)
  | batch (call : Nat) (tasks : List α) (pushed : Nat)
  | batchAsleep (call : Nat) (tasks : List α) (pushed : Nat)
  | pull (max : Nat)
  | pullEmpty

/-- A producer's call that has returned: its number, its tasks and the number of tasks
that it reports as pushed. -/
structure GqResult (α : Type*) where
  call : Nat
  tasks : List α
  value : Nat

/-- The queue, its threads and the history of their calls. -/
structure GqRun (T α : Type*) where
  gq : GlobalQueue α
  shutdown : Bool
  threads : T → GqPC α
  /-- The number of calls of producers so far. -/
  calls : Nat
  /-- The tasks written into the ring, each with the number of its call. -/
  pushed : List (Nat × α)
  /-- The tasks read from the ring. -/
  pulled : List α
  returned : List (GqResult α)

inductive GqAct (T α : Type*) where
  | push (t : T) (task : α)
  | pushBatch (t : T) (tasks : List α)
  | pullBatch (t : T) (max : Nat)
  /-- The next section of a thread. -/
  | section (t : T)
  | wake (t : T)
  | shutdown

variable {T α : Type*}

def GqRun.initial (T : Type*) (tasks : Nat → α) : GqRun T α where
  gq := gqInit tasks
  shutdown := false
  threads _ := .idle
  calls := 0
  pushed := []
  pulled := []
  returned := []

def GqPC.wake : GqPC α → GqPC α
  | .pushAsleep call task => .push call task
  | .batchAsleep call tasks pushed => .batch call tasks pushed
  | pc => pc

section

variable [DecidableEq T]

def GqRun.setThread (s : GqRun T α) (t : T) (pc : GqPC α) : GqRun T α :=
  { s with threads := Function.update s.threads t pc }

/-- A producer returns. -/
def GqRun.finish (s : GqRun T α) (t : T) (call : Nat) (tasks : List α) (value : Nat) : GqRun T α :=
  { s.setThread t .idle with returned := s.returned ++ [⟨call, tasks, value⟩] }

/-- Tasks of a call are written into the ring. -/
def GqRun.write (s : GqRun T α) (gq : GlobalQueue α) (call : Nat) (tasks : List α) : GqRun T α :=
  { s with gq := gq, pushed := s.pushed ++ tasks.map (call, ·) }

/-- `cond_broadcast(&gq->not_full)`. -/
def broadcastNotFull (s : GqRun T α) : GqRun T α :=
  { s with threads := fun t => (s.threads t).wake }

/-- One section of a thread; `gq_pull_batch` loads `shutdown` after its section. -/
def gqStep (s : GqRun T α) (t : T) : Option (GqRun T α) :=
  match s.threads t with
  | .idle | .pushAsleep .. | .batchAsleep .. => none
  | .push call task =>
    if s.gq.isFull then
      if s.shutdown then some (s.finish t call [task] 0)
      else some (s.setThread t (.pushAsleep call task))
    else some ((s.write (s.gq.push task) call [task]).finish t call [task] 1)
  | .batch call tasks pushed =>
    if pushed < tasks.length then
      if s.gq.isFull then
        if s.shutdown then some (s.finish t call tasks pushed)
        else some (s.setThread t (.batchAsleep call tasks pushed))
      else
        let n := s.gq.chunk (tasks.length - pushed)
        let chunk := (tasks.drop pushed).take n
        some ((s.write (s.gq.pushChunk chunk) call chunk).setThread t (.batch call tasks (pushed + n)))
    else some (s.finish t call tasks pushed)
  | .pull max =>
    if s.gq.head = s.gq.tail then some (s.setThread t .pullEmpty)
    else
      some ((broadcastNotFull
        { s with gq := s.gq.pullBatch max, pulled := s.pulled ++ s.gq.batch max }).setThread t .idle)
  | .pullEmpty => some (s.setThread t .idle)

/-- A thread calls one of the functions. -/
def GqRun.begin (s : GqRun T α) (t : T) (pc : GqPC α) : Option (GqRun T α) :=
  match s.threads t with
  | .idle => some { s.setThread t pc with calls := s.calls + 1 }
  | _ => none

def GqRun.perform (s : GqRun T α) : GqAct T α → Option (GqRun T α)
  | .push t task => s.begin t (.push s.calls task)
  | .pushBatch t tasks => s.begin t (.batch s.calls tasks 0)
  | .pullBatch t max => s.begin t (.pull max)
  | .section t => gqStep s t
  | .wake t => some (s.setThread t (s.threads t).wake)
  | .shutdown => some { s with shutdown := true }

end

/-- The threads of `T` at the global queue. -/
def globalQueue (T α : Type*) [DecidableEq T] : System (GqRun T α) (GqAct T α) where
  init s := ∃ tasks, s = GqRun.initial T tasks
  step s a s' := s.perform a = some s'

/-! ## The invariant -/

/-- The call of a producer: its number, its tasks and how many of them are written. -/
def GqPC.call? : GqPC α → Option (GqResult α)
  | .push call task | .pushAsleep call task => some ⟨call, [task], 0⟩
  | .batch call tasks pushed | .batchAsleep call tasks pushed => some ⟨call, tasks, pushed⟩
  | .idle | .pull _ | .pullEmpty => none

/-- The tasks of a call that were written, in order. -/
def tasksOf (call : Nat) (pushed : List (Nat × α)) : List α :=
  (pushed.filter (·.1 == call)).map (·.2)

/-- A call counts the tasks that it has written, from the first on. -/
structure GqResult.Counts (pushed : List (Nat × α)) (r : GqResult α) : Prop where
  le : r.value ≤ r.tasks.length
  tasks : tasksOf r.call pushed = r.tasks.take r.value

/-- The queue as a bounded FIFO. -/
structure GqRun.Fifo (s : GqRun T α) : Prop where
  order : s.pulled ++ s.gq.content = s.pushed.map (·.2)
  bounded : s.gq.occupancy ≤ globalQSize - 1
  running : ∀ t r, (s.threads t).call? = some r → r.Counts s.pushed
  returned : ∀ r ∈ s.returned,
    r.Counts s.pushed ∧ (r.value = r.tasks.length ∨ s.shutdown = true)

structure GqRun.Tracked (s : GqRun T α) : Prop where
  valid : s.gq.Valid
  order : s.pulled ++ s.gq.content = s.pushed.map (·.2)
  running : ∀ t r, (s.threads t).call? = some r → r.call < s.calls ∧ r.Counts s.pushed
  returned : ∀ r ∈ s.returned, r.call < s.calls ∧ r.Counts s.pushed ∧
    (r.value = r.tasks.length ∨ s.shutdown = true)
  apart : ∀ t t' r r', t ≠ t' → (s.threads t).call? = some r → (s.threads t').call? = some r' →
    r.call ≠ r'.call
  gone : ∀ t r, (s.threads t).call? = some r → ∀ r' ∈ s.returned, r'.call ≠ r.call
  known : ∀ x ∈ s.pushed, x.1 < s.calls

theorem tasksOf_append (call : Nat) (l l' : List (Nat × α)) :
    tasksOf call (l ++ l') = tasksOf call l ++ tasksOf call l' := by
  simp [tasksOf]

theorem tasksOf_self (call : Nat) (tasks : List α) :
    tasksOf call (tasks.map (call, ·)) = tasks := by
  simp [tasksOf, List.filter_map, Function.comp_def]

theorem tasksOf_other {call call' : Nat} (h : call' ≠ call) (tasks : List α) :
    tasksOf call (tasks.map (call', ·)) = [] := by
  simp [tasksOf, List.filter_map, Function.comp_def, h]

theorem tasksOf_new {call : Nat} {l : List (Nat × α)} (h : ∀ x ∈ l, x.1 < call) :
    tasksOf call l = [] := by
  unfold tasksOf
  rw [List.filter_eq_nil_iff.mpr fun x hx => ?_]
  · rfl
  · have hlt := h x hx
    simp
    omega

/-! ## Steps -/

variable {s s' : GqRun T α}

theorem gqCall_wake (pc : GqPC α) : pc.wake.call? = pc.call? := by
  cases pc <;> rfl

theorem GqRun.Tracked.initial (tasks : Nat → α) : (GqRun.initial T tasks).Tracked where
  valid := gqInit_valid tasks
  order := by
    show [] ++ (gqInit tasks).content = []
    rw [gqInit_content, List.append_nil]
  running := nofun
  returned := nofun
  apart := nofun
  gone := nofun
  known := nofun

/-- A step in which no call makes progress. -/
theorem GqRun.Tracked.rest (h : s.Tracked) (hcall : ∀ t, (s'.threads t).call? = (s.threads t).call?)
    (hgq : s'.gq = s.gq) (hpulled : s'.pulled = s.pulled) (hpushed : s'.pushed = s.pushed)
    (hreturned : s'.returned = s.returned) (hcalls : s'.calls = s.calls)
    (hshutdown : s.shutdown = true → s'.shutdown = true) : s'.Tracked := by
  constructor
  · rw [hgq]
    exact h.valid
  · rw [hgq, hpulled, hpushed]
    exact h.order
  · intro t r hr
    rw [hcall] at hr
    rw [hcalls, hpushed]
    exact h.running t r hr
  · intro r hr
    rw [hreturned] at hr
    obtain ⟨hlt, hcounts, hall⟩ := h.returned r hr
    rw [hcalls, hpushed]
    exact ⟨hlt, hcounts, hall.imp id hshutdown⟩
  · intro t t' r r' hne hr hr'
    rw [hcall] at hr hr'
    exact h.apart t t' r r' hne hr hr'
  · intro t r hr r' hr'
    rw [hcall] at hr
    rw [hreturned] at hr'
    exact h.gone t r hr r' hr'
  · rw [hcalls, hpushed]
    exact h.known

section

variable [DecidableEq T] {t : T}

theorem threads_setThread (pc : GqPC α) (t' : T) :
    (s.setThread t pc).threads t' = if t' = t then pc else s.threads t' :=
  Function.update_apply ..

/-- A thread goes on without progress of its call. -/
theorem GqRun.Tracked.setThread (h : s.Tracked) {pc : GqPC α}
    (hcall : pc.call? = (s.threads t).call?) : (s.setThread t pc).Tracked := by
  refine h.rest (fun t' => ?_) rfl rfl rfl rfl rfl id
  rw [threads_setThread]
  split_ifs with ht
  · rw [ht, hcall]
  · rfl

/-- A call begins: nothing of it is written, and its number is new. -/
theorem GqRun.Tracked.begin (h : s.Tracked) {pc : GqPC α}
    (hpc : ∀ r, pc.call? = some r → r.call = s.calls ∧ r.value = 0) :
    GqRun.Tracked { s.setThread t pc with calls := s.calls + 1 } := by
  have hnew : ∀ r, pc.call? = some r → r.Counts s.pushed := by
    intro r hr
    obtain ⟨hcall, hvalue⟩ := hpc r hr
    refine ⟨by omega, ?_⟩
    rw [hvalue, List.take_zero, hcall]
    exact tasksOf_new h.known
  have hcases : ∀ t' r, ((s.setThread t pc).threads t').call? = some r →
      t' = t ∧ pc.call? = some r ∨ (s.threads t').call? = some r := by
    intro t' r hr
    rw [threads_setThread] at hr
    split_ifs at hr with ht
    · exact .inl ⟨ht, hr⟩
    · exact .inr hr
  constructor
  · exact h.valid
  · exact h.order
  · intro t' r hr
    rcases hcases t' r hr with ⟨-, hr⟩ | hr
    · exact ⟨(hpc r hr).1 ▸ Nat.lt_succ_self _, hnew r hr⟩
    · exact ⟨Nat.lt_succ_of_lt (h.running t' r hr).1, (h.running t' r hr).2⟩
  · intro r hr
    obtain ⟨hlt, hrest⟩ := h.returned r hr
    exact ⟨Nat.lt_succ_of_lt hlt, hrest⟩
  · intro t₁ t₂ r₁ r₂ hne h₁ h₂
    rcases hcases t₁ r₁ h₁ with ⟨e₁, n₁⟩ | o₁ <;> rcases hcases t₂ r₂ h₂ with ⟨e₂, n₂⟩ | o₂
    · -- only one of the two is the new call, and its number is above those of all others
      exact absurd (e₁.trans e₂.symm) hne
    · have hlt := (h.running t₂ r₂ o₂).1
      rw [(hpc r₁ n₁).1]
      omega
    · have hlt := (h.running t₁ r₁ o₁).1
      rw [(hpc r₂ n₂).1]
      omega
    · exact h.apart t₁ t₂ r₁ r₂ hne o₁ o₂
  · intro t' r hr r' hr'
    rcases hcases t' r hr with ⟨-, hr⟩ | hr
    · have hlt := (h.returned r' hr').1
      rw [(hpc r hr).1]
      omega
    · exact h.gone t' r hr r' hr'
  · intro x hx
    exact Nat.lt_succ_of_lt (h.known x hx)

/-- A call returns what it has counted. -/
theorem GqRun.Tracked.finish (h : s.Tracked) {call value : Nat} {tasks : List α}
    (hcall : (s.threads t).call? = some ⟨call, tasks, value⟩)
    (hall : value = tasks.length ∨ s.shutdown = true) : (s.finish t call tasks value).Tracked := by
  have hcases : ∀ t' r, ((s.setThread t .idle).threads t').call? = some r →
      t' ≠ t ∧ (s.threads t').call? = some r := by
    intro t' r hr
    rw [threads_setThread] at hr
    split_ifs at hr with ht
    · cases hr
    · exact ⟨ht, hr⟩
  constructor
  · exact h.valid
  · exact h.order
  · intro t' r hr
    exact h.running t' r (hcases t' r hr).2
  · intro r hr
    rcases List.mem_append.mp hr with hr | hr
    · exact h.returned r hr
    · cases List.mem_singleton.mp hr
      exact ⟨(h.running t _ hcall).1, (h.running t _ hcall).2, hall⟩
  · intro t₁ t₂ r₁ r₂ hne h₁ h₂
    exact h.apart t₁ t₂ r₁ r₂ hne (hcases t₁ r₁ h₁).2 (hcases t₂ r₂ h₂).2
  · intro t' r hr r' hr'
    obtain ⟨hne, hr⟩ := hcases t' r hr
    rcases List.mem_append.mp hr' with hr' | hr'
    · exact h.gone t' r hr r' hr'
    · cases List.mem_singleton.mp hr'
      exact h.apart t t' _ r hne.symm hcall hr
  · exact h.known

/-- A section writes the next `n` tasks of its call. -/
theorem GqRun.Tracked.write (h : s.Tracked) {call value n : Nat} {tasks : List α} {pc : GqPC α}
    {gq : GlobalQueue α} (hcall : (s.threads t).call? = some ⟨call, tasks, value⟩)
    (hpc : pc.call? = some ⟨call, tasks, value + n⟩) (hn : value + n ≤ tasks.length)
    (hgq : gq.Valid) (hcontent : gq.content = s.gq.content ++ (tasks.drop value).take n) :
    ((s.write gq call ((tasks.drop value).take n)).setThread t pc).Tracked := by
  have hlt : call < s.calls := (h.running t _ hcall).1
  have hcounts := (h.running t _ hcall).2
  have hself : GqResult.Counts (s.pushed ++ ((tasks.drop value).take n).map (call, ·))
      ⟨call, tasks, value + n⟩ := by
    refine ⟨hn, ?_⟩
    show tasksOf call _ = tasks.take (value + n)
    rw [tasksOf_append, tasksOf_self, hcounts.tasks, List.take_add]
  -- the other calls have other numbers
  have hother : ∀ r : GqResult α, r.call ≠ call → r.Counts s.pushed →
      r.Counts (s.pushed ++ ((tasks.drop value).take n).map (call, ·)) := by
    intro r hne hr
    refine ⟨hr.le, ?_⟩
    rw [tasksOf_append, tasksOf_other (Ne.symm hne), List.append_nil]
    exact hr.tasks
  have hcases : ∀ t' r,
      (((s.write gq call ((tasks.drop value).take n)).setThread t pc).threads t').call? = some r →
      t' = t ∧ r = ⟨call, tasks, value + n⟩ ∨ t' ≠ t ∧ (s.threads t').call? = some r := by
    intro t' r hr
    rw [threads_setThread] at hr
    split_ifs at hr with ht
    · rw [hpc] at hr
      exact .inl ⟨ht, (Option.some.inj hr).symm⟩
    · exact .inr ⟨ht, hr⟩
  constructor
  · exact hgq
  · show s.pulled ++ gq.content = (s.pushed ++ _).map (·.2)
    rw [hcontent, ← List.append_assoc, h.order, List.map_append]
    simp
  · intro t' r hr
    rcases hcases t' r hr with ⟨-, rfl⟩ | ⟨hne, hr⟩
    · exact ⟨hlt, hself⟩
    · exact ⟨(h.running t' r hr).1,
        hother r (h.apart t' t r _ hne hr hcall) (h.running t' r hr).2⟩
  · intro r hr
    obtain ⟨hlt', hcounts', hall⟩ := h.returned r hr
    exact ⟨hlt', hother r (h.gone t _ hcall r hr) hcounts', hall⟩
  · intro t₁ t₂ r₁ r₂ hne h₁ h₂
    rcases hcases t₁ r₁ h₁ with ⟨e₁, rfl⟩ | ⟨e₁, o₁⟩ <;>
      rcases hcases t₂ r₂ h₂ with ⟨e₂, rfl⟩ | ⟨e₂, o₂⟩
    · exact absurd (e₁.trans e₂.symm) hne
    · exact h.apart t t₂ ⟨call, tasks, value⟩ r₂ (Ne.symm e₂) hcall o₂
    · exact h.apart t₁ t r₁ ⟨call, tasks, value⟩ e₁ o₁ hcall
    · exact h.apart t₁ t₂ r₁ r₂ hne o₁ o₂
  · intro t' r hr r' hr'
    rcases hcases t' r hr with ⟨-, rfl⟩ | ⟨-, hr⟩
    · exact h.gone t _ hcall r' hr'
    · exact h.gone t' r hr r' hr'
  · intro x hx
    rcases List.mem_append.mp hx with hx | hx
    · exact h.known x hx
    · obtain ⟨y, -, rfl⟩ := List.mem_map.mp hx
      exact hlt

theorem gqStep_tracked (h : s.Tracked) (hstep : gqStep s t = some s') : s'.Tracked := by
  unfold gqStep at hstep
  split at hstep
  · cases hstep
  · cases hstep
  · cases hstep
  · next call task hpc =>
    have hcall : (s.threads t).call? = some ⟨call, [task], 0⟩ := by rw [hpc]; rfl
    split at hstep
    · split at hstep <;> cases hstep
      · next hdown => exact h.finish hcall (.inr hdown)
      · exact h.setThread hcall.symm
    · next hspace =>
      cases hstep
      rw [Bool.not_eq_true] at hspace
      -- written and returned in one section
      have hwritten : ((s.write (s.gq.push task) call [task]).setThread t
          (.batch call [task] 1)).Tracked :=
        h.write (n := 1) hcall rfl (Nat.le_refl 1) (h.valid.push task)
          (content_push h.valid hspace task)
      have hdone : (((s.write (s.gq.push task) call [task]).setThread t
          (.batch call [task] 1)).finish t call [task] 1).Tracked := by
        refine hwritten.finish ?_ (.inl rfl)
        rw [threads_setThread, if_pos rfl]
        rfl
      simpa [GqRun.finish, GqRun.setThread, GqRun.write] using hdone
  · next call tasks pushed hpc =>
    have hcall : (s.threads t).call? = some ⟨call, tasks, pushed⟩ := by rw [hpc]; rfl
    split at hstep
    · next hleft =>
      split at hstep
      · split at hstep <;> cases hstep
        · next hdown => exact h.finish hcall (.inr hdown)
        · exact h.setThread hcall.symm
      · cases hstep
        have hchunk : s.gq.chunk (tasks.length - pushed) ≤ tasks.length - pushed :=
          Nat.min_le_left _ _
        have hfits : ((tasks.drop pushed).take (s.gq.chunk (tasks.length - pushed))).length ≤
            globalQSize - 1 - s.gq.occupancy :=
          Nat.le_trans (List.length_take_le _ _) (Nat.min_le_right _ _)
        obtain ⟨hvalid, hcontent⟩ := content_pushChunk h.valid hfits
        exact h.write hcall rfl (by omega) hvalid hcontent
    · next hall =>
      cases hstep
      have hle := (h.running t _ hcall).2.le
      exact h.finish hcall (.inl (Nat.le_antisymm hle (Nat.le_of_not_lt hall)))
  · next max hpc =>
    split at hstep
    · cases hstep
      refine h.setThread ?_
      rw [hpc]
      rfl
    · cases hstep
      have hcontent := content_pullBatch max h.valid
      have hpulled : GqRun.Tracked
          { s with gq := s.gq.pullBatch max, pulled := s.pulled ++ s.gq.batch max } :=
        { h with
          valid := h.valid.pullBatch max
          order := by
            show s.pulled ++ s.gq.batch max ++ (s.gq.pullBatch max).content = _
            rw [List.append_assoc, ← hcontent]
            exact h.order }
      -- the tasks move from the ring to the consumer, and the producers are woken up
      have hwoken : (broadcastNotFull
          { s with gq := s.gq.pullBatch max, pulled := s.pulled ++ s.gq.batch max }).Tracked :=
        hpulled.rest (fun t' => gqCall_wake _) rfl rfl rfl rfl rfl id
      refine hwoken.setThread ?_
      show none = (s.threads t).wake.call?
      rw [hpc]
      rfl
  · next hpc =>
    cases hstep
    refine h.setThread ?_
    rw [hpc]
    rfl

theorem gq_perform_tracked {a : GqAct T α} (h : s.Tracked) (hstep : s.perform a = some s') :
    s'.Tracked := by
  have hbegin : ∀ {t : T} {pc : GqPC α}, (∀ r, pc.call? = some r → r.call = s.calls ∧ r.value = 0) →
      s.begin t pc = some s' → s'.Tracked := by
    intro t pc hpc hstep
    unfold GqRun.begin at hstep
    split at hstep <;> cases hstep
    exact h.begin hpc
  cases a with
  | push t task =>
    refine hbegin (fun r hr => ?_) hstep
    cases hr
    exact ⟨rfl, rfl⟩
  | pushBatch t tasks =>
    refine hbegin (fun r hr => ?_) hstep
    cases hr
    exact ⟨rfl, rfl⟩
  | pullBatch t max =>
    refine hbegin (fun r hr => ?_) hstep
    cases hr
  | «section» t => exact gqStep_tracked h hstep
  | wake t =>
    cases hstep
    exact h.setThread (gqCall_wake _)
  | shutdown =>
    cases hstep
    exact h.rest (fun _ => rfl) rfl rfl rfl rfl rfl fun _ => rfl

/-- The global queue is a bounded FIFO in every run: what was pulled so far, followed by the
content of the ring, is what was pushed so far; the tasks of a batch are in their own order;
and a call returns the number of its tasks that it has put in, which is all of them unless it
saw `shutdown`. -/
theorem gq_fifo (h : Reach (globalQueue T α) AnyStep s) : s.Fifo := by
  have htracked : s.Tracked := by
    refine Reach.invariant GqRun.Tracked ?_ ?_ h
    · rintro s ⟨tasks, rfl⟩
      exact .initial tasks
    · intro s a s' htracked _ hstep
      exact gq_perform_tracked htracked hstep
  refine ⟨htracked.order, ?_, fun t r hr => (htracked.running t r hr).2, fun r hr => ?_⟩
  · have hlt := s.gq.occupancy_lt
    omega
  · exact (htracked.returned r hr).2

/-- A producer writes a batch of two, and a consumer takes one of them. -/
def batchOfTwo : List (GqAct Bool Nat) :=
  [.pushBatch true [7, 8], .pullBatch false 1, .section true, .section false, .section true]

theorem gq_fifo_batchOfTwo : ∃ s : GqRun Bool Nat, Reach (globalQueue Bool Nat) AnyStep s ∧
    s.pulled = [7] ∧ s.gq.content = [8] ∧ s.Fifo := by
  have hview : (batchOfTwo.foldlM GqRun.perform (GqRun.initial Bool fun _ => 0)).map
      (fun s => (s.pulled, s.gq.content)) = some ([7], [8]) := by
    decide +kernel
  obtain ⟨s, hs, hsv⟩ := Option.map_eq_some_iff.mp hview
  obtain ⟨hpulled, hcontent⟩ := Prod.mk.inj hsv
  have hreach : Reach (globalQueue Bool Nat) AnyStep s :=
    Reach.run (fun _ _ _ h => ⟨trivial, h⟩) (.init ⟨_, rfl⟩) hs
  exact ⟨s, hreach, hpulled, hcontent, gq_fifo hreach⟩

end

end Solidc.Threadpool
