import Solidc.Lib.Bits
import Solidc.Lib.Ring

/-! # The global queue

Threads that are no workers submit through a ring of `GLOBAL_Q_SIZE` slots behind a mutex;
one slot stays free, so that `head == tail` means empty. `head` and `tail` are stored
masked. What a critical section does is one step here: all its accesses but one are to
data that only the holder of the mutex touches.

* `GlobalQueue.content` — the tasks in the queue, in the order of the pushes;
* `content_push`, `content_pushChunk`, `content_pullBatch` — what the sections of `gq_push`,
  `gq_push_batch` and `gq_pull_batch` do to it.
-/

namespace Solidc.Threadpool

open CLib

variable {α : Type*}

def globalQSize : Nat := 1 <<< 14
def globalQMask : Nat := globalQSize - 1

/-- `GlobalQueue`, without the mutex and the condition. -/
structure GlobalQueue (α : Type*) where
  head : Nat
  tail : Nat
  tasks : Nat → α

/-- `gq_init`; the task slots are left as they are. -/
def gqInit (tasks : Nat → α) : GlobalQueue α := ⟨0, 0, tasks⟩

/-- The test of the loops that wait for space. -/
def GlobalQueue.isFull (q : GlobalQueue α) : Bool := (q.head + 1) &&& globalQMask == q.tail

/-- `(h - t) & GLOBAL_Q_MASK` of `uint32_t`: the difference modulo the size. -/
def GlobalQueue.occupancy (q : GlobalQueue α) : Nat :=
  (((q.head : Int) - q.tail) % globalQSize).toNat

/-- The section of `gq_push` that writes a task. -/
def GlobalQueue.push (q : GlobalQueue α) (task : α) : GlobalQueue α :=
  { q with
    tasks := Function.update q.tasks q.head task
    head := (q.head + 1) &&& globalQMask }

/-- The loop that writes the tasks of a chunk from `h` on. -/
def writeChunk (slots : Nat → α) (h : Nat) : List α → Nat → α
  | [] => slots
  | x :: xs => writeChunk (Function.update slots (h &&& globalQMask) x) (h + 1) xs

/-- The number of tasks that one section of `gq_push_batch` writes. -/
def GlobalQueue.chunk (q : GlobalQueue α) (todo : Nat) : Nat :=
  min todo (globalQSize - 1 - q.occupancy)

/-- The section of `gq_push_batch` that writes a chunk. -/
def GlobalQueue.pushChunk (q : GlobalQueue α) (chunk : List α) : GlobalQueue α :=
  { q with
    tasks := writeChunk q.tasks q.head chunk
    head := (q.head + chunk.length) &&& globalQMask }

/-- The tasks that `gq_pull_batch` copies out, none if the queue is empty. -/
def GlobalQueue.batch (q : GlobalQueue α) (max : Nat) : List α :=
  (List.range (min q.occupancy max)).map fun i => q.tasks ((q.tail + i) &&& globalQMask)

/-- The section of `gq_pull_batch` that moves `tail` past its batch. -/
def GlobalQueue.pullBatch (q : GlobalQueue α) (max : Nat) : GlobalQueue α :=
  { q with tail := (q.tail + min q.occupancy max) &&& globalQMask }

/-! ## The queue as a list -/

/-- Both ends are stored masked. -/
structure GlobalQueue.Valid (q : GlobalQueue α) : Prop where
  head_lt : q.head < globalQSize
  tail_lt : q.tail < globalQSize

/-- The tasks in the queue, the next to be pulled first. -/
def GlobalQueue.content (q : GlobalQueue α) : List α :=
  (ring globalQSize q.tasks q.tail (q.tail + q.occupancy)).map (·.2)

theorem and_globalQMask (i : Nat) : i &&& globalQMask = i % globalQSize :=
  and_mask i 14

theorem globalQSize_eq : globalQSize = 16384 := rfl

variable {q : GlobalQueue α}

theorem gqInit_valid (tasks : Nat → α) : (gqInit tasks).Valid :=
  ⟨Nat.two_pow_pos 14, Nat.two_pow_pos 14⟩

@[simp] theorem gqInit_content (tasks : Nat → α) : (gqInit tasks).content = [] := by
  simp [GlobalQueue.content, GlobalQueue.occupancy, gqInit, ring]

@[simp] theorem GlobalQueue.length_content : q.content.length = q.occupancy := by
  simp [content]

theorem GlobalQueue.occupancy_lt : q.occupancy < globalQSize := by
  unfold occupancy
  rw [globalQSize_eq]
  omega

/-- Walking over the whole queue leads from `tail` to `head`. -/
theorem GlobalQueue.Valid.tail_add_occupancy (h : q.Valid) :
    (q.tail + q.occupancy) % globalQSize = q.head := by
  obtain ⟨hhead, htail⟩ := h
  unfold occupancy
  simp only [globalQSize_eq] at *
  omega

/-- The occupancy is the only number of slots below a round that leads from `tail` to
`head`. -/
theorem GlobalQueue.Valid.occupancy_unique (h : q.Valid) {n : Nat} (hn : n < globalQSize)
    (hwalk : (q.tail + n) % globalQSize = q.head) : q.occupancy = n := by
  obtain ⟨hhead, htail⟩ := h
  unfold occupancy
  simp only [globalQSize_eq] at *
  omega

theorem GlobalQueue.Valid.content_eq_nil (h : q.Valid) : q.content = [] ↔ q.head = q.tail := by
  have hwalk := h.tail_add_occupancy
  rw [← List.length_eq_zero_iff, length_content]
  constructor
  · intro hzero
    rw [← hwalk, hzero, Nat.add_zero, Nat.mod_eq_of_lt h.tail_lt]
  · intro heq
    exact h.occupancy_unique (by decide) (by rw [Nat.add_zero, Nat.mod_eq_of_lt h.tail_lt, heq])

theorem GlobalQueue.Valid.isFull_iff (h : q.Valid) :
    q.isFull = true ↔ q.occupancy = globalQSize - 1 := by
  have hwalk := h.tail_add_occupancy
  have hlt := q.occupancy_lt
  obtain ⟨hhead, htail⟩ := h
  unfold isFull
  rw [and_globalQMask, beq_iff_eq]
  simp only [globalQSize_eq] at *
  omega

/-! ## The sections -/

@[simp] theorem head_push (x : α) : (q.push x).head = (q.head + 1) % globalQSize := by
  simp only [GlobalQueue.push, and_globalQMask]

@[simp] theorem tail_push (x : α) : (q.push x).tail = q.tail := by
  simp only [GlobalQueue.push]

@[simp] theorem tasks_push (x : α) : (q.push x).tasks = Function.update q.tasks q.head x := by
  simp only [GlobalQueue.push]

theorem GlobalQueue.Valid.push (h : q.Valid) (x : α) : (q.push x).Valid where
  head_lt := by
    rw [head_push]
    exact Nat.mod_lt _ (Nat.two_pow_pos 14)
  tail_lt := by
    rw [tail_push]
    exact h.tail_lt

theorem occupancy_push (h : q.Valid) (hspace : q.isFull = false) (x : α) :
    (q.push x).occupancy = q.occupancy + 1 := by
  have hlt := q.occupancy_lt
  have hne : q.occupancy ≠ globalQSize - 1 := by
    intro hc
    exact Bool.false_ne_true (hspace.symm.trans (h.isFull_iff.mpr hc))
  refine (h.push x).occupancy_unique (by omega) ?_
  rw [head_push, tail_push, ← h.tail_add_occupancy, Nat.mod_add_mod, Nat.add_assoc]

/-- `gq_push` adds its task at the end. -/
theorem content_push (h : q.Valid) (hspace : q.isFull = false) (x : α) :
    (q.push x).content = q.content ++ [x] := by
  have hocc := occupancy_push h hspace x
  have hlt := (q.push x).occupancy_lt
  have hslot := h.tail_add_occupancy
  unfold GlobalQueue.content
  rw [hocc, tasks_push, tail_push, ← Nat.add_assoc, ring_snoc (by omega), hslot,
    Function.update_self, ← hslot, ring_write (by omega) (by omega), List.map_append]
  rfl

theorem writeChunk_mod (slots : Nat → α) (h : Nat) (xs : List α) :
    writeChunk slots (h % globalQSize) xs = writeChunk slots h xs := by
  induction xs generalizing slots h with
  | nil => rw [writeChunk, writeChunk]
  | cons x xs ih =>
    rw [writeChunk, writeChunk, and_globalQMask, and_globalQMask, Nat.mod_mod,
      ← ih _ (h % globalQSize + 1), ← ih _ (h + 1), Nat.mod_add_mod]

/-- A chunk is written as its tasks one after the other. -/
theorem pushChunk_cons (h : q.Valid) (x : α) (xs : List α) :
    q.pushChunk (x :: xs) = (q.push x).pushChunk xs := by
  have hslot : q.head &&& globalQMask = q.head := by
    rw [and_globalQMask, Nat.mod_eq_of_lt h.head_lt]
  have hhead : (q.head + (x :: xs).length) % globalQSize =
      ((q.head + 1) % globalQSize + xs.length) % globalQSize := by
    rw [Nat.mod_add_mod, List.length_cons, Nat.add_assoc, Nat.add_comm 1]
  simp only [GlobalQueue.pushChunk, head_push, tail_push, tasks_push, writeChunk, hslot,
    and_globalQMask, writeChunk_mod, hhead]

theorem pushChunk_nil (h : q.Valid) : q.pushChunk [] = q := by
  simp only [GlobalQueue.pushChunk, writeChunk, List.length_nil, Nat.add_zero, and_globalQMask,
    Nat.mod_eq_of_lt h.head_lt]

/-- `gq_push_batch` adds each chunk at the end, in its order. -/
theorem content_pushChunk (h : q.Valid) {xs : List α}
    (hspace : xs.length ≤ globalQSize - 1 - q.occupancy) :
    (q.pushChunk xs).Valid ∧ (q.pushChunk xs).content = q.content ++ xs := by
  induction xs generalizing q with
  | nil =>
    rw [pushChunk_nil h, List.append_nil]
    exact ⟨h, rfl⟩
  | cons x xs ih =>
    rw [List.length_cons] at hspace
    have hfree : q.isFull = false := by
      rw [← Bool.not_eq_true, h.isFull_iff]
      omega
    have hocc := occupancy_push h hfree x
    obtain ⟨hvalid, hcontent⟩ := ih (h.push x) (by omega)
    rw [pushChunk_cons h]
    refine ⟨hvalid, ?_⟩
    rw [hcontent, content_push h hfree, List.append_assoc]
    rfl

variable (max : Nat)

@[simp] theorem head_pullBatch : (q.pullBatch max).head = q.head := by
  simp only [GlobalQueue.pullBatch]

@[simp] theorem tail_pullBatch :
    (q.pullBatch max).tail = (q.tail + min q.occupancy max) % globalQSize := by
  simp only [GlobalQueue.pullBatch, and_globalQMask]

@[simp] theorem tasks_pullBatch : (q.pullBatch max).tasks = q.tasks := by
  simp only [GlobalQueue.pullBatch]

theorem batch_eq : q.batch max =
    (ring globalQSize q.tasks q.tail (q.tail + min q.occupancy max)).map (·.2) := by
  rw [map_snd_ring]
  simp only [GlobalQueue.batch, and_globalQMask]

theorem GlobalQueue.Valid.pullBatch (h : q.Valid) : (q.pullBatch max).Valid where
  head_lt := by
    rw [head_pullBatch]
    exact h.head_lt
  tail_lt := by
    rw [tail_pullBatch]
    exact Nat.mod_lt _ (Nat.two_pow_pos 14)

/-- `gq_pull_batch` takes from the front, as many tasks as there are up to `max`. -/
theorem content_pullBatch (h : q.Valid) :
    q.content = q.batch max ++ (q.pullBatch max).content := by
  have hlt := q.occupancy_lt
  obtain ⟨rest, hrest⟩ := Nat.exists_eq_add_of_le (Nat.min_le_left q.occupancy max)
  have hocc : (q.pullBatch max).occupancy = rest := by
    refine (h.pullBatch max).occupancy_unique (by omega) ?_
    rw [tail_pullBatch, head_pullBatch, Nat.mod_add_mod, Nat.add_assoc, ← hrest]
    exact h.tail_add_occupancy
  rw [batch_eq, GlobalQueue.content, GlobalQueue.content, hocc, tasks_pullBatch,
    tail_pullBatch, map_snd_ring_mod, ← List.map_append, ← ring_append, Nat.add_assoc, ← hrest]

theorem length_batch : (q.batch max).length = min q.content.length max := by
  rw [batch_eq, List.length_map, ring_length, GlobalQueue.length_content, Nat.add_sub_cancel_left]

end Solidc.Threadpool
