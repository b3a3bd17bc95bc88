import Mathlib.Data.Int.Notation
import OsCoursework.Support.LinkedQueue

/-!
# The queue of waiting connections

`queue.c` at the level of pointers: jobs are cells of a heap, linked through
their `next` fields between the `head` and the `tail` of the queue.  `Holds h q l`
states that the queue `q` in the heap `h` is the FIFO sequence `l` of job
addresses; `enqueue` appends to it and `dequeue` takes its first member.
-/

namespace OsCoursework.Server

open OsCoursework.LinkedQueue

/-! ## Data -/

/-- The result of an `int` computation, undefined when it overflows. -/
def int (n : ℤ) : Option ℤ :=
  if -2147483648 ≤ n ∧ n ≤ 2147483647 then some n else none

structure Timeval where
  sec : ℤ
  usec : ℤ
  deriving DecidableEq

/-- A `Job` cell; address `0` is `NULL`. -/
structure Job where
  jobFd : ℤ
  arrivalTime : Timeval
  next : ℕ

/-- The cells that are allocated. -/
abbrev Heap := ℕ → Option Job

structure Queue where
  currSize : ℤ
  maxSize : ℤ
  head : ℕ
  tail : ℕ

/-! ## Operations -/

/-- `job` is the address that `malloc` returned. -/
def createJob (h : Heap) (job : ℕ) (fd : ℤ) (time : Timeval) : Heap :=
  Function.update h job (some ⟨fd, time, 0⟩)

def createQueue (size : ℤ) : Queue :=
  ⟨0, size, 0, 0⟩

/-- The store `job->next = next`, undefined unless `job` is allocated. -/
def setNext (h : Heap) (job next : ℕ) : Option Heap :=
  (h job).map fun cell => Function.update h job (some { cell with next := next })

def enqueue (h : Heap) (queue : Queue) (job : ℕ) : Option (Heap × Queue) := do
  let (h, queue) ←
    if queue.tail = 0 then
      some (h, { queue with head := job, tail := job })
    else
      (setNext h queue.tail job).map fun h => (h, { queue with tail := job })
  let currSize ← int (queue.currSize + 1)
  some (h, { queue with currSize := currSize })

/-- Returns the address of the job, `NULL` if the queue is empty. -/
def dequeue (h : Heap) (queue : Queue) : Option (Heap × Queue × ℕ) :=
  if queue.currSize = 0 then some (h, queue, 0)
  else if queue.head = 0 then some (h, queue, 0)
  else do
    let temp := queue.head
    let cell ← h temp
    let queue := { queue with head := cell.next }
    let queue := if queue.head = 0 then { queue with tail := 0 } else queue
    let currSize ← int (queue.currSize - 1)
    let h ← setNext h temp 0
    some (h, { queue with currSize := currSize }, temp)

def isEmpty (queue : Queue) : Bool :=
  queue.head = 0

/-! ## Specifications -/

/-- The connection a job stands for. -/
structure Connection where
  fd : ℤ
  arrivalTime : Timeval
  deriving DecidableEq

def Job.connection (cell : Job) : Connection :=
  ⟨cell.jobFd, cell.arrivalTime⟩

def nextOf (h : Heap) (job : ℕ) : Option ℕ :=
  (h job).map Job.next

/-- The same cells are allocated and stand for the same connections. -/
def Keeps (h h' : Heap) : Prop :=
  ∀ a, (h' a).map Job.connection = (h a).map Job.connection

theorem Keeps.isSome {h h' : Heap} (hkeeps : Keeps h h') {a : ℕ}
    (ha : (h a).isSome) : (h' a).isSome := by
  rw [← Option.isSome_map (f := Job.connection)] at ha ⊢
  rwa [hkeeps a]

/-- The queue is the sequence `l` of jobs. -/
structure Holds (h : Heap) (queue : Queue) (l : List ℕ) : Prop where
  fifo : Fifo 0 (nextOf h) queue.head queue.tail l
  currSize_eq : queue.currSize = l.length

theorem int_eq {n : ℤ} (h : -2147483648 ≤ n) (h' : n ≤ 2147483647) :
    int n = some n :=
  if_pos ⟨h, h'⟩

theorem nextOf_setNext {h h' : Heap} {job next : ℕ}
    (hset : setNext h job next = some h') :
    nextOf h' = Function.update (nextOf h) job (some next) := by
  obtain ⟨cell, -, rfl⟩ := Option.map_eq_some_iff.mp hset
  funext a
  by_cases ha : a = job
  · subst ha
    simp [nextOf]
  · simp [nextOf, Function.update_of_ne ha]

theorem keeps_setNext {h h' : Heap} {job next : ℕ}
    (hset : setNext h job next = some h') : Keeps h h' := by
  obtain ⟨cell, hcell, rfl⟩ := Option.map_eq_some_iff.mp hset
  intro a
  by_cases ha : a = job
  · subst ha
    simp [hcell, Job.connection]
  · rw [Function.update_of_ne ha]

theorem setNext_of_ne {h h' : Heap} {job next a : ℕ}
    (hset : setNext h job next = some h') (ha : a ≠ job) : h' a = h a := by
  obtain ⟨cell, -, rfl⟩ := Option.map_eq_some_iff.mp hset
  exact Function.update_of_ne ha _ _

theorem exists_setNext {h : Heap} {job : ℕ} (hjob : (nextOf h job).isSome)
    (next : ℕ) : ∃ h', setNext h job next = some h' := by
  obtain ⟨a, ha⟩ := Option.isSome_iff_exists.mp hjob
  obtain ⟨cell, hcell, -⟩ := Option.map_eq_some_iff.mp ha
  exact ⟨_, by rw [setNext, hcell]; rfl⟩

/-- What does not touch the links of the members does not touch the queue. -/
theorem Holds.congr {h h' : Heap} {queue : Queue} {l : List ℕ}
    (hold : Holds h queue l) (hnext : ∀ a ∈ l, h' a = h a) :
    Holds h' queue l := by
  refine ⟨hold.fifo.congr ?_, hold.currSize_eq⟩
  intro a ha
  rw [nextOf, nextOf, hnext a ha]

theorem holds_createQueue (h : Heap) (size : ℤ) :
    Holds h (createQueue size) [] :=
  ⟨Fifo.empty 0 _, rfl⟩

section Holds

variable {h : Heap} {queue : Queue} {l : List ℕ} {job : ℕ}

theorem Holds.isEmpty_iff (hold : Holds h queue l) :
    isEmpty queue = true ↔ l = [] := by
  rw [isEmpty, decide_eq_true_eq, hold.fifo.head_eq_null_iff]

theorem Holds.currSize_eq_zero_iff (hold : Holds h queue l) :
    queue.currSize = 0 ↔ l = [] := by
  rw [hold.currSize_eq, Int.natCast_eq_zero, List.length_eq_zero_iff]

/-- `enqueue` appends the job. -/
theorem Holds.enqueue (hold : Holds h queue l) (hjob : job ≠ 0)
    (hnot : job ∉ l) (hnext : nextOf h job = some 0)
    (hsize : queue.currSize < 2147483647) :
    ∃ h' queue', enqueue h queue job = some (h', queue') ∧
      Holds h' queue' (l ++ [job]) ∧ queue'.maxSize = queue.maxSize ∧
      Keeps h h' := by
  have hlength : queue.currSize + 1 = ((l ++ [job]).length : ℤ) := by
    rw [hold.currSize_eq, List.length_append]
    rfl
  have hpos : 0 ≤ queue.currSize := by
    rw [hold.currSize_eq]
    exact Int.natCast_nonneg _
  have hint : int (queue.currSize + 1) = some (queue.currSize + 1) :=
    int_eq (by omega) (by omega)
  by_cases htail : queue.tail = 0
  · have hl := hold.fifo.tail_eq_null_iff.mp htail
    refine ⟨h, { queue with
      head := job, tail := job, currSize := queue.currSize + 1 }, ?_,
      ⟨?_, hlength⟩, rfl, fun _ => rfl⟩
    · simp only [Server.enqueue, htail, if_true, hint, Option.bind_eq_bind,
        Option.bind_some]
    · rw [hl]
      exact Fifo.push_empty hjob hnext
  · have hl : l ≠ [] := mt hold.fifo.tail_eq_null_iff.mpr htail
    have hmem : queue.tail ∈ l := by
      rw [hold.fifo.tail_eq_getLast hl]
      exact List.getLast_mem hl
    obtain ⟨h', hset⟩ :=
      exists_setNext (hold.fifo.chained.next_isSome _ hmem) job
    refine ⟨h', { queue with tail := job, currSize := queue.currSize + 1 }, ?_,
      ⟨?_, hlength⟩, rfl, keeps_setNext hset⟩
    · simp only [Server.enqueue, htail, if_false, hset, Option.map_some, hint,
        Option.bind_eq_bind, Option.bind_some]
    · rw [nextOf_setNext hset]
      exact hold.fifo.push hl hjob hnot hnext

/-- `dequeue` takes the first job. -/
theorem Holds.dequeue (hold : Holds h queue (job :: l))
    (hsize : queue.currSize ≤ 2147483647) :
    ∃ h' queue', dequeue h queue = some (h', queue', job) ∧
      Holds h' queue' l ∧ queue'.maxSize = queue.maxSize ∧ Keeps h h' ∧
      (∀ a, a ≠ job → h' a = h a) ∧ job ≠ 0 := by
  obtain ⟨hhead, -, c, hc, -, hpop⟩ := hold.fifo.pop
  have hjob : job ≠ 0 := hold.fifo.chained.2.1
  have hlength : queue.currSize = (l.length : ℤ) + 1 := by
    rw [hold.currSize_eq]
    rfl
  have hpos := Int.natCast_nonneg l.length
  have hint : int (queue.currSize - 1) = some (queue.currSize - 1) :=
    int_eq (by omega) (by omega)
  obtain ⟨cell, hcell, hcnext⟩ := Option.map_eq_some_iff.mp hc
  obtain ⟨h', hset⟩ := exists_setNext (by rw [hc]; rfl) 0
  have hfifo := hpop (some 0)
  rw [← nextOf_setNext hset] at hfifo
  refine ⟨h', ⟨queue.currSize - 1, queue.maxSize, c,
    if c = 0 then 0 else queue.tail⟩, ?_, ⟨hfifo, ?_⟩, rfl, keeps_setNext hset,
    fun a => setNext_of_ne hset, hjob⟩
  · have hsize0 : queue.currSize ≠ 0 := by omega
    simp only [Server.dequeue, if_neg hsize0, hhead, if_neg hjob, hcell, hcnext,
      Option.bind_eq_bind, Option.bind_some]
    by_cases hc0 : c = 0
    · simp only [hc0, if_true, hint, hset, Option.bind_some]
    · simp only [hc0, if_false, hint, hset, Option.bind_some]
  · change queue.currSize - 1 = _
    omega

end Holds

end OsCoursework.Server
