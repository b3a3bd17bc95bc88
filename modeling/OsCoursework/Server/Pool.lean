import Mathlib.Data.Fintype.Sum
import Mathlib.Tactic.DeriveFintype
import OsCoursework.Server.Queue
import OsCoursework.Support.Monitor

/-!
# The thread pool

The accept loop of `main` and `thread_function` as a program around the mutex
`queue_lock` with the conditions `queue_not_empty` and `queue_not_full`.  Each
code path between `pthread_mutex_lock` and the unlock or wait that ends it is a
locked section.  `requestHandle` is assumed to return; it does not touch the
shared data.

The last four fields of `Data` are not part of the program.  They record which
connections were accepted, in which order jobs were dequeued and which were
served.
-/

namespace OsCoursework.Server

open OsCoursework.Monitor

/-! ## Data -/

/-- Arguments that `getargs` accepts. -/
structure Args where
  numThreads : ℕ
  queueSize : ℤ
  numThreads_pos : 0 < numThreads
  queueSize_pos : 0 < queueSize
  queueSize_le : queueSize ≤ 2147483647

inductive Thread (n : ℕ) where
  | master
  | worker (i : Fin n)
  deriving DecidableEq, Fintype

inductive Cond where
  | queueNotEmpty
  | queueNotFull
  deriving DecidableEq

/-- The variables the threads share.  `number` gives the job at an address its
place in the order of `accepted`. -/
structure Data where
  heap : Heap
  waitingQueue : Queue
  activeJobs : ℤ
  number : ℕ → ℕ
  accepted : List Connection
  dequeued : List ℕ
  served : List (ℕ × Connection)

/-! ## The master -/

inductive MasterOutside where
  | accept
  deriving DecidableEq

inductive MasterInside where
  | test
  | insert (job : ℕ)
  deriving DecidableEq

/-- `while (waitingQueue->currSize + active_jobs >= waitingQueue->maxSize)`. -/
def test (d : Data) : Option (Outcome Cond MasterOutside MasterInside Data) := do
  let total ← int (d.waitingQueue.currSize + d.activeJobs)
  if d.waitingQueue.maxSize ≤ total then
    some ⟨d, [], .wait .queueNotFull .test⟩
  else
    some ⟨d, [], .unlock (.outside .accept)⟩

/-- `Accept` returned `c.fd`, and `malloc` a cell at `job`. -/
def accept (d : Data) (job : ℕ) (c : Connection) : Data :=
  { d with
    heap := createJob d.heap job c.fd c.arrivalTime
    number := Function.update d.number job d.accepted.length
    accepted := d.accepted ++ [c] }

/-- `enqueue` and the signal to a worker. -/
def insert (d : Data) (job : ℕ) :
    Option (Outcome Cond MasterOutside MasterInside Data) := do
  let (heap, queue) ← enqueue d.heap d.waitingQueue job
  some ⟨{ d with heap := heap, waitingQueue := queue },
    [.signal .queueNotEmpty], .unlock (.inside .test)⟩

/-! ## The workers -/

inductive WorkerOutside where
  | handle (job : ℕ)
  deriving DecidableEq

inductive WorkerInside where
  | take
  | finish
  deriving DecidableEq

/-- `while (isEmpty(waitingQueue))`, then `dequeue` and `active_jobs++`. -/
def take (d : Data) : Option (Outcome Cond WorkerOutside WorkerInside Data) :=
  if isEmpty d.waitingQueue then
    some ⟨d, [], .wait .queueNotEmpty .take⟩
  else do
    let (heap, queue, job) ← dequeue d.heap d.waitingQueue
    let active ← int (d.activeJobs + 1)
    some ⟨{ d with
        heap := heap
        waitingQueue := queue
        activeJobs := active
        dequeued := d.dequeued ++ [d.number job] },
      [.signal .queueNotFull], .unlock (.outside (.handle job))⟩

/-- `requestHandle`, `close` and `free`; undefined unless `job` is allocated. -/
def handle (d : Data) (job : ℕ) : Option Data :=
  (d.heap job).map fun cell =>
    { d with
      heap := Function.update d.heap job none
      served := d.served ++ [(d.number job, cell.connection)] }

/-- `active_jobs--` and the signal to the master. -/
def finish (d : Data) : Option (Outcome Cond WorkerOutside WorkerInside Data) := do
  let active ← int (d.activeJobs - 1)
  some ⟨{ d with activeJobs := active }, [.signal .queueNotFull],
    .unlock (.inside .take)⟩

/-! ## The program -/

abbrev Outside (n : ℕ) : Thread n → Type
  | .master => MasterOutside
  | .worker _ => WorkerOutside

abbrev Inside (n : ℕ) : Thread n → Type
  | .master => MasterInside
  | .worker _ => WorkerInside

/-- The locked sections. -/
def inside (n : ℕ) : (t : Thread n) → Inside n t → Data →
    Option (Outcome Cond (Outside n t) (Inside n t) Data)
  | .master, .test, d => test d
  | .master, .insert job, d => insert d job
  | .worker _, .take, d => take d
  | .worker _, .finish, d => finish d

/-- What the threads do without the mutex. -/
def outside (n : ℕ) : (t : Thread n) → Outside n t → Data → Data →
    Place (Outside n t) (Inside n t) → Prop
  | .master, .accept, d, d', p => ∃ job c, job ≠ 0 ∧ d.heap job = none ∧
      d' = accept d job c ∧ p = .inside (.insert job)
  | .worker _, .handle job, d, d', p =>
      handle d job = some d' ∧ p = .inside .finish

def program (n : ℕ) : Program (Thread n) Cond Data (Outside n) (Inside n) where
  inside := inside n
  outside := outside n

abbrev PoolState (n : ℕ) := State (Thread n) Cond Data (Outside n) (Inside n)

/-- The variables after `createQueue`. -/
def initialData (args : Args) : Data :=
  ⟨fun _ => none, createQueue args.queueSize, 0, fun _ => 0, [], [], []⟩

/-- All threads are about to lock the mutex for the first time. -/
def start (args : Args) : PoolState args.numThreads where
  data := initialData args
  owner := none
  status
    | .master => .blocked .test
    | .worker _ => .blocked .take

/-- The states of the server with the given arguments. -/
def ServerState (args : Args) (s : PoolState args.numThreads) : Prop :=
  Reachable (program args.numThreads) (start args) s

end OsCoursework.Server
