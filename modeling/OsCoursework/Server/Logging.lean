import OsCoursework.Server.Request
import OsCoursework.Support.Monitor

/-!
# Workers at the log

`requestHandle` as it is run by any number of workers at once.  The functions
`reader_lock`, `reader_unlock`, `writer_lock` and `writer_unlock` are the locked
sections of the mutex `log->lock`; between them a worker reads or extends the
buffer one statement at a time.  `writer_lock` has two sections, since a writer
that waited does not increment `waiting_writers` again.

The times that `gettimeofday` returns are given by `clock`.  The last four fields
of `Data` are not part of the program: they number the requests and record which
calls of `add_to_log` got the lock, which have returned, and what was sent.
-/

namespace OsCoursework.Server.Logging

open OsCoursework.Monitor

/-! ## Data -/

inductive Cond where
  | readersAllowed
  | writersAllowed
  deriving DecidableEq

/-- A call of `add_to_log` with the arguments it formats. -/
structure Entry where
  request : ℕ
  tStats : ThreadsStats
  tmStats : TimeStats
  deriving DecidableEq

def Entry.text (e : Entry) : Text :=
  logEntry e.tStats e.tmStats

/-- A response.  A GET has its headers without and with the statistics; a POST has
the numbers of `add_to_log` calls that had returned when `get_log` was called and
when it returned. -/
inductive Sent where
  | refused (bytes : Text)
  | get (request : ℕ) (respHeaders headers body : Text)
  | post (called returned : ℕ) (headers body : Text)

/-- The log, with the statistics of each worker. -/
structure Data (n : ℕ) where
  readers : ℤ
  waitingWriters : ℤ
  writers : ℤ
  log : LogBuffer
  stats : Fin n → ThreadsStats
  ticks : ℕ
  arrived : ℕ
  acquired : List Entry
  completed : List Entry
  sent : List Sent

/-- A GET that is to be logged. -/
structure Get where
  request : ℕ
  headers : Text
  body : Option Text
  bodyLen : ℤ
  tmStats : TimeStats

structure Post where
  called : ℕ
  tmStats : TimeStats

/-! ## Places -/

inductive WriteStage where
  | format
  | grow (entry : Text)
  | copy (entry : Text)
  | advance (entry : Text)
  | terminate

inductive ReadStage where
  | malloc
  | copy (size : ℤ)
  | length (dst : Text)

inductive Outside where
  | ready
  | writing (r : Get) (stage : WriteStage)
  | sendGet (r : Get)
  | reading (r : Post) (stage : ReadStage)
  | sendPost (r : Post) (returned : ℕ) (dst : Text) (len : ℤ)

inductive Inside where
  | writerLock (r : Get)
  | writerRetest (r : Get)
  | writerUnlock (r : Get)
  | readerLock (r : Post)
  | readerUnlock (r : Post) (dst : Text) (len : ℤ)

variable {n : ℕ} (clock : ℕ → Timeval)

/-! ## The locked sections -/

abbrev Section (n : ℕ) := Option (Outcome Cond Outside Inside (Data n))

def readerLock (d : Data n) (r : Post) : Section n :=
  if d.writers > 0 ∨ d.waitingWriters > 0 then
    some ⟨d, [], .wait .readersAllowed (.readerLock r)⟩
  else do
    let readers ← int (d.readers + 1)
    let tmStats := { r.tmStats with logExit := clock d.ticks }
    some ⟨{ d with readers := readers, ticks := d.ticks + 1 }, [],
      .unlock (.outside (.reading { r with tmStats := tmStats } .malloc))⟩

def readerUnlock (d : Data n) (r : Post) (dst : Text) (len : ℤ) : Section n := do
  let readers ← int (d.readers - 1)
  some ⟨{ d with readers := readers },
    if readers = 0 then [.signal .writersAllowed] else [],
    .unlock (.outside (.sendPost r d.completed.length dst len))⟩

/-- `writer_lock` from its `while` on. -/
def writerRetest (i : Fin n) (d : Data n) (r : Get) : Section n :=
  if d.readers > 0 ∨ d.writers > 0 then
    some ⟨d, [], .wait .writersAllowed (.writerRetest r)⟩
  else do
    let waitingWriters ← int (d.waitingWriters - 1)
    let tmStats := { r.tmStats with logExit := clock d.ticks }
    some ⟨{ d with
        waitingWriters := waitingWriters
        writers := 1
        ticks := d.ticks + 1
        acquired := d.acquired ++ [⟨r.request, d.stats i, tmStats⟩] }, [],
      .unlock (.outside (.writing { r with tmStats := tmStats } .format))⟩

def writerLock (i : Fin n) (d : Data n) (r : Get) : Section n := do
  let waitingWriters ← int (d.waitingWriters + 1)
  writerRetest clock i { d with waitingWriters := waitingWriters } r

def writerUnlock (i : Fin n) (d : Data n) (r : Get) : Section n :=
  some ⟨{ d with
      writers := 0
      completed := d.completed ++ [⟨r.request, d.stats i, r.tmStats⟩] },
    if d.waitingWriters > 0 then [.signal .writersAllowed]
    else [.broadcast .readersAllowed],
    .unlock (.outside (.sendGet r))⟩

def inside (i : Fin n) : Inside → Data n → Section n
  | .writerLock r, d => writerLock clock i d r
  | .writerRetest r, d => writerRetest clock i d r
  | .writerUnlock r, d => writerUnlock i d r
  | .readerLock r, d => readerLock clock d r
  | .readerUnlock r dst len, d => readerUnlock d r dst len

/-! ## Outside the mutex -/

/-- `requestHandle` up to the log: the worker answers with an error, or records the
time and calls `add_to_log` or `get_log`. -/
def arrive (i : Fin n) (d : Data n) (tmStats : TimeStats) (t : ThreadsStats) :
    Prepared → Data n × Place Outside Inside
  | .refused cause errnum shortmsg longmsg =>
      ({ d with
        stats := Function.update d.stats i t
        arrived := d.arrived + 1
        sent := d.sent ++
          [.refused (requestError cause errnum shortmsg longmsg tmStats t)] },
      .outside .ready)
  | .get headers body bodyLen =>
      ({ d with
        stats := Function.update d.stats i t
        arrived := d.arrived + 1
        ticks := d.ticks + 1 },
      .inside (.writerLock ⟨d.arrived, headers, body, bodyLen,
        { tmStats with logEnter := clock d.ticks }⟩))
  | .post =>
      ({ d with
        stats := Function.update d.stats i t
        arrived := d.arrived + 1
        ticks := d.ticks + 1 },
      .inside (.readerLock ⟨d.completed.length,
        { tmStats with logEnter := clock d.ticks }⟩))

/-- `add_to_log` between `writer_lock` and `writer_unlock`. -/
def Write (i : Fin n) (r : Get) : WriteStage → Data n → Data n →
    Place Outside Inside → Prop
  | .format, d, d', p => d' = d ∧
      p = .outside (.writing r (.grow (logEntry (d.stats i) r.tmStats)))
  | .grow entry, d, d', p => ∃ log, Grows d.log entry.length log ∧
      d' = { d with log := log } ∧ p = .outside (.writing r (.copy entry))
  | .copy entry, d, d', p => ∃ log, copyEntry d.log entry = some log ∧
      d' = { d with log := log } ∧ p = .outside (.writing r (.advance entry))
  | .advance entry, d, d', p => ∃ log, advance d.log entry.length = some log ∧
      d' = { d with log := log } ∧ p = .outside (.writing r .terminate)
  | .terminate, d, d', p => ∃ log, terminate d.log = some log ∧
      d' = { d with log := log } ∧ p = .inside (.writerUnlock r)

/-- `get_log` between `reader_lock` and `reader_unlock`; the copy is undefined when
`*dst` is too small for it. -/
def Read (r : Post) : ReadStage → Data n → Data n → Place Outside Inside → Prop
  | .malloc, d, d', p => d' = d ∧ ∃ size, int (d.log.length + 1) = some size ∧
      p = .outside (.reading r (.copy size))
  | .copy size, d, d', p => d' = d ∧ ∃ bytes dst,
      int (d.log.length + 1) = some bytes ∧ bytes ≤ size ∧
      copyOut d.log bytes = some dst ∧
      p = .outside (.reading r (.length dst))
  | .length dst, d, d', p => d' = d ∧
      p = .inside (.readerUnlock r dst d.log.length)

/-- What a worker does without the mutex. -/
def outside (i : Fin n) : Outside → Data n → Data n → Place Outside Inside → Prop
  | .ready, d, d', p => ∃ host method uri tmStats t prepared,
      prepare host method uri (d.stats i) = some (t, prepared) ∧
      (d', p) = arrive clock i d tmStats t prepared
  | .writing r stage, d, d', p => Write i r stage d d' p
  | .sendGet r, d, d', p => ∃ body, rioWriten r.body r.bodyLen = some body ∧
      d' = { d with sent := d.sent ++ [.get r.request r.headers
        (appendStats r.headers (d.stats i) r.tmStats) body] } ∧
      p = .outside .ready
  | .reading r stage, d, d', p => Read r stage d d' p
  | .sendPost r returned dst len, d, d', p => ∃ body,
      rioWriten (some dst) len = some body ∧
      d' = { d with sent := d.sent ++ [.post r.called returned
        (appendStats (postHeaders len) (d.stats i) r.tmStats) body] } ∧
      p = .outside .ready

/-! ## The program -/

def program (n : ℕ) : Program (Fin n) Cond (Data n) (fun _ => Outside)
    (fun _ => Inside) where
  inside := inside clock
  outside := outside clock

abbrev LogState (n : ℕ) :=
  State (Fin n) Cond (Data n) (fun _ => Outside) (fun _ => Inside)

/-- The statistics that `thread_function` starts with. -/
def initialStats (i : Fin n) : ThreadsStats :=
  ⟨i + 1, 0, 0, 0, 0⟩

/-- The log after `create_log`, with all workers between two requests. -/
def start (n : ℕ) (stale : ℕ → Char) : LogState n where
  data := ⟨0, 0, 0, createLog stale, initialStats, 0, 0, [], [], []⟩
  owner := none
  status := fun _ => .running .ready

/-- The states of a server with `n` workers. -/
def LoggingState (s : LogState n) : Prop :=
  ∃ stale, Reachable (program clock n) (start n stale) s

end OsCoursework.Server.Logging
