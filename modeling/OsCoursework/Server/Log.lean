import OsCoursework.Server.Queue

/-!
# The server log

The statistics of `log.h`, the conversions of `sprintf` that the server uses, and
the buffer of `log.c`.  A text is a list of characters, one for each byte.  The
buffer is what `log->buffer` points to; only the first `capacity` bytes of it
exist.
-/

namespace OsCoursework.Server

/-! ## Formatted output -/

abbrev Text := List Char

def crlf : Text := "\r\n".toList

/-- The conversions `%d` and `%ld`. -/
def decimal (z : ℤ) : Text :=
  if z < 0 then '-' :: Nat.toDigits 10 z.natAbs else Nat.toDigits 10 z.natAbs

/-- The conversion `%0<width>ld`: zeros go between the sign and the digits. -/
def zeroPadded (width : ℕ) (z : ℤ) : Text :=
  if z < 0 then
    '-' :: List.replicate (width - (decimal z).length) '0' ++
      Nat.toDigits 10 z.natAbs
  else
    List.replicate (width - (decimal z).length) '0' ++ Nat.toDigits 10 z.natAbs

/-- The conversions `%ld.%06ld` of a time. -/
def timestamp (t : Timeval) : Text :=
  decimal t.sec ++ ".".toList ++ zeroPadded 6 t.usec

/-! ## Statistics -/

structure ThreadsStats where
  id : ℤ
  statReq : ℤ
  dynmReq : ℤ
  postReq : ℤ
  totalReq : ℤ
  deriving DecidableEq

structure TimeStats where
  taskArrival : Timeval
  taskDispatch : Timeval
  logEnter : Timeval
  logExit : Timeval
  deriving DecidableEq

/-- `buf` holds its text up to the terminating NUL. -/
def appendStatsInLog (buf : Text) (tStats : ThreadsStats) (tmStats : TimeStats) :
    Text :=
  buf ++
  ("Stat-Req-Arrival:: ".toList ++ timestamp tmStats.taskArrival ++ crlf) ++
  ("Stat-Req-Dispatch:: ".toList ++ timestamp tmStats.taskDispatch ++ crlf) ++
  ("Stat-Log-Arrival:: ".toList ++ timestamp tmStats.logEnter ++ crlf) ++
  ("Stat-Log-Dispatch:: ".toList ++ timestamp tmStats.logExit ++ crlf) ++
  ("Stat-Thread-Id:: ".toList ++ decimal tStats.id ++ crlf) ++
  ("Stat-Thread-Count:: ".toList ++ decimal tStats.totalReq ++ crlf) ++
  ("Stat-Thread-Static:: ".toList ++ decimal tStats.statReq ++ crlf) ++
  ("Stat-Thread-Dynamic:: ".toList ++ decimal tStats.dynmReq ++ crlf) ++
  ("Stat-Thread-Post:: ".toList ++ decimal tStats.postReq ++ crlf ++ crlf)

/-! ## The buffer -/

structure LogBuffer where
  buffer : ℕ → Char
  length : ℤ
  capacity : ℤ

def initialCapacity : ℤ := 1024

/-- `create_log`; `malloc` leaves the other bytes as they were. -/
def createLog (stale : ℕ → Char) : LogBuffer :=
  ⟨Function.update stale 0 '\x00', 0, initialCapacity⟩

/-- The text of the log. -/
def LogBuffer.content (log : LogBuffer) : Text :=
  (List.range log.length.toNat).map log.buffer

/-- `log_buf` when it is copied: the statistics and a newline. -/
def logEntry (tStats : ThreadsStats) (tmStats : TimeStats) : Text :=
  appendStatsInLog [] tStats tmStats ++ "\n".toList

/-- An `int` result that wraps around. -/
def wrap (n : ℤ) : ℤ :=
  n.bmod 4294967296

theorem wrap_lt (n : ℤ) : -2147483648 ≤ wrap n ∧ wrap n < 2147483648 :=
  ⟨Int.le_bmod (by decide), Int.bmod_lt (by decide)⟩

theorem wrap_of_lt {n : ℤ} (hlow : -2147483648 ≤ n) (hhigh : n < 2147483648) :
    wrap n = n := by
  rw [wrap, Int.bmod_eq_of_le]
  · omega
  · omega

/-- `while (log->length + len + 1 >= log->capacity) log->capacity *= 2`, run for at
most `fuel` tests. -/
def growLoop (need : ℤ) : ℕ → ℤ → Option ℤ
  | 0, _ => none
  | fuel + 1, capacity =>
      if need ≥ capacity then growLoop need fuel (wrap (capacity * 2))
      else some capacity

/-- The loop ends with this capacity; `realloc` keeps the bytes. -/
def Grows (log : LogBuffer) (len : ℕ) (log' : LogBuffer) : Prop :=
  ∃ fuel capacity,
    growLoop (wrap (log.length + len + 1)) fuel log.capacity = some capacity ∧
      log' = { log with capacity := capacity }

/-- `memcpy(log->buffer + log->length, log_buf, len)`, undefined outside the
buffer. -/
def copyEntry (log : LogBuffer) (entry : Text) : Option LogBuffer :=
  if 0 ≤ log.length ∧ log.length + entry.length ≤ log.capacity then
    some { log with
      buffer := fun a =>
        if log.length.toNat ≤ a then
          entry.getD (a - log.length.toNat) (log.buffer a)
        else log.buffer a }
  else none

/-- `log->length += len`. -/
def advance (log : LogBuffer) (len : ℕ) : Option LogBuffer := do
  let length ← int (log.length + len)
  some { log with length := length }

/-- `log->buffer[log->length] = '\0'`, undefined outside the buffer. -/
def terminate (log : LogBuffer) : Option LogBuffer :=
  if 0 ≤ log.length ∧ log.length < log.capacity then
    some { log with
      buffer := Function.update log.buffer log.length.toNat '\x00' }
  else none

/-- `memcpy(*dst, log->buffer, size)`. -/
def copyOut (log : LogBuffer) (size : ℤ) : Option Text :=
  if 0 ≤ size ∧ size ≤ log.capacity then
    some ((List.range size.toNat).map log.buffer)
  else none

/-- `get_log` while nobody writes: `*dst` and its length. -/
def getLog (log : LogBuffer) : Option (Text × ℤ) := do
  let size ← int (log.length + 1)
  let dst ← copyOut log size
  some (dst, log.length)

end OsCoursework.Server
