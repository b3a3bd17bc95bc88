import OsCoursework.Shell.System

/-!
# Jobs

`JobsList` and the commands that work on it.  The job list is the vector `jobList`;
a job is observed to have ended when `waitpid` answers with its process.
-/

namespace OsCoursework.Shell

open OsCoursework.Calls

/-! ## Helpers -/

/-- One call. -/
def sys (o : Sys) : ShellM o.Answer :=
  Prog.perform o

def undefined {α : Type} : ShellM α :=
  .call .undefined nofun

def exit {α : Type} (status : ℤ) : ShellM α :=
  .call (.exit status) nofun

def ofOption {α : Type} : Option α → ShellM α
  | some a => pure a
  | none => undefined

def when (c : Prop) [Decidable c] (p : ShellM Unit) : ShellM Unit :=
  if c then p else pure ()

def printAll : List Output → ShellM Unit
  | [] => pure ()
  | o :: os => do
      sys (.print o)
      printAll os

def cout (text : Text) : ShellM Unit :=
  sys (.print (.cout text))

def cerr (text : Text) : ShellM Unit :=
  sys (.print (.cerr text))

def decimal (z : ℤ) : Text :=
  (toString z).toList

/-! ## Jobs -/

def isJobFinished (job : JobEntry) : ShellM Bool := do
  match ← sys (.waitpid job.pid true) with
  | .running => pure false
  | .error errno =>
      if errno = .ECHILD then pure false
      else do
        sys (.perror "smash error: waitpid failed")
        pure true
  | .reaped status => pure (status = .signaled || status = .exited)

/-- The loop of `removeFinishedJobs`: the jobs that stay. -/
def reapLoop : List JobEntry → ShellM (List JobEntry)
  | [] => pure []
  | job :: jobs => do
      let finished ← isJobFinished job
      let kept ← reapLoop jobs
      pure (if finished then kept else job :: kept)

/-- `std::sort` by job id. -/
def sortJobs (jobs : List JobEntry) : List JobEntry :=
  jobs.mergeSort fun a b => a.jobId ≤ b.jobId

/-- The id of the last job, or 0. -/
def backId (jobs : List JobEntry) : ℤ :=
  match jobs.getLast? with
  | some job => job.jobId
  | none => 0

def removeFinishedJobs : ShellM Unit := do
  let m ← sys .get
  let pid ← sys .getpid
  if pid ≠ m.smashPid then pure ()
  else do
    let jobs ← reapLoop m.jobList
    sys (.put { m with
      jobList := sortJobs jobs
      maxJobId := backId (sortJobs jobs) })

def intMax : ℤ := 2 ^ 31 - 1

def addJob (cmdStr : Text) (pid : ℤ) : ShellM Unit := do
  removeFinishedJobs
  let m ← sys .get
  if m.maxJobId + 1 > intMax then undefined
  else do
    let job : JobEntry := ⟨m.maxJobId + 1, pid, cmdStr⟩
    sys (.note (.added job m.jobList))
    sys (.put { m with
      jobList := m.jobList ++ [job]
      maxJobId := m.maxJobId + 1 })

def getJobById (jobs : List JobEntry) (jobId : ℤ) : Option JobEntry :=
  jobs.find? (·.jobId = jobId)

def removeJobById (id : ℤ) : ShellM Unit := do
  let m ← sys .get
  let jobs := sortJobs (m.jobList.filter (·.jobId ≠ id))
  sys (.put { m with jobList := jobs, maxJobId := backId jobs })

def setForegroundPid (pid : ℤ) : ShellM Unit := do
  let m ← sys .get
  sys (.put { m with fgPid := pid })

def jobLine (job : JobEntry) : Output :=
  .cout ("[".toList ++ decimal job.jobId ++ "] ".toList ++ job.cmdStr)

def printJobsList : ShellM Unit := do
  removeFinishedJobs
  let m ← sys .get
  printAll (m.jobList.map jobLine)

/-! ## Numbers -/

def isNum (str : Text) : Bool :=
  str.all Char.isDigit

/-- `std::stoi`; undefined where it throws. -/
def stoi (str : Text) : Option ℤ :=
  let (sign, digits) : ℤ × Text :=
    match str with
    | '-' :: rest => (-1, rest)
    | '+' :: rest => (1, rest)
    | _ => (1, str)
  let digits := digits.takeWhile Char.isDigit
  let value := sign * Nat.ofDigitChars 10 digits 0
  if digits = [] ∨ value < -2 ^ 31 ∨ value > intMax then none else some value

/-- `none` inside is a rejection, outside an exception. -/
def isNumber (arg : Text) : Option (Option ℤ) :=
  let digits :=
    match arg with
    | '-' :: rest => rest
    | _ => arg
  if digits.all Char.isDigit then (stoi arg).map some else some none

/-! ## Job commands -/

/-- `ForegroundCommand::execute` from where the job is known. -/
def bringToForeground (job : JobEntry) : ShellM Unit := do
  sys (.note (.foregrounded job.pid))
  setForegroundPid job.pid
  cout (job.cmdStr ++ " ".toList ++ decimal job.pid)
  -- The status goes through a pointer that was never set; this store is left out.
  let result ← sys (.waitpid job.pid false)
  when (result.isError = true) (sys (.perror "smash error: waitpid failed"))
  setForegroundPid (-1)
  removeJobById job.jobId

def foregroundExecute (cmd : CommandData) : ShellM Unit := do
  let m ← sys .get
  match cmd.args[1]? with
  | none =>
      match m.jobList.getLast? with
      | none => cerr "smash error: fg: jobs list is empty".toList
      | some job => bringToForeground job
  | some arg =>
      if cmd.args[2]? ≠ none ∨ isNum arg = false then
        cerr "smash error: fg: invalid arguments".toList
      else do
        let jobId ← ofOption (stoi arg)
        match getJobById m.jobList jobId with
        | none => cerr ("smash error: fg: job-id ".toList ++ arg ++
            " does not exist".toList)
        | some job => bringToForeground job

/-- The two numbers of `kill`, which are read one after the other. -/
def killNumbers (arg1 arg2 : Text) : Option (Option (ℤ × ℤ)) := do
  match ← isNumber (arg1.drop 1) with
  | none => some none
  | some sigNum =>
      match ← isNumber arg2 with
      | none => some none
      | some jobId => some (some (sigNum, jobId))

def killExecute (cmd : CommandData) : ShellM Unit := do
  let m ← sys .get
  let invalid := cerr "smash error: kill: invalid arguments".toList
  match cmd.args[1]?, cmd.args[2]? with
  | some arg1, some arg2 =>
      if cmd.args[3]? ≠ none ∨ arg1.head? ≠ some '-' ∨ arg1 = ['-'] then invalid
      else do
        let numbers ← ofOption (killNumbers arg1 arg2)
        match numbers with
        | none => invalid
        | some (sigNum, jobId) =>
            match getJobById m.jobList jobId with
            | none => cerr ("smash error: kill: job-id ".toList ++ decimal jobId ++
                " does not exist".toList)
            | some job => do
                let sent ← sys (.kill job.pid sigNum)
                cout ("signal number ".toList ++ decimal sigNum ++
                  " was sent to pid ".toList ++ decimal job.pid)
                when (sent = false) (sys (.perror "smash error: kill failed"))
  | _, _ => invalid

def killAll : List JobEntry → ShellM Unit
  | [] => pure ()
  | job :: jobs => do
      let sent ← sys (.kill job.pid 9)
      when (sent = false) (sys (.perror "smash error: kill failed"))
      killAll jobs

/-- The part of `quit kill` before the list is cleared. -/
def quitKill : ShellM Unit := do
  removeFinishedJobs
  let m ← sys .get
  cout ("smash: sending SIGKILL signal to ".toList ++ decimal m.jobList.length ++
    " jobs:".toList)
  printAll (m.jobList.map fun job =>
    .cout (decimal job.pid ++ ": ".toList ++ job.cmdStr))
  killAll m.jobList

def quitExecute (cmd : CommandData) : ShellM Unit := do
  when (cmd.args[1]? = some "kill".toList) quitKill
  let m ← sys .get
  sys (.put { m with jobList := [], maxJobId := 0 })
  exit 0

end OsCoursework.Shell
