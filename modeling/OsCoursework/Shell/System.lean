import Mathlib.Data.Finset.Basic
import Mathlib.Data.Finset.Lattice.Lemmas
import Mathlib.Data.Int.Notation
import OsCoursework.Shell.Dispatch
import OsCoursework.Support.Calls

/-!
# The system under the shell

The calls that the shell makes, as the shell process sees them: its memory, its
children and its descriptors.  Children terminate between any two calls.  Calls may
fail as they like, except that `close` succeeds on an open descriptor, that `wait`
fails only for no child or for a signal, and that a new process has the number of
no child that has not been waited for.
-/

namespace OsCoursework.Shell

open OsCoursework.Calls

/-! ## The shell -/

structure JobEntry where
  jobId : ℤ
  pid : ℤ
  cmdStr : Text
  deriving DecidableEq

/-- The members of `SmallShell` that the functions below use, with the two objects it
points to. -/
structure Memory where
  aliases : AliasTable
  jobList : List JobEntry
  maxJobId : ℤ
  smashPid : ℤ
  fgPid : ℤ

/-- The calls whose failure is recorded. -/
inductive Failure where
  | redirectionOpen
  | redirectionDup2
  | pipeFork1
  | pipeFork2
  | unsetenvRead
  deriving DecidableEq

/-- What happened to the jobs, which calls failed, and whether standard output was
restored. -/
inductive Event where
  | launched (pid : ℤ) (cmdStr : Text)
  | added (job : JobEntry) (others : List JobEntry)
  | terminated (pid : ℤ)
  | foregrounded (pid : ℤ)
  | failed (call : Failure)
  | restored (ok : Bool)
  deriving DecidableEq

/-! ## Calls -/

inductive ExitStatus where
  | exited
  | signaled
  deriving DecidableEq

inductive Errno where
  | ECHILD
  | EINTR
  deriving DecidableEq

/-- The result of `waitpid`: 0, the process, or -1. -/
inductive WaitResult where
  | running
  | reaped (status : ExitStatus)
  | error (errno : Errno)
  deriving DecidableEq

def WaitResult.isError : WaitResult → Bool
  | .error _ => true
  | _ => false

inductive OpenMode where
  | readOnly
  | truncate
  | append
  deriving DecidableEq

/-- The fields of `struct stat` that are read. -/
structure Stat where
  isDir : Bool
  blocks : ℕ

/-- The calls of the shell.  `note` records an event, `undetermined` stands for a
result that is not followed here, and `undefined` for undefined behaviour, for an
exception and for a recursion without end. -/
inductive Sys where
  | get
  | put (m : Memory)
  | note (e : Event)
  | print (o : Output)
  | perror (text : String)
  | undetermined
  | undefined
  | exit (status : ℤ)
  | getpid
  | fork
  | setpgrp
  | execvp (args : List Text)
  | waitpid (pid : ℤ) (nohang : Bool)
  | kill (pid sig : ℤ)
  | dup (fd : ℕ)
  | openFile (path : Text) (mode : OpenMode)
  | dup2 (oldFd newFd : ℕ)
  | pipe
  | close (fd : ℕ)
  | read (fd : ℕ)
  | getdents (fd : ℕ)
  | lstat (path : Text)

/-- The answers; `none` is -1, as is `false` for the calls that give no value. -/
@[reducible] def Sys.Answer : Sys → Type
  | .get => Memory
  | .undetermined => Bool
  | .undefined => Empty
  | .exit _ => Empty
  | .getpid => ℤ
  | .fork => ℤ
  | .waitpid _ _ => WaitResult
  | .kill _ _ => Bool
  | .dup _ => Option ℕ
  | .openFile _ _ => Option ℕ
  | .dup2 _ _ => Bool
  | .pipe => Option (ℕ × ℕ)
  | .close _ => Bool
  | .read _ => Option Text
  | .getdents _ => Option (List Text)
  | .lstat _ => Option Stat
  | _ => Unit

abbrev ShellM := Prog Sys Sys.Answer

/-- The shell process and what the system keeps for it: the children it has not
waited for, those of them that have ended, and the open descriptors with the files
they refer to. -/
structure World where
  memory : Memory
  children : Finset ℤ
  exited : Finset ℤ
  fds : ℕ → Option ℕ
  history : List Event

def World.setFd (s : World) (fd : ℕ) (file : Option ℕ) : World :=
  { s with fds := Function.update s.fds fd file }

/-- A child that has ended is waited for. -/
def World.reap (s : World) (pid : ℤ) : World :=
  { s with
    children := s.children.erase pid
    exited := s.exited.erase pid
    history := s.history ++ [.terminated pid] }

/-- What `waitpid` does. -/
def waitEffect (s : World) (pid : ℤ) (nohang : Bool) : WaitResult → World → Prop
  | .running, s' => nohang = true ∧ pid ∈ s.children ∧ pid ∉ s.exited ∧ s' = s
  | .reaped _, s' => pid ∈ s.children ∧ pid ∈ s.exited ∧ s' = s.reap pid
  | .error .ECHILD, s' => pid ∉ s.children ∧ s' = s
  | .error .EINTR, s' => nohang = false ∧ s' = s

/-- What a call does in the shell process. -/
def Effect (s : World) : (o : Sys) → o.Answer → World → Prop
  | .get => fun m s' => m = s.memory ∧ s' = s
  | .put m => fun _ s' => s' = { s with memory := m }
  | .note e => fun _ s' => s' = { s with history := s.history ++ [e] }
  | .getpid => fun pid s' => pid = s.memory.smashPid ∧ s' = s
  | .fork => fun pid s' => pid = -1 ∧ s' = s ∨
      0 < pid ∧ pid ∉ s.children ∧ s' = { s with children := insert pid s.children }
  | .waitpid pid nohang => waitEffect s pid nohang
  | .dup fd => fun d s' => d = none ∧ s' = s ∨
      ∃ d' file, d = some d' ∧ s.fds d' = none ∧ s.fds fd = some file ∧
        s' = s.setFd d' (some file)
  | .openFile _ _ => fun d s' => d = none ∧ s' = s ∨
      ∃ d' file, d = some d' ∧ s.fds d' = none ∧ s' = s.setFd d' (some file)
  | .dup2 oldFd newFd => fun ok s' => ok = false ∧ s' = s ∨
      ∃ file, ok = true ∧ s.fds oldFd = some file ∧ s' = s.setFd newFd (some file)
  | .pipe => fun ends s' => ends = none ∧ s' = s ∨
      ∃ d e f g, ends = some (d, e) ∧ d ≠ e ∧ s.fds d = none ∧ s.fds e = none ∧
        s' = (s.setFd d (some f)).setFd e (some g)
  | .close fd => fun ok s' => ok = true ∧ s.fds fd ≠ none ∧ s' = s.setFd fd none ∨
      ok = false ∧ s.fds fd = none ∧ s' = s
  | .exit _ => fun _ _ => False
  | .undefined => fun _ _ => False
  | .print _ => fun _ s' => s' = s
  | .perror _ => fun _ s' => s' = s
  | .undetermined => fun _ s' => s' = s
  | .setpgrp => fun _ s' => s' = s
  | .execvp _ => fun _ s' => s' = s
  | .kill _ _ => fun _ s' => s' = s
  | .read _ => fun _ s' => s' = s
  | .getdents _ => fun _ s' => s' = s
  | .lstat _ => fun _ s' => s' = s

/-- A call, after some children may have ended. -/
def Step (s : World) (o : Sys) (answer : o.Answer) (s' : World) : Prop :=
  ∃ ended ⊆ s.children,
    Effect { s with exited := s.exited ∪ ended } o answer s'

end OsCoursework.Shell
