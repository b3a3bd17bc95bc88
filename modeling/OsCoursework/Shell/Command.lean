import OsCoursework.Shell.Text

/-!
# Command objects

The constructors of `Commands.cpp` that work on their line.  The members of
`Command` are the record `CommandData`; a built-in command takes the background
sign off its line before it becomes a `Command`.  The constructor parses its line
into an array of fixed size without a look at the size, so it is undefined for a line
of too many words.
-/

namespace OsCoursework.Shell

open OsCoursework.Words

def commandMaxArgs : ℕ := 20

/-- There is room in the array for the words of a line and the null pointer. -/
def FewWords (cmdLine : Text) : Prop :=
  (parseCommandLine cmdLine).length < commandMaxArgs

instance (cmdLine : Text) : Decidable (FewWords cmdLine) :=
  inferInstanceAs (Decidable (_ < _))

/-- `isBackgroundCmd` is undefined for a blank line, where the constructor reads
outside of the string. -/
structure CommandData where
  cmdStr : Text
  args : List Text
  isBackgroundCmd : Option Bool
  deriving DecidableEq

def command (cmdLine : Text) : CommandData where
  cmdStr := cmdLine
  args := parseCommandLine cmdLine
  isBackgroundCmd := isBackgroundComamnd cmdLine

/-- The constructor of `Command`. -/
def newCommand (cmdLine : Text) : Option CommandData :=
  if FewWords cmdLine then some (command cmdLine) else none

def builtInCommand (cmdLine : Text) : Option CommandData :=
  (removeBackgroundSignConstant cmdLine).bind newCommand

theorem newCommand_of_few {cmdLine : Text} (h : FewWords cmdLine) :
    newCommand cmdLine = some (command cmdLine) :=
  if_pos h

theorem newCommand_eq_some_iff {cmdLine : Text} {cmd : CommandData} :
    newCommand cmdLine = some cmd ↔ FewWords cmdLine ∧ command cmdLine = cmd := by
  rw [newCommand, Option.ite_none_right_eq_some, Option.some.injEq]

theorem builtInCommand_eq_some_iff {cmdLine : Text} {cmd : CommandData} :
    builtInCommand cmdLine = some cmd ↔
      ∃ stripped, removeBackgroundSignConstant cmdLine = some stripped ∧
        FewWords stripped ∧ command stripped = cmd := by
  simp only [builtInCommand, Option.bind_eq_some_iff, newCommand_eq_some_iff]

/-- The position `pos + k`; `npos + k` wraps to `k - 1`. -/
def after (pos : Option ℕ) (k : ℕ) : ℕ :=
  match pos with
  | none => k - 1
  | some p => p + k

/-- The text `cmd.substr(0, pos)`. -/
def before (cmd : Text) (pos : Option ℕ) : Text :=
  match pos with
  | none => cmd
  | some p => cmd.take p

structure RedirectionCommand where
  base : CommandData
  cmdToRun : Text
  outputFile : Text
  overrideFlag : Bool
  deriving DecidableEq

def redirectionCommand (cmdLine : Text) : Option RedirectionCommand := do
  let base ← builtInCommand cmdLine
  let cmd := base.cmdStr
  let signPos := cmd.findIdx? (· = '>')
  let cmdToRun := trim (before cmd signPos)
  if charAt cmd (after signPos 1) = some '>' then
    some ⟨base, cmdToRun, trim (cmd.drop (after signPos 2)), false⟩
  else
    some ⟨base, cmdToRun, trim (cmd.drop (after signPos 1)), true⟩

structure PipeCommand where
  base : CommandData
  command1 : Text
  command2 : Text
  stderrPipe : Bool
  deriving DecidableEq

def pipeCommand (cmdLine : Text) : Option PipeCommand := do
  let base ← builtInCommand cmdLine
  let cmd := base.cmdStr
  let pipePos := cmd.findIdx? (· = '|')
  let stderrPipe := decide (charAt cmd (after pipePos 1) = some '&')
  let command1 := trim (before cmd pipePos)
  let command2 := if stderrPipe then trim (cmd.drop (after pipePos 2))
    else trim (cmd.drop (after pipePos 1))
  some ⟨base, command1, command2, stderrPipe⟩

inductive BuiltIn where
  | chprompt
  | alias
  | showpid
  | pwd
  | cd
  | jobs
  | fg
  | quit
  | kill
  | unalias
  | unsetenv
  | sysinfo
  | du
  | whoami
  | usbinfo
  deriving DecidableEq

inductive Command where
  | builtIn (b : BuiltIn) (base : CommandData)
  | pipe (cmd : PipeCommand)
  | redirection (cmd : RedirectionCommand)
  | external (base : CommandData) (unchangedStr : Text)
  deriving DecidableEq

end OsCoursework.Shell
