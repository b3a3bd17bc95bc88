import OsCoursework.Shell.Files

/-!
# Executing commands

`SmallShell::executeCommand` and the commands it runs in the shell process.  The
branches of a child process are there too, up to the `exit` that ends it.  Pipes and
redirections run `executeCommand` again; the depth of this recursion is counted,
and it has no run when the depth is used up.
-/

namespace OsCoursework.Shell

open OsCoursework.Calls

/-! ## External commands -/

/-- `ExternalCommand::execute`, in a child. -/
def externalExecute (base : CommandData) : ShellM Unit := do
  let line ← ofOption (removeBackgroundSignConstant base.cmdStr)
  if '?' ∈ base.cmdStr ∨ '*' ∈ base.cmdStr then do
    sys (.execvp ["bash".toList, "-c".toList,
      "/bin/bash -c \"".toList ++ trim line ++ "\"".toList])
    sys (.perror "smash error: execlp failed")
    exit 1
  else do
    sys (.execvp (parseCommandLine (trim line)))
    sys (.perror "smash error: execvp failed")
    exit 1

/-- The child of an external command. -/
def externalChild (base : CommandData) : ShellM Unit := do
  sys .setpgrp
  externalExecute base
  exit 0

def runForeground (base : CommandData) : ShellM Unit := do
  let pid ← sys .fork
  if pid = 0 then externalChild base
  else if pid > 0 then do
    setForegroundPid pid
    let result ← sys (.waitpid pid false)
    setForegroundPid (-1)
    when (result.isError = true) (sys (.perror "smash error: waitpid failed"))
  else sys (.perror "smash error: fork failed")

def runBackground (base : CommandData) (cmdStr : Text) : ShellM Unit := do
  let pid ← sys .fork
  if pid = 0 then externalChild base
  else if pid > 0 then do
    sys (.note (.launched pid cmdStr))
    addJob cmdStr pid
  else sys (.perror "smash error: fork failed")

/-- For a blank line the constructor has read some byte outside of the string. -/
def isBackground (base : CommandData) : ShellM Bool :=
  match base.isBackgroundCmd with
  | some b => pure b
  | none => sys .undetermined

def runExternal (base : CommandData) (cmdStr : Text) : ShellM Unit := do
  if ← isBackground base then runBackground base cmdStr
  else runForeground base

/-! ## Redirections and pipes -/

def restoreStdout (ogStdout : ℕ) : ShellM Unit := do
  let ok ← sys (.dup2 ogStdout 1)
  sys (.note (.restored ok))
  when (ok = false) (sys (.perror "smash error: dup2 failed"))

def closeFiles (ogStdout newFileFD : ℕ) : ShellM Unit := do
  if ← sys (.close newFileFD) then do
    let closed ← sys (.close ogStdout)
    when (closed = false) (sys (.perror "smash error: close failed"))
  else sys (.perror "smash error: close failed")

def redirectionExecute (executeCommand : Text → ShellM Unit)
    (cmd : RedirectionCommand) : ShellM Unit := do
  match ← sys (.dup 1) with
  | none => sys (.perror "smash error: dup failed")
  | some ogStdout => do
      let mode := if cmd.overrideFlag then OpenMode.truncate else OpenMode.append
      match ← sys (.openFile cmd.outputFile mode) with
      | none => do
          sys (.perror "smash error: open failed")
          sys (.note (.failed .redirectionOpen))
      | some newFileFD => do
          if ← sys (.dup2 newFileFD 1) then do
            executeCommand cmd.cmdToRun
            restoreStdout ogStdout
            closeFiles ogStdout newFileFD
          else do
            sys (.perror "smash error: dup2 failed")
            let closed ← sys (.close newFileFD)
            when (closed = false) (sys (.perror "smash error: close failed"))
            sys (.note (.failed .redirectionDup2))

/-- A child of a pipe: one end becomes the descriptor `target`. -/
def pipeChild (executeCommand : Text → ShellM Unit) (unused used target : ℕ)
    (cmdLine : Text) : ShellM Unit := do
  let _ ← sys (.close unused)
  let _ ← sys (.dup2 used target)
  let _ ← sys (.close used)
  executeCommand cmdLine
  exit 0

def pipeExecute (executeCommand : Text → ShellM Unit) (cmd : PipeCommand) :
    ShellM Unit := do
  match ← sys .pipe with
  | none => sys (.perror "smash error: pipe failed")
  | some (readEnd, writeEnd) => do
      let pid1 ← sys .fork
      if pid1 < 0 then do
        sys (.perror "smash error: fork failed")
        sys (.note (.failed .pipeFork1))
      else if pid1 = 0 then
        pipeChild executeCommand readEnd writeEnd (if cmd.stderrPipe then 2 else 1)
          cmd.command1
      else do
        let pid2 ← sys .fork
        if pid2 < 0 then do
          sys (.perror "smash error: fork failed")
          sys (.note (.failed .pipeFork2))
        else if pid2 = 0 then
          pipeChild executeCommand writeEnd readEnd 0 cmd.command2
        else do
          let _ ← sys (.close readEnd)
          let _ ← sys (.close writeEnd)
          let _ ← sys (.waitpid pid1 false)
          let _ ← sys (.waitpid pid2 false)
          pure ()

/-! ## All commands -/

/-- A command that changes the table of aliases and prints. -/
def aliasTableExecute (f : AliasTable → AliasTable × List Output) : ShellM Unit := do
  let m ← sys .get
  sys (.put { m with aliases := (f m.aliases).1 })
  printAll (f m.aliases).2

/-- The built-in commands; `chprompt`, `showpid`, `pwd` and `cd` work on neither jobs
nor descriptors. -/
def builtInExecute (depth : ℕ) (b : BuiltIn) (cmd : CommandData) : ShellM Unit :=
  match b with
  | .alias => aliasTableExecute (aliasExecute cmd)
  | .unalias => aliasTableExecute (unAliasExecute cmd)
  | .jobs => printJobsList
  | .fg => foregroundExecute cmd
  | .quit => quitExecute cmd
  | .kill => killExecute cmd
  | .unsetenv => unSetEnvExecute cmd
  | .sysinfo => sysInfoExecute
  | .du => diskUsageExecute depth cmd
  | .whoami => whoAmIExecute
  | .usbinfo => usbInfoExecute
  | .chprompt => pure ()
  | .showpid => pure ()
  | .pwd => pure ()
  | .cd => pure ()

def runCommand (executeCommand : Text → ShellM Unit) (depth : ℕ) :
    Command → ShellM Unit
  | .builtIn b cmd => builtInExecute depth b cmd
  | .pipe cmd => pipeExecute executeCommand cmd
  | .redirection cmd => redirectionExecute executeCommand cmd
  | .external base unchangedStr => runExternal base unchangedStr

def executeCommand : ℕ → Text → ShellM Unit
  | 0, _ => undefined
  | depth + 1, cmdLine => do
      removeFinishedJobs
      let m ← sys .get
      let orgCmdLine := convertAliasToOriginal m.aliases cmdLine
      let cmd ← ofOption (createCommand m.aliases orgCmdLine (trim cmdLine))
      runCommand (executeCommand depth) depth cmd
      removeFinishedJobs

/-! ## Runs -/

section Runs

theorem Step.of_effect {s s' : World} {o : Sys} {x : o.Answer} (h : Effect s o x s') :
    Step s o x s' :=
  ⟨∅, Finset.empty_subset _, by rwa [Finset.union_empty]⟩

variable {α β : Type} {s : World} {Q : α → World → Prop}

theorem post_undefined : Post Step (undefined : ShellM α) s Q := by
  rintro _ _ ⟨_, _, ⟨_, _, hno⟩, _⟩
  exact hno.elim

theorem post_exit {status : ℤ} : Post Step (exit status : ShellM α) s Q := by
  rintro _ _ ⟨_, _, ⟨_, _, hno⟩, _⟩
  exact hno.elim

theorem post_ofOption {x : Option β} {f : β → ShellM α}
    (h : ∀ a, x = some a → Post Step (f a) s Q) : Post Step (ofOption x >>= f) s Q := by
  cases x with
  | none => exact Post.bind post_undefined
  | some a => exact h a rfl

theorem externalChild_post (base : CommandData) {Q : Unit → World → Prop} :
    Post Step (externalChild base) s Q :=
  Post.after fun _ _ => Post.after fun _ _ => post_exit

theorem pipeChild_post (run : Text → ShellM Unit) (unused used target : ℕ)
    (cmdLine : Text) {Q : Unit → World → Prop} :
    Post Step (pipeChild run unused used target cmdLine) s Q :=
  Post.after fun _ _ => Post.after fun _ _ => Post.after fun _ _ =>
    Post.after fun _ _ => post_exit

/-- After `quit` there is no shell. -/
theorem quitExecute_post (cmd : CommandData) {Q : Unit → World → Prop} :
    Post Step (quitExecute cmd) s Q :=
  Post.after fun _ _ => Post.after fun _ _ => Post.after fun _ _ => post_exit

end Runs

/-- A shell at its start. -/
def freshShell : World where
  memory := ⟨[], [], 0, 100, -1⟩
  children := ∅
  exited := ∅
  fds := fun fd => if fd < 3 then some fd else none
  history := []

/-! ## Kinds of calls -/

section Makes

variable {α : Type} {C : Sys → Prop}

theorem makes_sys {o : Sys} (ho : C o) : (sys o).Makes C :=
  Prog.Makes.perform ho

theorem makes_undefined (h : C .undefined) :
    (undefined : ShellM α).Makes C :=
  ⟨h, nofun⟩

theorem makes_ite {c : Prop} [Decidable c] {p q : ShellM α} (hp : p.Makes C)
    (hq : q.Makes C) : (if c then p else q).Makes C := by
  by_cases h : c
  · rwa [if_pos h]
  · rwa [if_neg h]

theorem makes_when {c : Prop} [Decidable c] {p : ShellM Unit} (hp : p.Makes C) :
    (when c p).Makes C :=
  makes_ite hp Prog.Makes.pure

theorem makes_ofOption (x : Option α) (h : C .undefined) :
    (ofOption x).Makes C := by
  cases x with
  | none => exact makes_undefined h
  | some a => exact Prog.Makes.pure

theorem makes_printAll (hprint : ∀ o, C (.print o)) (os : List Output) :
    (printAll os).Makes C := by
  induction os with
  | nil => exact Prog.Makes.pure
  | cons o os ih => exact Prog.Makes.bind (makes_sys (hprint o)) fun _ => ih

end Makes

end OsCoursework.Shell
