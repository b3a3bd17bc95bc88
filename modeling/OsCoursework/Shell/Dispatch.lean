import OsCoursework.Shell.Alias

/-!
# Creating commands

`SmallShell::CreateCommand`: the class of the command is chosen by the line after
alias expansion, and the constructor gets that line or, for pipes and redirections,
the line as it was passed in.  Where the constructor is undefined, so is the command.
-/

namespace OsCoursework.Shell

open OsCoursework.Words

/-- The class of a command. -/
inductive Kind where
  | builtIn (b : BuiltIn)
  | pipe
  | redirection
  | external
  deriving DecidableEq

def firstWord (cmdS : Text) : Text :=
  cmdS.takeWhile fun c => c ≠ ' ' && c ≠ '\n'

/-- The comparisons of `CreateCommand` behind the two signs, in their order. -/
def builtInNames : List (String × BuiltIn) :=
  [("showpid", .showpid), ("showpid&", .showpid), ("pwd", .pwd), ("pwd&", .pwd),
    ("cd", .cd), ("jobs", .jobs), ("jobs&", .jobs), ("fg", .fg), ("fg&", .fg),
    ("quit", .quit), ("quit&", .quit), ("kill", .kill), ("unalias", .unalias),
    ("unsetenv", .unsetenv), ("sysinfo", .sysinfo), ("sysinfo&", .sysinfo),
    ("du", .du), ("whoami", .whoami), ("whoami&", .whoami), ("usbinfo", .usbinfo),
    ("usbinfo&", .usbinfo)]

def kindOf (cmdS : Text) : Kind :=
  let firstWord := firstWord cmdS
  if firstWord = "chprompt".toList ∨ firstWord = "chprompt&".toList then
    .builtIn .chprompt
  else if firstWord = "alias".toList ∨ firstWord = "alias&".toList then
    .builtIn .alias
  else if '|' ∈ cmdS then .pipe
  else if '>' ∈ cmdS ∨ ['>', '>'] <:+: cmdS then .redirection
  else
    match builtInNames.find? (firstWord = ·.1.toList) with
    | some (_, b) => .builtIn b
    | none => .external

/-- The class that `CreateCommand` chooses for a line. -/
def classify (t : AliasTable) (cmdLine : Text) : Kind :=
  kindOf (trim (convertAliasToOriginal t cmdLine))

/-- The line that `CreateCommand` hands to the constructor. -/
def constructorLine (t : AliasTable) (cmdLine : Text) : Text :=
  match classify t cmdLine with
  | .pipe => cmdLine
  | .redirection => cmdLine
  | _ => convertAliasToOriginal t cmdLine

def createCommand (t : AliasTable) (cmdLine unchangedCmdLine : Text) :
    Option Command :=
  let line := constructorLine t cmdLine
  match classify t cmdLine with
  | .builtIn b => (builtInCommand line).map (.builtIn b)
  | .pipe => (pipeCommand line).map .pipe
  | .redirection => (redirectionCommand line).map .redirection
  | .external => (newCommand line).map (.external · unchangedCmdLine)

/-- A built-in command is made of its line without the background sign. -/
theorem exists_of_createCommand_builtIn {t : AliasTable} {cmdLine u : Text} {b : BuiltIn}
    {cmd : CommandData} (h : createCommand t cmdLine u = some (.builtIn b cmd)) :
    ∃ stripped, removeBackgroundSignConstant (constructorLine t cmdLine) = some stripped ∧
      FewWords stripped ∧ command stripped = cmd := by
  unfold createCommand at h
  cases hkind : classify t cmdLine with
  | builtIn b' =>
      simp only [hkind, Option.map_eq_some_iff, Command.builtIn.injEq] at h
      obtain ⟨cmd', hcmd, rfl, rfl⟩ := h
      exact builtInCommand_eq_some_iff.mp hcmd
  | _ => simp [hkind] at h

/-- The tables that `alias` and `unalias` lines lead to. -/
inductive Reachable : AliasTable → Prop where
  | nil : Reachable []
  | add {t : AliasTable} {cmd : CommandData} (line : Text) (ht : Reachable t)
      (hcmd : createCommand t (convertAliasToOriginal t line) (trim line) =
        some (.builtIn .alias cmd)) : Reachable (aliasExecute cmd t).1
  | remove {t : AliasTable} {cmd : CommandData} (line : Text) (ht : Reachable t)
      (hcmd : createCommand t (convertAliasToOriginal t line) (trim line) =
        some (.builtIn .unalias cmd)) : Reachable (unAliasExecute cmd t).1

/-- An `alias` line that is its own expansion and has no background sign. -/
theorem Reachable.line {t t' : AliasTable} (ht : Reachable t) (line : Text)
    (hcmd : createCommand t (convertAliasToOriginal t line) (trim line) =
      some (.builtIn .alias (command line)))
    (ht' : (aliasExecute (command line) t).1 = t') : Reachable t' :=
  ht' ▸ .add line ht hcmd

theorem Reachable.wellFormed {t : AliasTable} (h : Reachable t) : WellFormed t := by
  induction h with
  | nil => constructor <;> intro pair hp <;> cases hp
  | add line ht hcmd ih => exact ih.aliasExecute _
  | remove line ht hcmd ih => exact ih.sublist (unAliasExecute_sublist _ _)

end OsCoursework.Shell
