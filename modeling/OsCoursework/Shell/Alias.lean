import OsCoursework.Shell.Command
import OsCoursework.Support.Delimiter

/-!
# Aliases

`AliasHelper` and the two commands that change its table.  The table is the vector
`addedAliasList`, a list of names with their commands.
-/

namespace OsCoursework.Shell

open OsCoursework.Delimiter OsCoursework.Words

/-! ## The table -/

abbrev AliasTable := List (Text × Text)

def reservedWords : List Text :=
  ["chprompt", "chprompt&", "showpid", "showpid&", "pwd", "pwd&", "cd",
    "jobs", "jobs&", "fg", "fg&", "quit", "quit&", "kill", "alias",
    "alias&", "unalias", "unsetenv", "sysinfo", "sysinfo&", "du", "whoami",
    "whoami&", "usbinfo", "usbinfo&", ">", "<", "|", "|&", ">>", "<<"].map
    String.toList

def addAliasName (t : AliasTable) (aliasName cmd : Text) : Bool × AliasTable :=
  if aliasName ∈ reservedWords then (false, t)
  else if t.any (·.1 = aliasName) then (false, t)
  else (true, t ++ [(aliasName, cmd)])

def removeAliasName : AliasTable → Text → Bool × AliasTable
  | [], _ => (false, [])
  | pair :: t, aliasName =>
      if pair.1 = aliasName then (true, t)
      else
        let (found, t) := removeAliasName t aliasName
        (found, pair :: t)

/-- The rest of a stream up to the end of the line. -/
def getline (str : Text) : Text :=
  str.takeWhile (· ≠ '\n')

/-- The command that the table has for a word. -/
def lookup (t : AliasTable) (name : Text) : Option Text :=
  (t.find? (·.1 = name)).map (·.2)

def convertAliasToOriginal (t : AliasTable) (cmdLine : Text) : Text :=
  match lookup t (word isSpace cmdLine) with
  | some cmd => cmd ++ getline (afterWord isSpace cmdLine)
  | none => cmdLine

/-! ## The commands -/

/-- Where a text goes. -/
inductive Output where
  | cout (text : Text)
  | cerr (text : Text)
  deriving DecidableEq

def quote : Char := '\x27'

/-- A character of the class `[a-zA-Z0-9_]`. -/
def isNameChar (c : Char) : Bool :=
  c.isAlphanum || c = '_'

/-- The checks of `AliasCommand::execute` on the text after the word `alias`, and the
name and the command they find. -/
def parseAlias (s : Text) : Option (Text × Text) :=
  if ¬ ['=', quote] <:+: s ∨ s ≠ [] ∧ s.getLast? ≠ some quote then none
  else
    match s.findIdx? (· = quote), lastIdx? (· = quote) s with
    | some firstQuote, some lastQuote =>
        if firstQuote = lastQuote then none
        else if firstQuote < 1 ∨ s[firstQuote - 1]? ≠ some '=' then none
        else
          let name := s.take (firstQuote - 1)
          let command := (s.drop (firstQuote + 1)).take (lastQuote - firstQuote - 1)
          if name ≠ [] ∧ name.all isNameChar then some (name, command) else none
    | _, _ => none

def printAllAliasNames (t : AliasTable) : List Output :=
  t.map fun pair => .cout (pair.1 ++ ['=', quote] ++ pair.2 ++ [quote])

def aliasExecute (cmd : CommandData) (t : AliasTable) : AliasTable × List Output :=
  match cmd.args[1]? with
  | none => (t, printAllAliasNames t)
  | some _ =>
      let remainingCmd := getline (afterWord isSpace cmd.cmdStr)
      match parseAlias (trim remainingCmd) with
      | none => (t, [.cerr "smash error: alias: invalid alias format".toList])
      | some (name, command) =>
          let (added, t) := addAliasName t name command
          if added then (t, [])
          else (t, [.cerr ("smash error: alias: ".toList ++ name ++
            " already exists or is a reserved command".toList)])

/-- The loop over the arguments, which ends at the first one that is no alias. -/
def unAliasLoop : List Text → AliasTable → AliasTable × List Output
  | [], t => (t, [])
  | arg :: args, t =>
      let (found, t) := removeAliasName t arg
      if found then unAliasLoop args t
      else (t, [.cerr ("smash error: unalias: ".toList ++ arg ++
        " alias does not exist".toList)])

def unAliasExecute (cmd : CommandData) (t : AliasTable) : AliasTable × List Output :=
  match cmd.args[1]? with
  | none => (t, [.cerr "smash error: unalias: not enough arguments".toList])
  | some _ => unAliasLoop (cmd.args.drop 1) t

/-! ## Tables that can be reached -/

/-- Names are words of the given class and commands have no line end. -/
structure WellFormed (t : AliasTable) : Prop where
  name_ne_nil : ∀ pair ∈ t, pair.1 ≠ []
  name_char : ∀ pair ∈ t, ∀ c ∈ pair.1, isNameChar c = true
  no_newline : ∀ pair ∈ t, '\n' ∉ pair.2

theorem WellFormed.sublist {t t' : AliasTable} (h : WellFormed t) (hsub : t'.Sublist t) :
    WellFormed t' where
  name_ne_nil := fun pair hp => h.name_ne_nil pair (hsub.subset hp)
  name_char := fun pair hp => h.name_char pair (hsub.subset hp)
  no_newline := fun pair hp => h.no_newline pair (hsub.subset hp)

theorem removeAliasName_sublist (t : AliasTable) (name : Text) :
    (removeAliasName t name).2.Sublist t := by
  induction t with
  | nil => exact List.Sublist.refl _
  | cons pair t ih =>
      rw [removeAliasName]
      split
      · exact List.sublist_cons_self pair t
      · exact ih.cons_cons pair

theorem unAliasLoop_sublist (args : List Text) (t : AliasTable) :
    (unAliasLoop args t).1.Sublist t := by
  induction args generalizing t with
  | nil => exact List.Sublist.refl _
  | cons arg args ih =>
      rw [unAliasLoop]
      dsimp only
      split
      · exact (ih _).trans (removeAliasName_sublist t arg)
      · exact removeAliasName_sublist t arg

theorem unAliasExecute_sublist (cmd : CommandData) (t : AliasTable) :
    (unAliasExecute cmd t).1.Sublist t := by
  rw [unAliasExecute]
  split
  · exact List.Sublist.refl _
  · exact unAliasLoop_sublist _ t

/-- What is accepted has a name of the class and takes its command from the text. -/
theorem parseAlias_spec {s name command : Text}
    (h : parseAlias s = some (name, command)) :
    name ≠ [] ∧ (∀ c ∈ name, isNameChar c = true) ∧ command.Sublist s := by
  unfold parseAlias at h
  split at h
  · cases h
  · split at h
    · split at h
      · cases h
      · split at h
        · cases h
        · simp only [Option.ite_none_right_eq_some, Option.some.injEq,
            Prod.mk.injEq] at h
          obtain ⟨⟨hne, hall⟩, rfl, rfl⟩ := h
          exact ⟨hne, List.all_eq_true.mp hall,
            (List.take_sublist _ _).trans (List.drop_sublist _ _)⟩
    · cases h

theorem WellFormed.add {t : AliasTable} (h : WellFormed t) {name cmd : Text}
    (hne : name ≠ []) (hchar : ∀ c ∈ name, isNameChar c = true) (hcmd : '\n' ∉ cmd) :
    WellFormed (addAliasName t name cmd).2 := by
  rw [addAliasName]
  split
  · exact h
  · split
    · exact h
    · constructor <;> intro pair hp <;> rw [List.mem_append, List.mem_singleton] at hp
      · rcases hp with hp | rfl
        · exact h.name_ne_nil pair hp
        · exact hne
      · rcases hp with hp | rfl
        · exact h.name_char pair hp
        · exact hchar
      · rcases hp with hp | rfl
        · exact h.no_newline pair hp
        · exact hcmd

theorem not_mem_getline (str : Text) : '\n' ∉ getline str := by
  intro h
  simpa using List.mem_takeWhile_imp h

theorem getline_eq {str : Text} (h : '\n' ∉ str) : getline str = str := by
  rw [getline, takeWhile_eq_self h]

theorem trim_sublist (s : Text) : (trim s).Sublist s := by
  rw [trim_eq, Words.trim]
  exact (List.rdropWhile_prefix _ _).sublist.trans (List.dropWhile_sublist _)

theorem WellFormed.aliasExecute {t : AliasTable} (h : WellFormed t)
    (cmd : CommandData) : WellFormed (aliasExecute cmd t).1 := by
  unfold Shell.aliasExecute
  split
  · exact h
  · dsimp only
    split
    · exact h
    · next name command hparse =>
      obtain ⟨hne, hchar, hsub⟩ := parseAlias_spec hparse
      have hcmd : '\n' ∉ command := fun hmem =>
        not_mem_getline _ ((hsub.trans (trim_sublist _)).subset hmem)
      have hadd := h.add hne hchar hcmd
      split <;> exact hadd

theorem isSpace_of_isNameChar {c : Char} (h : isNameChar c = true) :
    isSpace c = false := by
  by_contra hs
  rw [Bool.not_eq_false, isSpace] at hs
  simp only [Bool.or_eq_true, decide_eq_true_eq] at hs
  rcases hs with ((((rfl | rfl) | rfl) | rfl) | rfl) | rfl <;> exact absurd h (by decide)

theorem WellFormed.isWord {t : AliasTable} (h : WellFormed t) {pair : Text × Text}
    (hp : pair ∈ t) : IsWord isSpace pair.1 :=
  ⟨h.name_ne_nil pair hp, fun c hc => isSpace_of_isNameChar (h.name_char pair hp c hc)⟩

theorem exists_of_lookup {t : AliasTable} {name cmd : Text}
    (h : lookup t name = some cmd) : (name, cmd) ∈ t := by
  rw [lookup, Option.map_eq_some_iff] at h
  obtain ⟨pair, hfind, rfl⟩ := h
  have hname : pair.1 = name := by simpa using List.find?_some hfind
  rw [← hname]
  exact List.mem_of_find?_eq_some hfind

end OsCoursework.Shell
