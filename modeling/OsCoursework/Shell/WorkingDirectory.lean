import Mathlib.Logic.Relation
import OsCoursework.Shell.Command
import OsCoursework.Support.Calls

/-!
# Changing the working directory

`ChangeDirCommand::execute` saves the working directory before it changes it, through
a buffer of `COMMAND_MAX_LENGTH` bytes, and does not look at what `getcwd` returns.
The directory that is saved is the previous one as long as the name fits.

The kernel counts the changes of the directory and remembers the last directory that
was left; the shell does not see this.
-/

namespace OsCoursework.Shell

open OsCoursework.Calls

def commandMaxLength : ℕ := 200

/-! ## Calls -/

/-- The calls of `ChangeDirCommand::execute`.  `strayPointer` reads an element of
`args` that the parser has not written, and tells whether it is no null pointer. -/
inductive DirCall where
  | strayPointer
  | getcwd (size : ℕ)
  | chdir (path : Text)
  | getLastPwd
  | setLastPwd (path : Text)
  | cerr (text : String)
  | perror (text : String)

@[reducible] def DirCall.Answer : DirCall → Type
  | .strayPointer => Bool
  | .getcwd _ => Text
  | .chdir _ => Bool
  | .getLastPwd => Text
  | _ => Unit

abbrev DirM := Prog DirCall DirCall.Answer

/-- The member `lastPwd`, the working directory, and what the kernel remembers. -/
structure Directories where
  lastPwd : Text
  cwd : Text
  previous : Text
  changes : ℕ

/-- A successful `chdir`. -/
def Directories.enter (s : Directories) (dir : Text) : Directories :=
  { s with cwd := dir, previous := s.cwd, changes := s.changes + 1 }

def Directories.save (s : Directories) (path : Text) : Directories :=
  { s with lastPwd := path }

/-- What a call does.  `names` are the names that `getcwd` has for directories; such
a name leads to its directory.  Without room, `getcwd` leaves the buffer as it was. -/
def DirStep (names : Text → Prop) (s : Directories) :
    (o : DirCall) → o.Answer → Directories → Prop
  | .strayPointer => fun _ s' => s' = s
  | .getcwd size => fun buffer s' => (s.cwd.length < size → buffer = s.cwd) ∧ s' = s
  | .chdir path => fun ok s' => ok = false ∧ s' = s ∨
      ∃ dir, ok = true ∧ names dir ∧ (names path → dir = path) ∧ s' = s.enter dir
  | .getLastPwd => fun path s' => path = s.lastPwd ∧ s' = s
  | .setLastPwd path => fun _ s' => s' = s.save path
  | .cerr _ => fun _ s' => s' = s
  | .perror _ => fun _ s' => s' = s

/-! ## The command -/

/-- One call. -/
def dirCall (o : DirCall) : DirM o.Answer :=
  Prog.perform o

/-- Whether `args[2]` is no null pointer. -/
def hasSecondArgument (cmd : CommandData) : DirM Bool :=
  if cmd.args.length < 2 then dirCall .strayPointer
  else pure (cmd.args[2]?.isSome)

/-- Both branches of `ChangeDirCommand::execute` that change the directory. -/
def changeTo (path currWorkDir : Text) : DirM Unit := do
  if ← dirCall (.chdir path) then dirCall (.setLastPwd currWorkDir)
  else dirCall (.perror "smash error: chdir failed")

def changeDirExecute (cmd : CommandData) : DirM Unit := do
  if ← hasSecondArgument cmd then dirCall (.cerr "smash error: cd: too many arguments")
  else do
    let currWorkDir ← dirCall (.getcwd commandMaxLength)
    match cmd.args[1]? with
    | none => pure ()
    | some arg =>
        if arg = "-".toList then do
          let lastPwd ← dirCall .getLastPwd
          if lastPwd = [] then dirCall (.cerr "smash error: cd: OLDPWD not set")
          else changeTo lastPwd currWorkDir
        else changeTo arg currWorkDir

variable {names : Text → Prop} {s s' : Directories} {cmd : CommandData}

/-! ## One command -/

/-- What `changeTo` does from a state where `getcwd` was called. -/
theorem changeTo_post (path currWorkDir : Text) :
    Post (DirStep names) (changeTo path currWorkDir) s fun _ s' => s' = s ∨
      ∃ dir, names dir ∧ (names path → dir = path) ∧
        s' = (s.enter dir).save currWorkDir := by
  apply Post.call
  rintro ok s₁ (⟨rfl, rfl⟩ | ⟨target, rfl, htarget, hsame, rfl⟩)
  · apply Post.perform
    rintro _ _ rfl
    exact Or.inl rfl
  · apply Post.perform
    rintro _ _ rfl
    exact Or.inr ⟨target, htarget, hsame, rfl⟩

/-- The path that a command passes to `chdir`. -/
def targetPath (cmd : CommandData) (lastPwd : Text) : Text :=
  if cmd.args[1]? = some "-".toList then lastPwd else cmd.args[1]?.getD []

/-- The command is `cd -`. -/
def IsDash (cmd : CommandData) : Prop :=
  cmd.args[1]? = some "-".toList

/-- A command enters `dir` and finds `buffer` in its buffer. -/
structure Enters (names : Text → Prop) (cmd : CommandData) (s : Directories)
    (dir buffer : Text) : Prop where
  argument : cmd.args[1]? ≠ none
  dash : IsDash cmd → s.lastPwd ≠ []
  name : names dir
  target : names (targetPath cmd s.lastPwd) → dir = targetPath cmd s.lastPwd
  fits : s.cwd.length < commandMaxLength → buffer = s.cwd

/-- A command goes to its target with what `getcwd` left in the buffer. -/
theorem changeTo_enters {path buffer : Text} (hsome : cmd.args[1]? ≠ none)
    (hdash : IsDash cmd → s.lastPwd ≠ []) (htarget : targetPath cmd s.lastPwd = path)
    (hbuffer : s.cwd.length < commandMaxLength → buffer = s.cwd) :
    Post (DirStep names) (changeTo path buffer) s fun _ s' => s' = s ∨
      ∃ dir buffer, Enters names cmd s dir buffer ∧ s' = (s.enter dir).save buffer := by
  refine (changeTo_post path buffer).mono ?_
  rintro _ s' (rfl | ⟨dir, hname, hsame, rfl⟩)
  · exact Or.inl rfl
  · refine Or.inr ⟨dir, buffer, ⟨hsome, hdash, hname, ?_, hbuffer⟩, rfl⟩
    rw [htarget]
    exact hsame

theorem hasSecondArgument_post (cmd : CommandData) :
    Post (DirStep names) (hasSecondArgument cmd) s fun _ s' => s' = s := by
  rw [hasSecondArgument]
  split
  · apply Post.perform
    rintro _ _ rfl
    rfl
  · exact Post.pure rfl

/-- A command leaves everything as it is, or it enters one directory and saves what
`getcwd` left in the buffer. -/
theorem changeDirExecute_post (cmd : CommandData) :
    Post (DirStep names) (changeDirExecute cmd) s fun _ s' => s' = s ∨
      ∃ dir buffer, Enters names cmd s dir buffer ∧ s' = (s.enter dir).save buffer := by
  refine Post.seq (hasSecondArgument_post cmd) ?_
  rintro many s₁ rfl
  split
  · apply Post.perform
    rintro _ _ rfl
    exact Or.inl rfl
  apply Post.call
  rintro buffer s₂ ⟨hbuffer, rfl⟩
  cases harg : cmd.args[1]? with
  | none => exact Post.pure (Or.inl rfl)
  | some arg =>
      have hsome : cmd.args[1]? ≠ none := by
        rw [harg]
        exact Option.some_ne_none arg
      dsimp only
      split
      · next hdash =>
        apply Post.call
        rintro lastPwd s₃ ⟨rfl, rfl⟩
        split
        · apply Post.perform
          rintro _ _ rfl
          exact Or.inl rfl
        · next hset =>
          apply changeTo_enters hsome (fun _ => hset) ?_ hbuffer
          rw [targetPath, harg, hdash, if_pos rfl]
      · next hdash =>
        have hno : ¬ IsDash cmd := by
          rw [IsDash, harg]
          exact fun heq => hdash (Option.some.inj heq)
        apply changeTo_enters hsome (fun h => absurd h hno) ?_ hbuffer
        rw [targetPath, harg, if_neg fun heq => hdash (Option.some.inj heq)]
        rfl

/-- A run of one command. -/
def CdStep (names : Text → Prop) (cmd : CommandData) (s s' : Directories) : Prop :=
  Runs (DirStep names) (changeDirExecute cmd) s () s'

/-- What one command can do. -/
theorem CdStep.cases (h : CdStep names cmd s s') : s' = s ∨
    ∃ dir buffer, Enters names cmd s dir buffer ∧ s' = (s.enter dir).save buffer :=
  changeDirExecute_post cmd () s' h

/-- A command that enters no directory leaves both directories as they are. -/
theorem CdStep.unchanged (h : CdStep names cmd s s') (hsame : s'.changes = s.changes) :
    s'.cwd = s.cwd ∧ s'.lastPwd = s.lastPwd := by
  rcases h.cases with rfl | ⟨dir, buffer, -, rfl⟩
  · exact ⟨rfl, rfl⟩
  · exact absurd hsame (Nat.succ_ne_self s.changes)

/-- Without an argument no directory is entered. -/
theorem CdStep.no_argument (h : CdStep names cmd s s') (hnone : cmd.args[1]? = none) :
    s'.cwd = s.cwd ∧ s'.lastPwd = s.lastPwd := by
  rcases h.cases with rfl | ⟨dir, buffer, henters, -⟩
  · exact ⟨rfl, rfl⟩
  · exact absurd hnone henters.argument

/-! ## Runs -/

/-- A step whose change of directory, if there is one, starts where the name of the
working directory fits into the buffer. -/
def FittingStep (names : Text → Prop) (cmd : CommandData) (s s' : Directories) : Prop :=
  CdStep names cmd s s' ∧ (s'.changes ≠ s.changes → s.cwd.length < commandMaxLength)

/-- The shell at its start. -/
def Directories.fresh (cwd : Text) : Directories :=
  ⟨[], cwd, [], 0⟩

/-- The states that commands reach from the start by fitting steps. -/
def Reached (names : Text → Prop) (start : Text) (s : Directories) : Prop :=
  Relation.ReflTransGen (fun s s' => ∃ cmd, FittingStep names cmd s s')
    (Directories.fresh start) s

/-- What the shell remembers is what the kernel remembers, and directories have the
names that `getcwd` gives. -/
structure Remembers (names : Text → Prop) (s : Directories) : Prop where
  lastPwd_eq : s.lastPwd = s.previous
  cwd_name : names s.cwd
  previous_name : s.lastPwd ≠ [] → names s.lastPwd

theorem Remembers.step (h : Remembers names s) (hstep : FittingStep names cmd s s') :
    Remembers names s' := by
  obtain ⟨hcd, hfits⟩ := hstep
  rcases hcd.cases with rfl | ⟨dir, buffer, henters, rfl⟩
  · exact h
  · have hbuffer := henters.fits (hfits (Nat.succ_ne_self s.changes))
    subst hbuffer
    exact ⟨rfl, henters.name, fun _ => h.cwd_name⟩

theorem Remembers.of_reached {start : Text} (hstart : names start)
    (h : Reached names start s) : Remembers names s := by
  induction h with
  | refl => exact ⟨rfl, hstart, fun hne => absurd rfl hne⟩
  | tail _ hstep ih =>
      obtain ⟨cmd, hstep⟩ := hstep
      exact ih.step hstep

/-- A successful `cd -` exchanges the two directories. -/
theorem Remembers.dash (h : Remembers names s) (hdash : IsDash cmd)
    (hstep : FittingStep names cmd s s') (hchange : s'.changes ≠ s.changes) :
    s'.cwd = s.lastPwd ∧ s'.lastPwd = s.cwd := by
  obtain ⟨hcd, hfits⟩ := hstep
  rcases hcd.cases with rfl | ⟨dir, buffer, henters, rfl⟩
  · exact absurd rfl hchange
  · have htarget : targetPath cmd s.lastPwd = s.lastPwd := if_pos hdash
    have hdir := henters.target
    rw [htarget] at hdir
    exact ⟨hdir (h.previous_name (henters.dash hdash)), henters.fits (hfits hchange)⟩

/-- What `cd` should keep in a state: the previous directory is remembered, a command
that fails or has no argument changes nothing, and a successful `cd -` twice restores
both directories. -/
structure KeepsPrevious (names : Text → Prop) (s : Directories) : Prop where
  lastPwd_eq : s.lastPwd = s.previous
  failing : ∀ cmd s', CdStep names cmd s s' → s'.changes = s.changes →
    s'.cwd = s.cwd ∧ s'.lastPwd = s.lastPwd
  no_argument : ∀ cmd s', cmd.args[1]? = none → CdStep names cmd s s' →
    s'.cwd = s.cwd ∧ s'.lastPwd = s.lastPwd
  twice : ∀ cmd cmd' s₁ s₂, IsDash cmd → IsDash cmd' →
    FittingStep names cmd s s₁ → FittingStep names cmd' s₁ s₂ →
    s₁.changes ≠ s.changes → s₂.changes ≠ s₁.changes →
    s₂.cwd = s.cwd ∧ s₂.lastPwd = s.lastPwd

/-! ## A step -/

/-- The run of a command with one argument that is not `-`. -/
theorem cdStep_path {path dir buffer : Text} (hlen : 2 ≤ cmd.args.length)
    (harg : cmd.args[1]? = some path) (hmore : cmd.args[2]? = none)
    (hpath : path ≠ "-".toList) (hname : names dir) (htarget : names path → dir = path)
    (hbuffer : s.cwd.length < commandMaxLength → buffer = s.cwd) :
    CdStep names cmd s ((s.enter dir).save buffer) := by
  have hsecond : hasSecondArgument cmd = pure false := by
    rw [hasSecondArgument, if_neg (Nat.not_lt.mpr hlen), hmore]
    rfl
  rw [CdStep, changeDirExecute, hsecond]
  have hgetcwd : DirStep names s (.getcwd commandMaxLength) buffer s := ⟨hbuffer, rfl⟩
  have hchdir : DirStep names s (.chdir path) true (s.enter dir) :=
    Or.inr ⟨dir, rfl, hname, htarget, rfl⟩
  apply Runs.call hgetcwd
  rw [harg]
  dsimp only
  rw [if_neg hpath]
  exact Runs.call hchdir (runs_perform.mpr rfl)

/-- Where the name does not fit, a change of directory can lose the directory. -/
theorem exists_step_losing {path dir : Text} (hlen : 2 ≤ cmd.args.length)
    (harg : cmd.args[1]? = some path) (hmore : cmd.args[2]? = none)
    (hpath : path ≠ "-".toList) (hname : names dir) (htarget : names path → dir = path)
    (hlong : commandMaxLength ≤ s.cwd.length) :
    ∃ s', CdStep names cmd s s' ∧ s'.changes ≠ s.changes ∧
      s'.lastPwd ≠ s'.previous := by
  have hne : s.cwd ≠ [] := by
    intro hnil
    rw [hnil] at hlong
    exact absurd hlong (by decide)
  refine ⟨(s.enter dir).save [], ?_, Nat.succ_ne_self s.changes, hne.symm⟩
  exact cdStep_path hlen harg hmore hpath hname htarget fun hlt =>
    absurd hlt (Nat.not_lt.mpr hlong)

/-! ## All runs -/

/-- In every state that fitting steps reach, `cd` keeps the previous directory. -/
theorem keepsPrevious_of_reached {start : Text} (hstart : names start)
    (h : Reached names start s) : KeepsPrevious names s := by
  have hremembers := Remembers.of_reached hstart h
  constructor
  · exact hremembers.lastPwd_eq
  · intro cmd s' hcd hsame
    exact hcd.unchanged hsame
  · intro cmd s' hnone hcd
    exact hcd.no_argument hnone
  · intro cmd cmd' s₁ s₂ hdash hdash' hstep hstep' hchange hchange'
    obtain ⟨hcwd, hlast⟩ := hremembers.dash hdash hstep hchange
    obtain ⟨hcwd', hlast'⟩ := (hremembers.step hstep).dash hdash' hstep' hchange'
    exact ⟨hcwd'.trans hlast, hlast'.trans hcwd⟩

/-- The names of two directories. -/
def twoNames (path : Text) : Prop :=
  path = "/home".toList ∨ path = "/tmp".toList

/-- After `cd /tmp` in `/home`. -/
theorem keepsPrevious_of_reached_tmp :
    twoNames "/home".toList ∧
      Reached twoNames "/home".toList
        (((Directories.fresh "/home".toList).enter "/tmp".toList).save "/home".toList) ∧
      KeepsPrevious twoNames
        (((Directories.fresh "/home".toList).enter "/tmp".toList).save
          "/home".toList) := by
  have hreached : Reached twoNames "/home".toList
      (((Directories.fresh "/home".toList).enter "/tmp".toList).save
        "/home".toList) := by
    have hpath : (command "cd /tmp".toList).args[1]? = some "/tmp".toList := by
      decide +kernel
    have hstep : CdStep twoNames (command "cd /tmp".toList)
        (Directories.fresh "/home".toList) _ :=
      cdStep_path (by decide +kernel) hpath (by decide +kernel) (by decide)
        (Or.inr rfl) (fun _ => rfl) (fun _ => rfl)
    exact Relation.ReflTransGen.single ⟨_, hstep, fun _ => by decide⟩
  exact ⟨Or.inl rfl, hreached, keepsPrevious_of_reached (Or.inl rfl) hreached⟩

/-- A directory whose name has 200 characters. -/
def longName : Text :=
  '/' :: List.replicate 199 'a'

/-- The command `cd /` there loses the directory. -/
theorem long_name_lost :
    ∃ names s', names longName ∧
      CdStep names (command "cd /".toList) (Directories.fresh longName) s' ∧
      ¬ KeepsPrevious names s' := by
  let names : Text → Prop := fun path => path = longName ∨ path = "/".toList
  have hpath : (command "cd /".toList).args[1]? = some "/".toList := by decide +kernel
  have hlong : commandMaxLength ≤ (Directories.fresh longName).cwd.length := by
    decide +kernel
  have hname : names "/".toList := Or.inr rfl
  obtain ⟨s', hstep, -, hlost⟩ := exists_step_losing (by decide +kernel) hpath
    (by decide +kernel) (by decide) hname (fun _ => rfl) hlong
  exact ⟨names, s', Or.inl rfl, hstep, fun hkeeps => hlost hkeeps.lastPwd_eq⟩

end OsCoursework.Shell
