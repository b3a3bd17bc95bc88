import OsCoursework.Shell.AliasReplay
import OsCoursework.Shell.CtrlC
import OsCoursework.Shell.Parts

/-!
# Aliases in runs of the shell

No command but `alias` and `unalias` changes the table of aliases, so every session
leads to a table that can be reached.  What `alias` shows at its end can be typed in
another session, which then has the same aliases.
-/

namespace OsCoursework.Shell

open OsCoursework.Calls OsCoursework.Words

variable {α β : Type} {s s' : World} {t : AliasTable}

/-! ## Programs that leave the aliases alone -/

/-- The aliases `t` are the same afterwards. -/
def Leaves (t : AliasTable) (p : ShellM α) : Prop :=
  ∀ s, s.memory.aliases = t → Post Step p s fun _ s' => s'.memory.aliases = t

theorem Modest.leavesMemory {o : Sys} (h : Modest o) : LeavesMemory o := by
  cases o with
  | put m => exact h
  | _ => trivial

theorem FileCall.leavesMemory {o : Sys} (h : FileCall o) : LeavesMemory o :=
  h.plain.1.leavesMemory

namespace Leaves

theorem pure {a : α} : Leaves t (Pure.pure a : ShellM α) :=
  fun _ hs => Post.pure hs

theorem seq {p : ShellM α} {f : α → ShellM β} (hp : Leaves t p) (hf : ∀ a, Leaves t (f a)) :
    Leaves t (p >>= f) :=
  fun s hs => Post.seq (hp s hs) fun a s' hs' => hf a s' hs'

theorem makes {p : ShellM α} (hp : p.Makes LeavesMemory) : Leaves t p := by
  intro s hs
  induction p generalizing s with
  | pure a => exact Post.pure hs
  | call o next ih =>
      rintro a s' ⟨x, s₁, hstep, hruns⟩
      exact ih x (hp.2 x) s₁ (by rw [hstep.memory_eq hp.1, hs]) a s' hruns

theorem put {m : Memory} (hm : m.aliases = t) : Leaves t (sys (.put m)) := by
  intro s _
  refine Post.perform fun _ s' hstep => ?_
  obtain ⟨ended, -, rfl⟩ := hstep
  exact hm

theorem get {f : Memory → ShellM α} (hf : ∀ m, m.aliases = t → Leaves t (f m)) :
    Leaves t (sys .get >>= f) := by
  intro s hs
  refine Post.call fun m s' hstep => ?_
  obtain ⟨ended, -, rfl, rfl⟩ := hstep
  exact hf _ hs _ hs

theorem ite {c : Prop} [Decidable c] {p q : ShellM α} (hp : Leaves t p)
    (hq : Leaves t q) : Leaves t (if c then p else q) := by
  by_cases h : c
  · rwa [if_pos h]
  · rwa [if_neg h]

end Leaves

theorem removeFinishedJobs_leaves : Leaves t removeFinishedJobs :=
  .get fun _ hm => .seq (.makes (makes_sys trivial)) fun _ =>
    .ite .pure (.seq (.makes (reapLoop_makes (fun _ => trivial) (fun _ => trivial) _))
      fun _ => .put hm)

theorem addJob_leaves (cmdStr : Text) (pid : ℤ) : Leaves t (addJob cmdStr pid) := by
  refine .seq removeFinishedJobs_leaves fun _ => .get fun m hm => ?_
  split
  · exact .makes (makes_undefined trivial)
  · exact .seq (.makes (makes_sys trivial)) fun _ => .put hm

theorem setForegroundPid_leaves (pid : ℤ) : Leaves t (setForegroundPid pid) :=
  .get fun _ hm => .put hm

theorem printAll_leaves (os : List Output) : Leaves t (printAll os) :=
  .makes (makes_printAll (fun _ => trivial) os)

theorem printJobsList_leaves : Leaves t printJobsList :=
  .seq removeFinishedJobs_leaves fun _ => .get fun _ _ => printAll_leaves _

theorem bringToForeground_leaves (job : JobEntry) : Leaves t (bringToForeground job) :=
  .seq (.makes (makes_sys trivial)) fun _ => .seq (setForegroundPid_leaves _) fun _ =>
    .seq (.makes (makes_sys trivial)) fun _ => .seq (.makes (makes_sys trivial)) fun _ =>
      .seq (.makes (makes_when (makes_sys trivial))) fun _ =>
        .seq (setForegroundPid_leaves _) fun _ => .get fun _ hm => .put hm

theorem foregroundExecute_leaves (cmd : CommandData) :
    Leaves t (foregroundExecute cmd) := by
  refine .get fun m _ => ?_
  split
  · split
    · exact .makes (makes_sys trivial)
    · exact bringToForeground_leaves _
  · refine .ite (.makes (makes_sys trivial)) ?_
    refine .seq (.makes (makes_ofOption _ trivial)) fun jobId => ?_
    split
    · exact .makes (makes_sys trivial)
    · exact bringToForeground_leaves _

theorem LeavesJobs.leavesMemory {o : Sys} (h : LeavesJobs o) : LeavesMemory o := by
  cases o with
  | put m => exact h
  | _ => trivial

theorem externalChild_leaves (base : CommandData) : Leaves t (externalChild base) :=
  fun _ _ => externalChild_post base

theorem runForeground_leaves (base : CommandData) : Leaves t (runForeground base) := by
  refine .seq (.makes (makes_sys trivial)) fun pid => ?_
  refine .ite (externalChild_leaves base) (.ite ?_ (.makes (makes_sys trivial)))
  exact .seq (setForegroundPid_leaves _) fun _ => .seq (.makes (makes_sys trivial)) fun _ =>
    .seq (setForegroundPid_leaves _) fun _ => .makes (makes_when (makes_sys trivial))

theorem runExternal_leaves (base : CommandData) (cmdStr : Text) :
    Leaves t (runExternal base cmdStr) := by
  have hbackground : (isBackground base).Makes LeavesMemory := by
    unfold isBackground
    split
    · exact Prog.Makes.pure
    · exact makes_sys trivial
  refine .seq (.makes hbackground) fun background => .ite ?_ (runForeground_leaves base)
  refine .seq (.makes (makes_sys trivial)) fun pid => ?_
  refine .ite (externalChild_leaves base) (.ite ?_ (.makes (makes_sys trivial)))
  exact .seq (.makes (makes_sys trivial)) fun _ => addJob_leaves cmdStr pid

theorem pipeExecute_leaves (run : Text → ShellM Unit) (cmd : PipeCommand) :
    Leaves t (pipeExecute run cmd) := by
  have hchild (unused used target : ℕ) (line : Text) :
      Leaves t (pipeChild run unused used target line) :=
    fun _ _ => pipeChild_post run unused used target line
  have hfailed (call : Failure) : Leaves t (do
      sys (.perror "smash error: fork failed"); sys (.note (.failed call))) :=
    .makes (Prog.Makes.call trivial fun _ => makes_sys trivial)
  refine .seq (.makes (makes_sys trivial)) fun ends => ?_
  split
  · exact .makes (makes_sys trivial)
  · refine .seq (.makes (makes_sys trivial)) fun pid1 => ?_
    refine .ite (hfailed _) (.ite (hchild _ _ _ _) ?_)
    refine .seq (.makes (makes_sys trivial)) fun pid2 => ?_
    refine .ite (hfailed _) (.ite (hchild _ _ _ _) (.makes ?_))
    exact Prog.Makes.call trivial fun _ => Prog.Makes.call trivial fun _ =>
      Prog.Makes.call trivial fun _ => Prog.Makes.call trivial fun _ => Prog.Makes.pure

/-! ## What every session keeps -/

/-- The line `l` leads to this command, among the aliases `t`. -/
def Creates (t : AliasTable) (l : Text) (cmd : Command) : Prop :=
  createCommand t (convertAliasToOriginal t l) (trim l) = some cmd

/-- The tables of a kind stay of that kind, whatever lines of another kind are typed; the
line that a redirection executes is of the same kind as its own. -/
structure TableInvariant (I : AliasTable → Prop) (L : Text → Prop) : Prop where
  added : ∀ {t l cmd}, I t → L l → Creates t l (.builtIn .alias cmd) →
    I (aliasExecute cmd t).1
  removed : ∀ {t l cmd}, I t → L l → Creates t l (.builtIn .unalias cmd) →
    I (unAliasExecute cmd t).1
  redirected : ∀ {t l cmd}, I t → L l → Creates t l (.redirection cmd) → L cmd.cmdToRun

variable {I : AliasTable → Prop} {L : Text → Prop}

/-- The aliases are still of this kind afterwards. -/
def Keeps (I : AliasTable → Prop) (p : ShellM α) : Prop :=
  ∀ s, I s.memory.aliases → Post Step p s fun _ s' => I s'.memory.aliases

theorem Keeps.of_leaves {p : ShellM α} (hp : ∀ t, Leaves t p) : Keeps I p := by
  intro s hs
  refine (hp _ s rfl).mono fun _ s' hs' => ?_
  rwa [hs']

theorem Keeps.seq {p : ShellM α} {f : α → ShellM β} (hp : Keeps I p)
    (hf : ∀ a, Keeps I (f a)) : Keeps I (p >>= f) :=
  fun s hs => Post.seq (hp s hs) fun a s' hs' => hf a s' hs'

/-- A change of the table is the only thing that `alias` and `unalias` do. -/
theorem aliasTableExecute_post_aliases (f : AliasTable → AliasTable × List Output) :
    Post Step (aliasTableExecute f) s fun _ s' =>
      s'.memory.aliases = (f s.memory.aliases).1 := by
  refine Post.call fun m s₁ hget => ?_
  obtain ⟨ended, -, rfl, rfl⟩ := hget
  refine Post.call fun _ s₂ hput => ?_
  obtain ⟨ended', -, rfl⟩ := hput
  exact printAll_leaves _ _ rfl

theorem redirectionExecute_keeps {run : Text → ShellM Unit} {cmd : RedirectionCommand}
    (hrun : Keeps I (run cmd.cmdToRun)) : Keeps I (redirectionExecute run cmd) := by
  have hquiet {α : Type} {p : ShellM α} (hp : p.Makes LeavesMemory) : Keeps I p :=
    .of_leaves fun _ => .makes hp
  refine .seq (hquiet (makes_sys trivial)) fun ogStdout => ?_
  split
  · exact hquiet (makes_sys trivial)
  · refine .seq (hquiet (makes_sys trivial)) fun newFileFD => ?_
    split
    · exact hquiet (Prog.Makes.call trivial fun _ => makes_sys trivial)
    · refine .seq (hquiet (makes_sys trivial)) fun ok => ?_
      split
      · refine .seq hrun fun _ => .seq (hquiet ?_) fun _ => hquiet ?_
        · exact (restoreStdout_makes _).mono fun _ => LeavesJobs.leavesMemory
        · exact (closeFiles_makes _ _).mono fun _ => LeavesJobs.leavesMemory
      · refine hquiet (Prog.Makes.call trivial fun _ => ?_)
        refine Prog.Makes.call trivial fun _ => ?_
        exact Prog.Makes.bind (makes_when (makes_sys trivial)) fun _ => makes_sys trivial

/-- What a built-in command does to the aliases. -/
theorem builtInExecute_post_aliases (depth : ℕ) (b : BuiltIn) (cmd : CommandData) :
    Post Step (builtInExecute depth b cmd) s fun _ s' =>
      b = .alias ∧ s'.memory.aliases = (aliasExecute cmd s.memory.aliases).1 ∨
        b = .unalias ∧ s'.memory.aliases = (unAliasExecute cmd s.memory.aliases).1 ∨
        s'.memory.aliases = s.memory.aliases := by
  have hleaves {p : ShellM Unit} (hp : Leaves s.memory.aliases p) :
      Post Step p s fun _ s' =>
        b = .alias ∧ s'.memory.aliases = (aliasExecute cmd s.memory.aliases).1 ∨
          b = .unalias ∧ s'.memory.aliases = (unAliasExecute cmd s.memory.aliases).1 ∨
          s'.memory.aliases = s.memory.aliases :=
    (hp s rfl).mono fun _ _ h => Or.inr (Or.inr h)
  have hfiles {p : ShellM Unit} (hp : p.Makes FileCall) : Leaves s.memory.aliases p :=
    .makes (hp.mono fun _ => FileCall.leavesMemory)
  unfold builtInExecute
  split
  · exact (aliasTableExecute_post_aliases _).mono fun _ _ h => Or.inl ⟨rfl, h⟩
  · exact (aliasTableExecute_post_aliases _).mono fun _ _ h => Or.inr (Or.inl ⟨rfl, h⟩)
  · exact hleaves printJobsList_leaves
  · exact hleaves (foregroundExecute_leaves cmd)
  · exact quitExecute_post cmd
  · exact hleaves (.makes ((killExecute_makes cmd).mono fun _ => LeavesJobs.leavesMemory))
  · exact hleaves (hfiles (unSetEnvExecute_makes cmd))
  · exact hleaves (hfiles sysInfoExecute_makes)
  · exact hleaves (hfiles (diskUsageExecute_makes depth cmd))
  · exact hleaves (hfiles whoAmIExecute_makes)
  · exact hleaves (hfiles usbInfoExecute_makes)
  all_goals exact hleaves .pure

/-- However deep a line nests commands, the aliases stay of their kind. -/
theorem executeCommand_keeps (h : TableInvariant I L) (depth : ℕ) {cmdLine : Text}
    (hline : L cmdLine) : Keeps I (executeCommand depth cmdLine) := by
  induction depth generalizing cmdLine with
  | zero => exact fun _ _ => post_undefined
  | succ depth ih =>
      have hfinished : Keeps I removeFinishedJobs :=
        .of_leaves fun _ => removeFinishedJobs_leaves
      refine .seq hfinished fun _ s hs => ?_
      refine Post.call fun m s₁ hget => ?_
      obtain ⟨ended, -, rfl, rfl⟩ := hget
      refine post_ofOption fun cmd hcmd => ?_
      refine Post.seq (R := fun _ s' => I s'.memory.aliases) ?_
        fun _ s₂ hs₂ => hfinished s₂ hs₂
      cases cmd with
      | pipe cmd => exact Keeps.of_leaves (fun _ => pipeExecute_leaves _ cmd) _ hs
      | redirection cmd =>
          exact redirectionExecute_keeps (ih (h.redirected hs hline hcmd)) _ hs
      | external base cmdStr =>
          exact Keeps.of_leaves (fun _ => runExternal_leaves base cmdStr) _ hs
      | builtIn b cmd =>
          refine (builtInExecute_post_aliases depth b cmd).mono ?_
          rintro _ s' (⟨rfl, heq⟩ | ⟨rfl, heq⟩ | heq) <;> rw [heq]
          · exact h.added hs hline hcmd
          · exact h.removed hs hline hcmd
          · exact hs

theorem smash_keeps (h : TableInvariant I L) {turns : List Turn}
    (hlines : ∀ turn ∈ turns, L turn.cmdLine) : Keeps I (smash turns) := by
  induction turns with
  | nil => exact fun _ hs => Post.pure hs
  | cons turn turns ih =>
      refine .seq (.of_leaves fun _ => .makes (makes_sys trivial)) fun _ => ?_
      refine .seq (executeCommand_keeps h _ (hlines turn List.mem_cons_self)) fun _ => ?_
      exact ih fun turn' hturn => hlines turn' (List.mem_cons_of_mem turn hturn)

/-! ## Every session leads to a table that can be reached -/

theorem tableInvariant_reachable : TableInvariant Reachable fun _ => True where
  added := fun ht _ hcmd => .add _ ht hcmd
  removed := fun ht _ hcmd => .remove _ ht hcmd
  redirected := fun _ _ _ => trivial

theorem smash_reachable (turns : List Turn) : Keeps Reachable (smash turns) :=
  smash_keeps tableInvariant_reachable fun _ _ => trivial

/-! ## Lines without a NUL -/

/-- No command of an alias has a NUL. -/
def NulFree (t : AliasTable) : Prop :=
  ∀ pair ∈ t, nul ∉ pair.2

theorem nul_not_mem_convert {l : Text} (ht : NulFree t) (hl : nul ∉ l) :
    nul ∉ convertAliasToOriginal t l := by
  rw [convertAliasToOriginal]
  split
  · next cmd hlookup =>
    have hrest : (getline (afterWord isSpace l)).Sublist l :=
      (List.takeWhile_sublist _).trans
        ((List.dropWhile_sublist _).trans (List.dropWhile_sublist _))
    rw [List.mem_append, not_or]
    exact ⟨ht _ (exists_of_lookup hlookup), fun hmem => hl (hrest.subset hmem)⟩
  · exact hl

theorem nul_not_mem_removed {l s : Text} (hl : nul ∉ l)
    (hs : removeBackgroundSignConstant l = some s) : nul ∉ s := by
  intro hmem
  rcases mem_of_removeBackgroundSignConstant hs hmem with hmem | hblank
  · exact hl hmem
  · exact absurd hblank (by decide)

/-- A built-in command gets a line without a NUL. -/
theorem Creates.nul_not_mem {l : Text} {b : BuiltIn} {cmd : CommandData}
    (h : Creates t l (.builtIn b cmd)) (ht : NulFree t) (hl : nul ∉ l) :
    nul ∉ cmd.cmdStr := by
  obtain ⟨stripped, hstripped, -, rfl⟩ := exists_of_createCommand_builtIn h
  refine nul_not_mem_removed ?_ hstripped
  have hline := nul_not_mem_convert ht hl
  unfold constructorLine
  split
  · exact hline
  · exact hline
  · exact nul_not_mem_convert ht hline

theorem NulFree.aliasExecute {cmd : CommandData} (ht : NulFree t)
    (hcmd : nul ∉ cmd.cmdStr) : NulFree (aliasExecute cmd t).1 := by
  unfold Shell.aliasExecute
  split
  · exact ht
  · dsimp only
    split
    · exact ht
    · next name command hparse =>
      have hsub : command.Sublist cmd.cmdStr :=
        ((parseAlias_spec hparse).2.2.trans (trim_sublist _)).trans
          ((List.takeWhile_sublist _).trans
            ((List.dropWhile_sublist _).trans (List.dropWhile_sublist _)))
      have hadd : NulFree (addAliasName t name command).2 := by
        by_cases hrefused : Refused t name
        · rwa [addAliasName_of_refused hrefused]
        · rw [addAliasName_of_not_refused hrefused]
          intro pair hpair
          rcases List.mem_append.mp hpair with hpair | hpair
          · exact ht pair hpair
          · rw [List.mem_singleton.mp hpair]
            exact fun hmem => hcmd (hsub.subset hmem)
      split <;> exact hadd

theorem tableInvariant_nulFree : TableInvariant NulFree fun l => nul ∉ l where
  added := fun ht hl hcmd => ht.aliasExecute (hcmd.nul_not_mem ht hl)
  removed := fun ht _ _ pair hpair => ht pair ((unAliasExecute_sublist _ _).subset hpair)
  redirected := by
    intro t l cmd ht hl hcmd
    obtain ⟨-, hred⟩ := createCommand_redirection hcmd
    obtain ⟨s, hs, hparts⟩ := redirectionCommand_parts hred
    have hfront : cmd.cmdToRun = trim (before s (s.findIdx? (· = '>'))) :=
      congrArg Parts.front hparts
    have hsub : (before s (s.findIdx? (· = '>'))).Sublist s := by
      unfold before
      split
      · exact List.Sublist.refl s
      · exact List.take_sublist _ s
    rw [hfront]
    exact fun hmem => nul_not_mem_removed (nul_not_mem_convert ht hl) hs
      (((trim_sublist _).trans hsub).subset hmem)

/-! ## Taking the aliases to another session -/

/-- The calls that come back with an answer. -/
def Answers : Sys → Prop
  | .undefined => False
  | .exit _ => False
  | _ => True

theorem Answers.exists_step (s : World) {o : Sys} (ho : Answers o) :
    ∃ x s', Step s o x s' := by
  cases o with
  | undefined => exact ho.elim
  | exit status => exact ho.elim
  | get => exact ⟨s.memory, s, Step.of_effect ⟨rfl, rfl⟩⟩
  | getpid => exact ⟨s.memory.smashPid, s, Step.of_effect ⟨rfl, rfl⟩⟩
  | fork => exact ⟨(-1 : ℤ), s, Step.of_effect (Or.inl ⟨rfl, rfl⟩)⟩
  | waitpid pid nohang =>
      by_cases hchild : pid ∈ s.children
      · -- The child may end before the call.
        exact ⟨WaitResult.reaped .exited, _, {pid}, by simpa using hchild,
          hchild, by simp, rfl⟩
      · exact ⟨WaitResult.error .ECHILD, s, Step.of_effect ⟨hchild, rfl⟩⟩
  | dup fd => exact ⟨(none : Option ℕ), s, Step.of_effect (Or.inl ⟨rfl, rfl⟩)⟩
  | openFile path mode => exact ⟨(none : Option ℕ), s, Step.of_effect (Or.inl ⟨rfl, rfl⟩)⟩
  | dup2 oldFd newFd => exact ⟨false, s, Step.of_effect (Or.inl ⟨rfl, rfl⟩)⟩
  | pipe => exact ⟨(none : Option (ℕ × ℕ)), s, Step.of_effect (Or.inl ⟨rfl, rfl⟩)⟩
  | close fd =>
      by_cases hopen : s.fds fd = none
      · exact ⟨false, s, Step.of_effect (Or.inr ⟨rfl, hopen, rfl⟩)⟩
      · exact ⟨true, _, Step.of_effect (Or.inl ⟨rfl, hopen, rfl⟩)⟩
  | undetermined => exact ⟨false, s, Step.of_effect rfl⟩
  | kill pid sig => exact ⟨false, s, Step.of_effect rfl⟩
  | read fd => exact ⟨(none : Option Text), s, Step.of_effect rfl⟩
  | getdents fd => exact ⟨(none : Option (List Text)), s, Step.of_effect rfl⟩
  | lstat path => exact ⟨(none : Option Stat), s, Step.of_effect rfl⟩
  | _ => exact ⟨(), _, Step.of_effect rfl⟩

theorem Leaves.ends {p : ShellM α} (h : Leaves t p) (hp : p.Makes Answers)
    (hs : s.memory.aliases = t) : Ends Step p s fun _ s' => s'.memory.aliases = t :=
  (h s hs).ends hp fun s _ => Answers.exists_step s

/-- The lines of the listing, one at each turn of the loop of `main`. -/
def Types (turns : List Turn) (t : AliasTable) : Prop :=
  turns.map Turn.cmdLine = retyped (printAllAliasNames t) ∧
    ∀ turn ∈ turns, turn.depth ≠ 0

/-- The lines at the first prompt of the shell. -/
def typed (t : AliasTable) : List Turn :=
  (retyped (printAllAliasNames t)).map fun line => ⟨"smash".toList, line, 1⟩

theorem types_typed (t : AliasTable) : Types (typed t) t := by
  constructor
  · rw [typed, List.map_map]
    exact List.map_id _
  · intro turn hturn
    obtain ⟨line, -, rfl⟩ := List.mem_map.mp hturn
    exact Nat.one_ne_zero

theorem removeFinishedJobs_ends (hs : s.memory.aliases = t) :
    Ends Step removeFinishedJobs s fun _ s' => s'.memory.aliases = t :=
  removeFinishedJobs_leaves.ends (removeFinishedJobs_makes trivial trivial
    (fun _ => trivial) (fun _ => trivial) fun _ => trivial) hs

theorem ends_ofOption {x : Option β} {b : β} {f : β → ShellM α} {Q : α → World → Prop}
    (hx : x = some b) (hf : Ends Step (f b) s Q) : Ends Step (ofOption x >>= f) s Q := by
  subst hx
  exact hf

/-- A line that defines a new alias is executed by adding it. -/
theorem executeCommand_aliasLine {pair : Text × Text} (depth : ℕ)
    (h : Definable (t ++ [pair])) (hreach : SignInReach (aliasLine pair))
    (hs : s.memory.aliases = t) :
    Ends Step (executeCommand (depth + 1) (aliasLine pair)) s fun _ s' =>
      s'.memory.aliases = t ++ [pair] := by
  have ht := h.sublist (List.sublist_append_left t [pair])
  refine Ends.seq (removeFinishedJobs_ends hs) fun _ s₁ hs₁ => ?_
  refine Ends.call (Answers.exists_step s₁ (o := .get) trivial) fun m s₂ hget => ?_
  obtain ⟨ended, -, rfl, rfl⟩ := hget
  have hcreate : createCommand s₁.memory.aliases
      (convertAliasToOriginal s₁.memory.aliases (aliasLine pair)) (trim (aliasLine pair)) =
        some (.builtIn .alias (command (aliasLine pair))) := by
    rw [hs₁]
    exact createCommand_aliasLine ht hreach
      (h.few_words pair (List.mem_append_right t (List.mem_singleton_self pair))) _
  refine ends_ofOption hcreate ?_
  refine Ends.seq (R := fun _ s' => s'.memory.aliases = t ++ [pair]) ?_ fun _ s₃ hs₃ =>
    removeFinishedJobs_ends hs₃
  refine (Post.mono (aliasTableExecute_post_aliases _) fun _ s' hs' => ?_).ends
    (Prog.Makes.call trivial fun m => Prog.Makes.call trivial fun _ =>
      makes_printAll (fun _ => trivial) _) fun s _ => Answers.exists_step s
  rw [hs']
  change (aliasExecute _ s₁.memory.aliases).1 = _
  rw [hs₁, aliasExecute_new h]

theorem smash_aliasLines {t' : AliasTable} {turns : List Turn} (h : Definable (t ++ t'))
    (hreach : ∀ pair ∈ t', SignInReach (aliasLine pair)) (hturns : Types turns t')
    (hs : s.memory.aliases = t) :
    Ends Step (smash turns) s fun _ s' => s'.memory.aliases = t ++ t' := by
  obtain ⟨hlines, hdepth⟩ := hturns
  rw [retyped_listing] at hlines
  induction t' generalizing t s turns with
  | nil =>
      rw [List.map_eq_nil_iff.mp hlines]
      exact Ends.pure (by rw [hs, List.append_nil])
  | cons pair t' ih =>
      obtain ⟨turn, turns, rfl, hline, hlines⟩ := List.map_eq_cons_iff.mp hlines
      rw [List.append_cons] at h ⊢
      obtain ⟨depth, hd⟩ := Nat.exists_eq_succ_of_ne_zero (hdepth turn List.mem_cons_self)
      have hcout : Leaves t (cout (turn.name ++ "> ".toList)) := .makes (makes_sys trivial)
      refine Ends.seq (hcout.ends (makes_sys trivial) hs) fun _ s₁ hs₁ => ?_
      have hexecute : Ends Step (executeCommand turn.depth turn.cmdLine) s₁ fun _ s' =>
          s'.memory.aliases = t ++ [pair] := by
        rw [hd, hline]
        exact executeCommand_aliasLine depth (h.sublist (List.sublist_append_left _ t'))
          (hreach pair List.mem_cons_self) hs₁
      refine Ends.seq hexecute fun _ s₂ hs₂ => ?_
      exact ih h (fun pair' hp => hreach pair' (List.mem_cons_of_mem pair hp)) hs₂ hlines
        fun turn' hturn => hdepth turn' (List.mem_cons_of_mem turn hturn)

/-- Whatever a session did, typing the lines that `alias` shows at its end, each behind
the word `alias`, in a session without aliases never gets stuck and brings the same
aliases, with the same commands and in the same order. -/
theorem aliases_restored {s t s₀ : World} {turns turns' : List Turn}
    (hboot : s.memory.aliases = []) (hruns : Runs Step (smash turns) s () t)
    (hreach : ∀ pair ∈ t.memory.aliases, SignInReach (aliasLine pair))
    (htypes : Types turns' t.memory.aliases) (hempty : s₀.memory.aliases = []) :
    Ends Step (smash turns') s₀ fun _ t₀ => t₀.memory.aliases = t.memory.aliases := by
  have ht : Reachable t.memory.aliases :=
    smash_reachable turns s (hboot ▸ Reachable.nil) () t hruns
  exact smash_aliasLines (t := []) ht.definable hreach htypes hempty

/-- A line that `getline` can read and `c_str` hands on as a whole. -/
def Turn.Typable (turn : Turn) : Prop :=
  '\n' ∉ turn.cmdLine ∧ nul ∉ turn.cmdLine

theorem not_mem_aliasLine {pair : Text × Text} {c : Char} (hname : c ∉ pair.1)
    (hcmd : c ∉ pair.2) (hrest : c ∉ "alias ".toList ++ ['=', quote]) :
    c ∉ aliasLine pair := by
  rw [List.mem_append, not_or] at hrest
  obtain ⟨hletters, hmarks⟩ := hrest
  simp only [List.mem_cons, List.not_mem_nil, or_false, not_or] at hmarks
  have hdefinition : c ∉ definition pair.1 pair.2 := by
    simp [definition, hname, hcmd, hmarks]
  change c ∉ "alias ".toList ++ definition pair.1 pair.2
  rw [List.mem_append, not_or]
  exact ⟨hletters, hdefinition⟩

theorem typed_typable (ht : Definable t) (hnul : NulFree t) :
    ∀ turn ∈ typed t, turn.Typable := by
  intro turn hturn
  rw [typed, retyped_listing, List.map_map] at hturn
  obtain ⟨pair, hpair, rfl⟩ := List.mem_map.mp hturn
  have hname (c : Char) (hc : isNameChar c = false) : c ∉ pair.1 := fun hmem =>
    Bool.false_ne_true (hc ▸ ht.name_char pair hpair c hmem)
  exact ⟨not_mem_aliasLine (hname '\n' (by decide)) (ht.no_newline pair hpair) (by decide),
    not_mem_aliasLine (hname nul (by decide)) (hnul pair hpair) (by decide)⟩

/-- The tables of aliases that a session can end with are exactly those with distinct
names, each a word of letters, digits and underscores that is not reserved, and with
commands of one line, without a NUL, whose definitions have room in the argument
array. -/
theorem session_aliases_iff (hreach : ∀ pair ∈ t, SignInReach (aliasLine pair)) :
    (∃ (turns : List Turn) (s s' : World), (∀ turn ∈ turns, turn.Typable) ∧
      s.memory.aliases = [] ∧ Runs Step (smash turns) s () s' ∧
        s'.memory.aliases = t) ↔ Definable t ∧ NulFree t := by
  constructor
  · rintro ⟨turns, s, s', htypable, hs, hruns, rfl⟩
    have hnil : NulFree s.memory.aliases := by
      rw [hs]
      exact fun pair hpair => absurd hpair (List.not_mem_nil)
    exact ⟨(smash_reachable turns s (hs ▸ Reachable.nil) () s' hruns).definable,
      smash_keeps tableInvariant_nulFree (fun turn hturn => (htypable turn hturn).2) s
        hnil () s' hruns⟩
  · rintro ⟨h, hnul⟩
    have hends := smash_aliasLines (s := freshShell) (t := []) h hreach (types_typed t) rfl
    obtain ⟨_, s', hruns⟩ := hends.exists_run
    exact ⟨typed t, freshShell, s', typed_typable h hnul, rfl, hruns,
      hends.post _ s' hruns⟩

/-- The aliases `ll` and `gone`, the second with quotes and a bar in its command. -/
def someAliases : AliasTable :=
  [("ll".toList, "ls -l &".toList), ("gone".toList, "echo 'x' | tr x y".toList)]

theorem someAliases_definable : Definable someAliases where
  name_ne_nil := by decide
  name_char := by
    -- A quantifier over characters may be decided by trying all there are, so `all` runs
    -- along the names instead.
    have hnames : someAliases.all fun pair => pair.1.all isNameChar := by decide
    exact fun pair hpair => List.all_eq_true.mp (List.all_eq_true.mp hnames pair hpair)
  no_newline := by decide
  not_reserved := by decide
  few_words := by decide +kernel
  names_nodup := by decide

theorem someAliases_nulFree : NulFree someAliases := by
  unfold NulFree
  decide

theorem someAliases_reach : ∀ pair ∈ someAliases, SignInReach (aliasLine pair) := by
  have hlength : ∀ pair ∈ someAliases, (aliasLine pair).length < 2 ^ 32 := by decide
  exact fun pair hpair => signInReach_of_length (hlength pair hpair)

theorem session_aliases_iff_some : ∃ (turns : List Turn) (s s' : World),
    (∀ turn ∈ turns, turn.Typable) ∧ s.memory.aliases = [] ∧
      Runs Step (smash turns) s () s' ∧ s'.memory.aliases = someAliases :=
  (session_aliases_iff someAliases_reach).mpr
    ⟨someAliases_definable, someAliases_nulFree⟩

theorem aliases_restored_some : ∃ t : World, t.memory.aliases = someAliases ∧
    Ends Step (smash (typed someAliases)) freshShell fun _ t₀ =>
      t₀.memory.aliases = t.memory.aliases := by
  have hends := smash_aliasLines (s := freshShell) (t := []) someAliases_definable
    someAliases_reach (types_typed someAliases) rfl
  obtain ⟨_, t, hruns⟩ := hends.exists_run
  have ht : t.memory.aliases = someAliases := hends.post _ t hruns
  refine ⟨t, ht, aliases_restored (s := freshShell) rfl hruns ?_ ?_ rfl⟩
  · rw [ht]
    exact someAliases_reach
  · rw [ht]
    exact types_typed someAliases

end OsCoursework.Shell
