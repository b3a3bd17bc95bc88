import OsCoursework.Shell.Interrupted

/-!
# The shell and ctrl-C

Wherever a run of the shell with ctrl-C comes, a run without it comes, with the same
jobs, aliases, children and descriptors.  What is true of the jobs in all runs
therefore holds with ctrl-C as well, and says which processes are sent signals.
-/

namespace OsCoursework.Shell

open OsCoursework.Calls Relation

variable {α β : Type} {s s' w v v' : World} {pid fg : ℤ}

/-! ## Commands that do not wait -/

section Reaping

variable {C : Sys → Prop}

theorem reapLoop_makes (hwait : ∀ pid, C (.waitpid pid true))
    (hperror : ∀ text, C (.perror text)) (jobs : List JobEntry) :
    (reapLoop jobs).Makes C := by
  induction jobs with
  | nil => exact Prog.Makes.pure
  | cons job jobs ih =>
      refine Prog.Makes.bind (Prog.Makes.call (hwait job.pid) fun result => ?_) fun _ =>
        Prog.Makes.bind ih fun _ => Prog.Makes.pure
      cases result with
      | running => exact Prog.Makes.pure
      | reaped status => exact Prog.Makes.pure
      | error errno =>
          exact makes_ite Prog.Makes.pure
            (Prog.Makes.call (hperror _) fun _ => Prog.Makes.pure)

theorem removeFinishedJobs_makes (hget : C .get) (hgetpid : C .getpid)
    (hput : ∀ m, C (.put m)) (hwait : ∀ pid, C (.waitpid pid true))
    (hperror : ∀ text, C (.perror text)) : removeFinishedJobs.Makes C :=
  Prog.Makes.call hget fun _ => Prog.Makes.call hgetpid fun _ =>
    makes_ite Prog.Makes.pure (Prog.Makes.bind (reapLoop_makes hwait hperror _) fun _ =>
      makes_sys (hput _))

end Reaping

theorem removeFinishedJobs_calm : Calm removeFinishedJobs :=
  .get fun _ hm => .seq (.makes (makes_sys trivial)) fun _ =>
    .ite .pure (.seq (.makes (reapLoop_makes (fun _ => trivial) (fun _ => trivial) _))
      fun _ => .put hm)

theorem addJob_calm (cmdStr : Text) (pid : ℤ) : Calm (addJob cmdStr pid) := by
  refine .seq removeFinishedJobs_calm fun _ => .get fun m hm => ?_
  split
  · exact .makes (makes_undefined trivial)
  · exact .seq (.makes (makes_sys trivial)) fun _ => .put hm

theorem removeJobById_calm (id : ℤ) : Calm (removeJobById id) :=
  .get fun _ hm => .put hm

theorem printAll_plain (os : List Output) : (printAll os).Makes Plain :=
  makes_printAll (fun _ => ⟨trivial, trivial⟩) os

theorem printJobsList_calm : Calm printJobsList :=
  .seq removeFinishedJobs_calm fun _ => .get fun _ _ =>
    .makes ((printAll_plain _).mono fun _ => And.left)

theorem aliasTableExecute_calm (f : AliasTable → AliasTable × List Output) :
    Calm (aliasTableExecute f) :=
  .get fun _ hm => .seq (.put hm) fun _ => .makes ((printAll_plain _).mono fun _ => And.left)

/-! ## Signals to jobs -/

theorem killExecute_shadows (cmd : CommandData) (h : EvenTable w v) :
    Shadows (killExecute cmd) w v Even := by
  have hcerr (text : Text) {w v : World} (h : EvenTable w v) :
      Shadows (cerr text) w v Even :=
    Calm.makes (makes_sys (o := .print (.cerr text)) trivial) w v h.toEven
  refine h.get fun w₁ h₁ => ?_
  split
  · split
    · exact hcerr _ h₁
    · refine h₁.ofOption fun numbers _ => ?_
      split
      · exact hcerr _ h₁
      · next sigNum jobId =>
        split
        · exact hcerr _ h₁
        · next job hfind =>
          refine h₁.kill (List.mem_of_find?_eq_some hfind) fun sent w₂ h₂ _ => ?_
          refine Calm.makes ?_ w₂ w₂ h₂.toEven
          exact Prog.Makes.call trivial fun _ => makes_when (makes_sys trivial)
  · exact hcerr _ h₁

theorem killAll_shadows (jobs : List JobEntry) (h : EvenTable w v)
    (hjobs : ∀ job ∈ jobs, job ∈ w.memory.jobList) : Shadows (killAll jobs) w v Even := by
  induction jobs generalizing w v with
  | nil => exact h.toEven
  | cons job jobs ih =>
      refine h.kill (hjobs job List.mem_cons_self) fun sent w₁ h₁ hmemory₁ => ?_
      have hwhen : (when (sent = false) (sys (.perror "smash error: kill failed"))).Makes
          Plain := makes_when (makes_sys ⟨trivial, trivial⟩)
      refine (h₁.keeps hwhen).seq fun _ w₂ v₂ h₂ => ih h₂.1 fun job' hjob' => ?_
      rw [h₂.2, hmemory₁]
      exact hjobs job' (List.mem_cons_of_mem _ hjob')

theorem quitKill_shadows (h : EvenTable w v) : Shadows quitKill w v Even := by
  have hfinished := h.calm removeFinishedJobs_calm (removeFinishedJobs_post h.table.listed)
    fun _ _ h' => ⟨h'.1, h'.2⟩
  refine hfinished.seq fun _ w₁ v₁ h₁ => h₁.get fun w₂ h₂ => ?_
  have hprint : (cout ("smash: sending SIGKILL signal to ".toList ++
      decimal w₂.memory.jobList.length ++ " jobs:".toList)).Makes Plain :=
    makes_sys ⟨trivial, trivial⟩
  refine (h₂.keeps hprint).seq fun _ w₃ v₃ h₃ => ?_
  refine (h₃.1.keeps (printAll_plain _)).seq fun _ w₄ v₄ h₄ => ?_
  refine killAll_shadows _ h₄.1 fun job hjob => ?_
  rwa [h₄.2, h₃.2]

theorem quitExecute_shadows (cmd : CommandData) (h : EvenTable w v) :
    Shadows (quitExecute cmd) w v Even := by
  have hquit : Shadows (when (cmd.args[1]? = some "kill".toList) quitKill) w v Even := by
    rw [when]
    split
    · exact quitKill_shadows h
    · exact h.toEven
  have hend : Calm (do
      let m ← sys .get
      sys (.put { m with jobList := [], maxJobId := 0 })
      exit 0 : ShellM Unit) :=
    .get fun _ hm => .seq (.put hm) fun _ => .makes ⟨trivial, fun x => x.elim⟩
  exact hquit.seq fun _ w₁ v₁ h₁ => hend w₁ v₁ h₁

/-! ## Commands that wait -/

/-- A job of the table comes to the foreground. -/
theorem bringToForeground_shadows {job : JobEntry} (h : EvenTable w v)
    (hjob : job ∈ w.memory.jobList) : Shadows (bringToForeground job) w v Even := by
  have hsignalled := h.table.signalled h.fgPid_eq hjob
  refine h.toEven.call nofun fun _ w₁ hnote => ?_
  obtain ⟨ended, -, rfl⟩ := hnote
  have hfg : InForeground { w with
      exited := w.exited ∪ ended
      history := w.history ++ [.foregrounded job.pid] } job.pid :=
    ⟨not_pending_concat w.history (Or.inr rfl), Or.inl hsignalled.child⟩
  refine ⟨h.fgPid_eq, (Foregrounded.set ?_ hfg).seq fun _ w₂ v₂ h₂ => ?_⟩
  · exact Even.refl h.fgPid_eq
  refine h₂.speak trivial fun _ v₃ h₃ => ?_
  refine h₃.waitpid.seq fun result w₄ v₄ h₄ => ?_
  have hwhen : Shadows (when (result.isError = true)
      (sys (.perror "smash error: waitpid failed"))) w₄ v₄ (Foregrounded job.pid) := by
    rw [when]
    split
    · exact h₄.speak (f := Pure.pure) trivial fun _ _ h₅ => h₅
    · exact h₄
  refine hwhen.seq fun _ w₅ v₅ h₅ => h₅.unset.seq fun _ w₆ v₆ h₆ => ?_
  exact removeJobById_calm job.jobId w₆ v₆ h₆

theorem foregroundExecute_shadows (cmd : CommandData) (h : EvenTable w v) :
    Shadows (foregroundExecute cmd) w v Even := by
  have hcerr (text : Text) {w v : World} (h : EvenTable w v) :
      Shadows (cerr text) w v Even :=
    Calm.makes (makes_sys (o := .print (.cerr text)) trivial) w v h.toEven
  refine h.get fun w₁ h₁ => ?_
  split
  · split
    · exact hcerr _ h₁
    · next job hlast => exact bringToForeground_shadows h₁ (List.mem_of_getLast? hlast)
  · split
    · exact hcerr _ h₁
    · refine h₁.ofOption fun jobId _ => ?_
      split
      · exact hcerr _ h₁
      · next job hfind =>
        exact bringToForeground_shadows h₁ (List.mem_of_find?_eq_some hfind)

/-- A new process is no background job. -/
theorem EvenTable.fork {f : ℤ → ShellM α} {S : World → World → Prop} (h : EvenTable w v)
    (hfail : ∀ w', EvenTable w' w' → Shadows (f (-1)) w' w' S)
    (hpid : ∀ pid w', 0 < pid → EvenTable w' w' → InForeground w' pid →
      Shadows (f pid) w' w' S) : Shadows (sys .fork >>= f) w v S := by
  have htracked : Tracked w.memory.jobList [] w := h.table.listed
  refine h.toEven.call nofun fun pid w' hstep => ?_
  obtain ⟨ended, -, ⟨rfl, rfl⟩ | ⟨hpos, hnew, rfl⟩⟩ := hstep
  · refine ⟨h.fgPid_eq, hfail _ (.refl h.fgPid_eq ?_)⟩
    exact ⟨htracked.congr (fun _ hp => hp) rfl, h.table.maxJobId_eq⟩
  · refine ⟨h.fgPid_eq, hpid pid _ hpos (.refl h.fgPid_eq ?_) ?_⟩
    · exact ⟨htracked.congr (fun _ hp => Finset.mem_insert_of_mem hp) rfl,
        h.table.maxJobId_eq⟩
    · refine ⟨fun hmem => hnew ?_, Or.inl (Finset.mem_insert_self _ _)⟩
      exact htracked.child pid (htracked.pending_eq ▸ hmem)

theorem runForeground_shadows (base : CommandData) (h : EvenTable w v) :
    Shadows (runForeground base) w v Even := by
  have hperror (text : String) : Calm (sys (.perror text)) := .makes (makes_sys trivial)
  refine h.fork (fun w₁ h₁ => ?_) fun pid w₁ hpos h₁ hfg => ?_
  · exact hperror _ w₁ w₁ h₁.toEven
  · rw [if_neg hpos.ne', if_pos hpos]
    refine (Foregrounded.set h₁.toEven hfg).seq fun _ w₂ v₂ h₂ => ?_
    refine h₂.waitpid.seq fun result w₃ v₃ h₃ => h₃.unset.seq fun _ w₄ v₄ h₄ => ?_
    exact Calm.makes (makes_when (makes_sys trivial)) w₄ v₄ h₄

theorem runBackground_shadows (base : CommandData) (cmdStr : Text) (h : EvenTable w v) :
    Shadows (runBackground base cmdStr) w v Even := by
  refine h.fork (fun w₁ h₁ => ?_) fun pid w₁ hpos h₁ hfg => ?_
  · exact Calm.makes (p := sys (.perror "smash error: fork failed"))
      (makes_sys trivial) w₁ w₁ h₁.toEven
  · rw [if_neg hpos.ne', if_pos hpos]
    have hadd : Calm (do sys (.note (.launched pid cmdStr)); addJob cmdStr pid) :=
      .seq (.makes (makes_sys trivial)) fun _ => addJob_calm cmdStr pid
    exact hadd w₁ w₁ h₁.toEven

theorem runExternal_shadows (base : CommandData) (cmdStr : Text) (h : EvenTable w v) :
    Shadows (runExternal base cmdStr) w v Even := by
  have hbackground : (isBackground base).Makes Plain := by
    unfold isBackground
    split
    · exact Prog.Makes.pure
    · exact makes_sys ⟨trivial, trivial⟩
  refine (h.makes hbackground).seq fun background w₁ v₁ h₁ => ?_
  split
  · exact runBackground_shadows base cmdStr h₁
  · exact runForeground_shadows base h₁

/-- The foreground process is not set while a pipe is waited for. -/
theorem pipeExecute_shadows (run : Text → ShellM Unit) (cmd : PipeCommand)
    (h : EvenTable w v) : Shadows (pipeExecute run cmd) w v Even := by
  have hfailed (call : Failure) :
      Calm (do sys (.perror "smash error: fork failed"); sys (.note (.failed call))) :=
    .makes (Prog.Makes.call trivial fun _ => makes_sys trivial)
  refine (h.makes (makes_sys ?_)).seq fun ends w₁ v₁ h₁ => ?_
  · exact ⟨trivial, trivial⟩
  split
  · exact Calm.makes (p := sys (.perror "smash error: pipe failed")) (makes_sys trivial)
      w₁ v₁ h₁.toEven
  · refine h₁.fork (fun w₂ h₂ => ?_) fun pid1 w₂ hpos1 h₂ _ => ?_
    · exact hfailed .pipeFork1 w₂ w₂ h₂.toEven
    · rw [if_neg hpos1.not_gt, if_neg hpos1.ne']
      refine h₂.fork (fun w₃ h₃ => ?_) fun pid2 w₃ hpos2 h₃ _ => ?_
      · exact hfailed .pipeFork2 w₃ w₃ h₃.toEven
      · rw [if_neg hpos2.not_gt, if_neg hpos2.ne']
        refine Calm.makes ?_ w₃ w₃ h₃.toEven
        exact Prog.Makes.call trivial fun _ => Prog.Makes.call trivial fun _ =>
          Prog.Makes.call trivial fun _ => Prog.Makes.call trivial fun _ => Prog.Makes.pure

theorem redirectionExecute_shadows {run : Text → ShellM Unit}
    (hrun : ∀ line w v, EvenTable w v → Shadows (run line) w v Even)
    (cmd : RedirectionCommand) (h : EvenTable w v) :
    Shadows (redirectionExecute run cmd) w v Even := by
  refine (h.makes (makes_sys ?_)).seq fun ogStdout w₁ v₁ h₁ => ?_
  · exact ⟨trivial, trivial⟩
  split
  · exact Calm.makes (p := sys (.perror "smash error: dup failed")) (makes_sys trivial)
      w₁ v₁ h₁.toEven
  · next ogStdout =>
    refine (h₁.makes (makes_sys ?_)).seq fun newFileFD w₂ v₂ h₂ => ?_
    · exact ⟨trivial, trivial⟩
    split
    · refine Calm.makes ?_ w₂ v₂ h₂.toEven
      exact Prog.Makes.call trivial fun _ => makes_sys trivial
    · next newFileFD =>
      refine (h₂.makes (makes_sys ?_)).seq fun ok w₃ v₃ h₃ => ?_
      · exact ⟨trivial, trivial⟩
      split
      · refine (hrun cmd.cmdToRun w₃ v₃ h₃).seq fun _ w₄ v₄ h₄ => ?_
        refine Calm.makes (p := do restoreStdout ogStdout; closeFiles ogStdout newFileFD)
          ?_ w₄ v₄ h₄
        refine Prog.Makes.bind (Prog.Makes.call trivial fun _ => ?_) fun _ => ?_
        · exact Prog.Makes.call trivial fun _ => makes_when (makes_sys trivial)
        · refine Prog.Makes.call trivial fun closed => makes_ite ?_ (makes_sys trivial)
          exact Prog.Makes.call trivial fun _ => makes_when (makes_sys trivial)
      · refine Calm.makes ?_ w₃ v₃ h₃.toEven
        refine Prog.Makes.call trivial fun _ => Prog.Makes.call trivial fun _ => ?_
        exact Prog.Makes.bind (makes_when (makes_sys trivial)) fun _ => makes_sys trivial

/-! ## Whole commands -/

theorem builtInExecute_shadows (depth : ℕ) (b : BuiltIn) (cmd : CommandData)
    (h : EvenTable w v) : Shadows (builtInExecute depth b cmd) w v Even := by
  have hfiles {p : ShellM Unit} (hp : p.Makes FileCall) : Shadows p w v Even :=
    Calm.makes (hp.mono fun _ ho => ho.plain.1) w v h.toEven
  unfold builtInExecute
  split
  · exact aliasTableExecute_calm _ w v h.toEven
  · exact aliasTableExecute_calm _ w v h.toEven
  · exact printJobsList_calm w v h.toEven
  · exact foregroundExecute_shadows cmd h
  · exact quitExecute_shadows cmd h
  · exact killExecute_shadows cmd h
  · exact hfiles (unSetEnvExecute_makes cmd)
  · exact hfiles sysInfoExecute_makes
  · exact hfiles (diskUsageExecute_makes depth cmd)
  · exact hfiles whoAmIExecute_makes
  · exact hfiles usbInfoExecute_makes
  all_goals exact h.toEven

theorem executeCommand_shadows (depth : ℕ) (cmdLine : Text) (h : EvenTable w v) :
    Shadows (executeCommand depth cmdLine) w v Even := by
  induction depth generalizing cmdLine w v with
  | zero => exact Calm.makes (makes_undefined trivial) w v h.toEven
  | succ depth ih =>
      have hfinished := h.calm removeFinishedJobs_calm
        (removeFinishedJobs_post h.table.listed) fun _ _ h' => ⟨h'.1, h'.2⟩
      refine hfinished.seq fun _ w₁ v₁ h₁ => h₁.get fun w₂ h₂ => ?_
      refine h₂.ofOption fun cmd _ => ?_
      have hcmd : Shadows (runCommand (executeCommand depth) depth cmd) w₂ w₂ Even := by
        cases cmd with
        | builtIn b cmd => exact builtInExecute_shadows depth b cmd h₂
        | pipe cmd => exact pipeExecute_shadows _ cmd h₂
        | redirection cmd =>
            exact redirectionExecute_shadows (fun line w v hv => ih line hv) cmd h₂
        | external base cmdStr => exact runExternal_shadows base cmdStr h₂
      exact hcmd.seq fun _ w₃ v₃ h₃ => removeFinishedJobs_calm w₃ v₃ h₃

theorem smash_shadows (turns : List Turn) (h : EvenTable w v) :
    Shadows (smash turns) w v EvenTable := by
  induction turns generalizing w v with
  | nil => exact h
  | cons turn turns ih =>
      have hprompt : (cout (turn.name ++ "> ".toList)).Makes Plain :=
        makes_sys ⟨trivial, trivial⟩
      refine (h.makes hprompt).seq fun _ w₁ v₁ h₁ => ?_
      have hexecute := (executeCommand_shadows turn.depth turn.cmdLine h₁).and_post
        (executeCommand_post turn.depth turn.cmdLine h₁.table) fun _ _ => id
      exact hexecute.seq fun _ w₂ v₂ h₂ => ih ⟨h₂.1, h₂.2⟩

/-! ## A run -/

/-- The shell while it waits for its first foreground command. -/
def waitingShell : World where
  memory := ⟨[], [], 0, 100, 101⟩
  children := {101}
  exited := ∅
  fds := freshShell.fds
  history := []

/-- The rest of a foreground command, once it has waited. -/
def afterWait (result : WaitResult) : ShellM Unit := do
  setForegroundPid (-1)
  when (result.isError = true) (sys (.perror "smash error: waitpid failed"))

theorem runForeground_waits (base : CommandData) :
    ReflTransGen (Advance Step) (runForeground base, freshShell)
      (sys (.waitpid 101 false) >>= afterWait, waitingShell) := by
  have hfork : Runs Step (sys .fork) freshShell (101 : ℤ)
      { freshShell with children := {101} } :=
    runs_perform.mpr (Step.of_effect (Or.inr ⟨by decide, by decide, rfl⟩))
  refine hfork.advance.trans ?_
  rw [if_neg (by decide), if_pos (by decide)]
  apply Runs.advance (a := ())
  exact Runs.call (Step.of_effect ⟨rfl, rfl⟩) (runs_perform.mpr (Step.of_effect rfl))

/-- A foreground command that waits. -/
theorem smash_waits (name line : Text) {cmdStr : Text} {base : CommandData}
    (hcreate : createCommand [] (convertAliasToOriginal [] line) (trim line) =
      some (.external base cmdStr))
    (hforeground : base.isBackgroundCmd = some false) :
    ∃ next, ReflTransGen (Advance Step) (smash [⟨name, line, 1⟩], freshShell)
      (.call (.waitpid 101 false) next, waitingShell) := by
  have hprompt : Runs Step (cout (name ++ "> ".toList)) freshShell () freshShell :=
    runs_perform.mpr (Step.of_effect rfl)
  have hfinished : Runs Step removeFinishedJobs freshShell () freshShell :=
    freshShell_idle.runs
  have hget : Runs Step (sys .get) freshShell freshShell.memory freshShell :=
    runs_perform.mpr (Step.of_effect ⟨rfl, rfl⟩)
  have hkind : Runs Step (isBackground base) freshShell false freshShell := by
    rw [isBackground, hforeground]
    exact ⟨rfl, rfl⟩
  have hcommand : ReflTransGen (Advance Step)
      (runCommand (executeCommand 0) 0 (.external base cmdStr), freshShell)
      (sys (.waitpid 101 false) >>= afterWait, waitingShell) := by
    refine hkind.advance.trans ?_
    rw [if_neg (by decide)]
    exact runForeground_waits base
  have hexecute : ReflTransGen (Advance Step) (executeCommand 1 line, freshShell)
      ((sys (.waitpid 101 false) >>= afterWait) >>= fun _ => removeFinishedJobs,
        waitingShell) := by
    rw [executeCommand]
    refine hfinished.advance.trans (hget.advance.trans ?_)
    dsimp only
    rw [show freshShell.memory.aliases = [] from rfl, hcreate]
    exact Advance.seq hcommand
  exact ⟨_, hprompt.advance.trans (Advance.seq hexecute)⟩

theorem createCommand_sleep : createCommand [] (convertAliasToOriginal [] "sleep 5".toList)
    (trim "sleep 5".toList) = some (.external (command "sleep 5".toList) "sleep 5".toList) := by
  decide +kernel

/-! ## ctrl-C -/

theorem EvenTable.stable (w : World) : Stable Step ctrlCHandler (EvenTable w) :=
  fun v v' h hruns => ⟨Even.stable w v v' h.toEven hruns, h.table⟩

/-- Wherever a run of the shell with ctrl-C comes, it comes without ctrl-C, with the
same rest of the program, history, children and descriptors: only the number of the
foreground process may have been cleared, and children may have ended.  At the prompt
there is no foreground process. -/
theorem ctrlC_transparent {s t : World} {turns : List Turn} {p : ShellM Unit}
    (hboot : Boot s) (hfg : s.memory.fgPid = -1)
    (hrun : ReflTransGen (Move Step ctrlCHandler) (smash turns, s) (p, t)) :
    ∃ s', ReflTransGen (Advance Step) (smash turns, s) (p, s') ∧
      t.history = s'.history ∧ t.children = s'.children ∧ t.fds = s'.fds ∧
      t.memory = { s'.memory with fgPid := t.memory.fgPid } ∧
      (t.memory.fgPid = s'.memory.fgPid ∨ t.memory.fgPid = -1) ∧
      (p = pure () → t.memory = s'.memory ∧ t.memory.fgPid = -1) := by
  have hstart : EvenTable s s := .refl hfg hboot.table
  obtain ⟨s', hadvance, hcall, hend⟩ :=
    (smash_shadows turns hstart).reach EvenTable.stable hrun
  obtain ⟨fg, hfg', hfades⟩ : ∃ fg, (fg = s'.memory.fgPid ∨ fg = -1) ∧ Fades s' fg t := by
    cases p with
    | pure a => exact ⟨-1, Or.inr rfl, (hend a rfl).fades⟩
    | call o next => exact (hcall o next rfl).fades
  have hmemory := hfades.memory_eq
  refine ⟨s', hadvance, hfades.history_eq, hfades.children_eq, hfades.fds_eq, ?_, ?_, ?_⟩
  · rw [hmemory]
  · rwa [hmemory]
  · intro hp
    have heven := hend () hp
    rw [heven.fades.memory_eq]
    exact ⟨by rw [← heven.fgPid_eq], rfl⟩

/-- ctrl-C while the shell waits. -/
theorem ctrlC_transparent_sleep :
    ∃ p s', ReflTransGen (Advance Step) (smash [⟨"smash".toList, "sleep 5".toList, 1⟩],
        freshShell) (p, s') ∧ s'.history = [] ∧ s'.children = {101} := by
  obtain ⟨next, hrun⟩ := smash_waits "smash".toList "sleep 5".toList createCommand_sleep
    (by decide +kernel)
  have hhandler : Runs Step ctrlCHandler waitingShell () (waitingShell.setFgPid (-1)) := by
    refine Runs.call (Step.of_effect ⟨rfl, rfl⟩) (Runs.call (x := ()) (Step.of_effect rfl) ?_)
    rw [when, if_pos (by decide)]
    refine Runs.call (x := true) (Step.of_effect rfl) ?_
    rw [if_pos rfl]
    refine Runs.call (x := ()) (Step.of_effect rfl) ?_
    exact Runs.call (Step.of_effect ⟨rfl, rfl⟩) (runs_perform.mpr (Step.of_effect rfl))
  obtain ⟨s', hadvance, hhistory, hchildren, -⟩ := ctrlC_transparent freshShell_boot rfl
    ((Advance.moves hrun).tail (.interrupt hhandler))
  exact ⟨_, s', hadvance, hhistory.symm, hchildren.symm⟩

/-- Calls that are no signal. -/
def NoSignal : Sys → Prop
  | .kill _ _ => False
  | _ => True

/-- The handler signals the foreground process, if there is one. -/
theorem ctrlCHandler_guards (t : World) :
    Guards Step (fun _ o => ∀ pid sig, o = .kill pid sig →
      sig = SIGINT ∧ pid = t.memory.fgPid ∧ 0 < pid) ctrlCHandler t := by
  have hnone (o : Sys) (ho : NoSignal o) pid sig (heq : o = .kill pid sig) :
      sig = SIGINT ∧ pid = t.memory.fgPid ∧ 0 < pid := by
    rw [heq] at ho
    exact ho.elim
  have hset : (setForegroundPid (-1)).Makes NoSignal :=
    Prog.Makes.call trivial fun _ => makes_sys trivial
  refine Guards.call nofun fun m t₁ hget => ?_
  obtain ⟨rfl, -⟩ := hget.get_fades
  refine Guards.call nofun fun _ t₂ _ => ?_
  rw [when]
  split
  · next hpos =>
    refine Guards.call ?_ fun sent t₃ _ => ?_
    · rintro _ _ ⟨rfl, rfl⟩
      exact ⟨rfl, rfl, hpos⟩
    · refine Guards.makes (C := NoSignal) ?_ fun _ => hnone
      split
      · exact Prog.Makes.call trivial fun _ => hset
      · exact Prog.Makes.call trivial fun _ => hset
  · trivial

/-- Signals in runs of the shell with ctrl-C: commands send them to background jobs of
the table that can still be waited for; the handler sends SIGINT only, not at the
prompt, and only to the foreground process, which is no background job and can still
be waited for, unless the last thing that happened is that it was. -/
theorem signals_sent {s t : World} {turns : List Turn} {p : ShellM Unit}
    (hboot : Boot s) (hfg : s.memory.fgPid = -1)
    (hrun : ReflTransGen (Move Step ctrlCHandler) (smash turns, s) (p, t)) :
    (∀ pid sig next, p = .call (.kill pid sig) next → pid ∈ t.children ∧
      ∃ job ∈ t.memory.jobList, job.pid = pid ∧ (pid, job.cmdStr) ∈ pending t.history) ∧
    ∀ t' pid sig next, ReflTransGen (Advance Step) (ctrlCHandler, t)
        (.call (.kill pid sig) next, t') →
      p ≠ pure () ∧ sig = SIGINT ∧ pid = t.memory.fgPid ∧
      pid ∉ (pending t.history).map Prod.fst ∧
      (pid ∈ t.children ∨ t.history.getLast? = some (.terminated pid)) := by
  have hstart : EvenTable s s := .refl hfg hboot.table
  obtain ⟨s', hadvance, hcall, hend⟩ :=
    (smash_shadows turns hstart).reach EvenTable.stable hrun
  refine ⟨?_, ?_⟩
  · rintro pid sig next rfl
    have hwatch := hcall _ next rfl
    obtain ⟨fg, -, hfades⟩ := hwatch.fades
    obtain ⟨-, hchild, job, hjob, rfl, hpending⟩ := hwatch.signalled pid sig rfl
    rw [hfades.children_eq, hfades.memory_eq, hfades.history_eq]
    exact ⟨hchild, job, hjob, rfl, hpending⟩
  · intro t' pid sig next hhandler
    obtain ⟨hsig, hpid, hpos⟩ := (ctrlCHandler_guards t).reach hhandler rfl pid sig rfl
    cases p with
    | pure a =>
        have heven := hend a rfl
        rw [heven.fades.fgPid_eq] at hpid
        omega
    | call o next =>
        have hwatch := hcall o next rfl
        obtain ⟨fg, hfg', hfades⟩ := hwatch.fades
        rw [hfades.fgPid_eq] at hpid
        -- The number was not cleared, so that it is the one without ctrl-C.
        have hpid' : pid = s'.memory.fgPid := by
          rcases hfg' with rfl | rfl
          · exact hpid
          · exact absurd hpid (by omega)
        have hin := hwatch.foreground (hpid' ▸ hpos)
        rw [← hpid'] at hin
        rw [hfades.children_eq, hfades.fgPid_eq, hfades.history_eq]
        exact ⟨nofun, hsig, hpid, hin.not_pending, hin.alive⟩

/-- The process that is waited for is the one that gets the signal. -/
theorem signals_sent_sleep :
    ∃ next t', ReflTransGen (Advance Step) (ctrlCHandler, waitingShell)
        (.call (.kill 101 SIGINT) next, t') ∧
      (101 : ℤ) ∉ (pending waitingShell.history).map Prod.fst := by
  obtain ⟨next, hrun⟩ := smash_waits "smash".toList "sleep 5".toList createCommand_sleep
    (by decide +kernel)
  have hget : Runs Step (sys .get) waitingShell waitingShell.memory waitingShell :=
    runs_perform.mpr (Step.of_effect ⟨rfl, rfl⟩)
  have hprint : Runs Step (cout "smash: got ctrl-C".toList) waitingShell () waitingShell :=
    runs_perform.mpr (Step.of_effect rfl)
  have hhandler := (hget.advance (f := fun m => do
      cout "smash: got ctrl-C".toList
      when (m.fgPid > 0) (do
        if ← sys (.kill m.fgPid SIGINT) then
          cout ("smash: process ".toList ++ decimal m.fgPid ++ " was killed".toList)
        else sys (.perror "smash error: kill failed")
        setForegroundPid (-1)))).trans hprint.advance
  rw [when, if_pos (by decide)] at hhandler
  have hsent := (signals_sent freshShell_boot rfl (Advance.moves hrun)).2 _ _ _ _ hhandler
  exact ⟨_, _, hhandler, hsent.2.2.2.1⟩

end OsCoursework.Shell
