import Mathlib.Logic.Relation
import OsCoursework.Shell.JobRules

/-!
# The job table in runs of the shell

Every command keeps the table, those that start or end jobs by the rules for their
calls and the others because they leave jobs alone: in all runs the job list is what
the history asks for, in ascending order of ids.
-/

namespace OsCoursework.Shell

open OsCoursework.Calls

variable {s s' : World}

/-! ## Commands -/

/-- A job of the table comes to the foreground and leaves it. -/
theorem bringToForeground_post {job : JobEntry} (h : Table s)
    (hjob : job ∈ s.memory.jobList) :
    Post Step (bringToForeground job) s fun _ s' => Table s' := by
  obtain ⟨done, rest, hsplit⟩ := List.append_of_mem hjob
  have hlisted := h.listed
  rw [Listed, hsplit] at hlisted
  refine Post.call fun _ s₁ hstep => ?_
  obtain ⟨ended, -, heq⟩ := hstep
  have h₁ : Holds (done ++ job :: rest) (done ++ rest) [] s.memory.maxJobId s₁ := by
    subst heq
    exact ⟨hsplit, rfl, hlisted.drop_job (Or.inr rfl) rfl fun _ hp _ => hp⟩
  have hpid : job.pid ∉ ((done ++ rest).map JobEntry.key ++ []).map Prod.fst := by
    have hnodup := hlisted.pids_nodup
    simp only [List.append_nil, List.map_append, List.map_cons] at hnodup ⊢
    have hperm := (List.perm_middle.nodup_iff).mp hnodup
    exact (List.nodup_cons.mp hperm).1
  refine Post.seq (h₁.setForegroundPid job.pid) fun _ s₂ h₂ => ?_
  refine Post.seq (h₂.makes (makes_sys trivial)) fun _ s₃ h₃ => ?_
  refine Post.seq (h₃.waitpid hpid) fun result s₄ h₄ => ?_
  refine Post.seq (h₄.makes (makes_when (makes_sys trivial)))
    fun _ s₅ h₅ => ?_
  refine Post.seq (h₅.setForegroundPid (-1)) fun _ s₆ h₆ => ?_
  exact removeJobById_post hlisted.ascending h₆

theorem foregroundExecute_post (h : Table s) (cmd : CommandData) :
    Post Step (foregroundExecute cmd) s fun _ s' => Table s' := by
  refine h.holds.get fun m s₁ hjobs hmax hm h₁ => ?_
  have ht : Table s₁ := by
    rw [h.maxJobId_eq] at h₁
    exact h₁.table
  have hjobs₁ : s₁.memory.jobList = m.jobList := by rw [hm]
  split
  · split
    · exact ht.makes (makes_sys trivial)
    · next job hlast =>
      apply bringToForeground_post ht
      rw [hjobs₁]
      exact List.mem_of_getLast? hlast
  · split
    · exact ht.makes (makes_sys trivial)
    · refine post_ofOption fun jobId _ => ?_
      split
      · exact ht.makes (makes_sys trivial)
      · next job hfind =>
        apply bringToForeground_post ht
        rw [hjobs₁]
        exact List.mem_of_find?_eq_some hfind

theorem killExecute_makes (cmd : CommandData) : (killExecute cmd).Makes LeavesJobs := by
  refine Prog.Makes.call trivial fun m => ?_
  split
  · split
    · exact makes_sys trivial
    · refine Prog.Makes.bind (makes_ofOption _ trivial) fun numbers => ?_
      split
      · exact makes_sys trivial
      · split
        · exact makes_sys trivial
        · refine Prog.Makes.call trivial fun sent => ?_
          exact Prog.Makes.call trivial fun _ => makes_when (makes_sys trivial)
  · exact makes_sys trivial

theorem printJobsList_post (h : Table s) :
    Post Step printJobsList s fun _ s' => Table s' := by
  refine Post.seq (removeFinishedJobs_post h.listed) ?_
  rintro _ s₁ ⟨h₁, hmax₁⟩
  have ht : Table s₁ := ⟨h₁, hmax₁⟩
  refine ht.makes (Prog.Makes.call trivial fun m => ?_)
  exact makes_printAll (fun _ => trivial) _

theorem aliasTableExecute_post (h : Table s) (f : AliasTable → AliasTable × List Output) :
    Post Step (aliasTableExecute f) s fun _ s' => Table s' := by
  refine h.holds.get fun m s₁ hjobs hmax _ h₁ => ?_
  refine Post.seq h₁.put fun _ s₂ h₂ => ?_
  rw [show Memory.jobList { m with aliases := (f m.aliases).1 } = s.memory.jobList from
    hjobs, show Memory.maxJobId { m with aliases := (f m.aliases).1 } =
    s.memory.maxJobId from hmax, h.maxJobId_eq] at h₂
  exact h₂.table.makes (makes_printAll (fun _ => trivial) _)

/-! ## Commands that read files -/

/-- The calls of the commands that read files. -/
def FileCall : Sys → Prop
  | .print _ => True
  | .perror _ => True
  | .undetermined => True
  | .undefined => True
  | .openFile _ _ => True
  | .close _ => True
  | .read _ => True
  | .getdents _ => True
  | .lstat _ => True
  | .note (.failed _) => True
  | _ => False

theorem FileCall.leavesJobs {o : Sys} (h : FileCall o) : LeavesJobs o := by
  cases o with
  | note e =>
      cases e with
      | failed call => trivial
      | _ => exact h.elim
  | put m => exact h.elim
  | fork => exact h.elim
  | waitpid pid nohang => exact h.elim
  | _ => trivial

section Files

open Prog.Makes

theorem readFile_makes (path : Text) : (readFile path).Makes FileCall := by
  refine call trivial fun fd => ?_
  cases fd with
  | none => exact Prog.Makes.pure
  | some fd =>
      exact call trivial fun _ => call trivial fun _ =>
        Prog.Makes.pure

theorem readStream_makes (path : String) : (readStream path).Makes FileCall := by
  refine call trivial fun fd => ?_
  cases fd with
  | none => exact Prog.Makes.pure
  | some fd =>
      exact call trivial fun _ => call trivial fun _ =>
        Prog.Makes.pure

theorem findInFile_makes (path : String) : (findInFile path).Makes FileCall := by
  refine call trivial fun fd => ?_
  cases fd with
  | none => exact call trivial fun _ => Prog.Makes.pure
  | some fd =>
      refine call trivial fun text => ?_
      cases text with
      | none =>
          exact call trivial fun _ => call trivial fun _ =>
            Prog.Makes.pure
      | some text =>
          refine call trivial fun closed => makes_ite (makes_sys trivial) ?_
          exact call trivial fun _ => Prog.Makes.pure

theorem whoAmIExecute_makes : whoAmIExecute.Makes FileCall := by
  refine bind (findInFile_makes _) fun found => makes_ite ?_ Prog.Makes.pure
  exact bind (findInFile_makes _) fun _ => Prog.Makes.pure

theorem sysInfoExecute_makes : sysInfoExecute.Makes FileCall :=
  bind (readStream_makes _) fun _ => bind (readStream_makes _) fun _ =>
    bind (readStream_makes _) fun _ => readStream_makes _

theorem unSetEnvExecute_makes (cmd : CommandData) :
    (unSetEnvExecute cmd).Makes FileCall := by
  unfold unSetEnvExecute
  cases cmd.args[1]? with
  | none => exact makes_sys trivial
  | some name =>
      refine call trivial fun fd => ?_
      cases fd with
      | none => exact makes_sys trivial
      | some fd =>
          refine call trivial fun text => ?_
          cases text with
          | none => exact call trivial fun _ => makes_sys trivial
          | some text =>
              exact call trivial fun _ => makes_when (makes_sys trivial)

theorem addEntries_makes {visit : Text → ShellM ℕ}
    (hvisit : ∀ path, (visit path).Makes FileCall) (path : Text) (names : List Text)
    (total : ℕ) : (addEntries visit path names total).Makes FileCall := by
  induction names generalizing total with
  | nil => exact Prog.Makes.pure
  | cons name names ih =>
      refine makes_ite (ih total) (call trivial fun st => ?_)
      cases st with
      | none => exact call trivial fun _ => ih total
      | some st => exact makes_ite (bind (hvisit _) fun size => ih _) (ih _)

theorem dirLoop_makes {visit : Text → ShellM ℕ}
    (hvisit : ∀ path, (visit path).Makes FileCall) (path : Text) (fd rounds total : ℕ) :
    (dirLoop visit path fd rounds total).Makes FileCall := by
  induction rounds generalizing total with
  | zero => exact makes_undefined trivial
  | succ rounds ih =>
      refine call trivial fun names => ?_
      match names with
      | none => exact call trivial fun _ => Prog.Makes.pure
      | some [] => exact Prog.Makes.pure
      | some (name :: names) =>
          exact bind (addEntries_makes hvisit path _ total) fun total => ih total

theorem getDirSize_makes (depth : ℕ) (path : Text) :
    (getDirSize depth path).Makes FileCall := by
  induction depth generalizing path with
  | zero => exact makes_undefined trivial
  | succ depth ih =>
      refine call trivial fun fd => ?_
      cases fd with
      | none => exact call trivial fun _ => Prog.Makes.pure
      | some fd =>
          refine bind (dirLoop_makes ih path _ depth 0) fun total => ?_
          exact call trivial fun _ => Prog.Makes.pure

theorem diskUsageExecute_makes (depth : ℕ) (cmd : CommandData) :
    (diskUsageExecute depth cmd).Makes FileCall :=
  makes_ite (makes_sys trivial)
    (bind (getDirSize_makes depth _) fun _ => makes_sys trivial)

theorem readDevice_makes (devPath : Text) : (readDevice devPath).Makes FileCall := by
  refine bind (readFile_makes _) fun found => makes_ite ?_ Prog.Makes.pure
  exact bind (readFile_makes _) fun _ => bind (readFile_makes _) fun _ =>
    bind (readFile_makes _) fun _ => bind (readFile_makes _) fun _ =>
    bind (readFile_makes _) fun _ => Prog.Makes.pure

theorem readDevices_makes (base : Text) (names : List Text) :
    (readDevices base names).Makes FileCall := by
  induction names with
  | nil => exact Prog.Makes.pure
  | cons name names ih =>
      refine makes_ite ih (call trivial fun isDir => ?_)
      exact bind (makes_when (readDevice_makes _)) fun _ => ih

theorem usbInfoExecute_makes : usbInfoExecute.Makes FileCall := by
  refine call trivial fun fd => ?_
  cases fd with
  | none => exact makes_sys trivial
  | some dir =>
      refine call trivial fun names => ?_
      refine bind (readDevices_makes _ _) fun _ => ?_
      exact call trivial fun _ => Prog.Makes.pure

end Files

theorem builtInExecute_post (h : Table s) (depth : ℕ) (b : BuiltIn) (cmd : CommandData) :
    Post Step (builtInExecute depth b cmd) s fun _ s' => Table s' := by
  unfold builtInExecute
  split
  · exact aliasTableExecute_post h _
  · exact aliasTableExecute_post h _
  · exact printJobsList_post h
  · exact foregroundExecute_post h cmd
  · exact quitExecute_post cmd
  · exact h.makes (killExecute_makes cmd)
  · exact h.makes ((unSetEnvExecute_makes cmd).mono fun _ => FileCall.leavesJobs)
  · exact h.makes (sysInfoExecute_makes.mono fun _ => FileCall.leavesJobs)
  · exact h.makes ((diskUsageExecute_makes depth cmd).mono fun _ => FileCall.leavesJobs)
  · exact h.makes (whoAmIExecute_makes.mono fun _ => FileCall.leavesJobs)
  · exact h.makes (usbInfoExecute_makes.mono fun _ => FileCall.leavesJobs)
  all_goals exact h.makes Prog.Makes.pure

/-! ## Processes -/

theorem runForeground_post (h : Table s) (base : CommandData) :
    Post Step (runForeground base) s fun _ s' => Table s' := by
  have hh := h.holds
  rw [h.maxJobId_eq] at hh
  refine hh.fork (fun s₁ h₁ => ?_) fun pid s₁ hpos _ hpid h₁ => ?_
  · exact h₁.table.makes (makes_sys trivial)
  · rw [if_neg hpos.ne', if_pos hpos]
    refine Post.seq (h₁.setForegroundPid pid) fun _ s₂ h₂ => ?_
    refine Post.seq (h₂.waitpid hpid) fun result s₃ h₃ => ?_
    refine Post.seq (h₃.setForegroundPid (-1)) fun _ s₄ h₄ => ?_
    exact h₄.table.makes (makes_when (makes_sys trivial))

theorem runBackground_post (h : Table s) (base : CommandData) (cmdStr : Text) :
    Post Step (runBackground base cmdStr) s fun _ s' => Table s' := by
  have hh := h.holds
  rw [h.maxJobId_eq] at hh
  refine hh.fork (fun s₁ h₁ => ?_) fun pid s₁ hpos hchild hpid h₁ => ?_
  · exact h₁.table.makes (makes_sys trivial)
  · rw [if_neg hpos.ne', if_pos hpos]
    rw [List.append_nil] at hpid
    refine Post.call fun _ s₂ hstep => ?_
    obtain ⟨ended, -, rfl⟩ := hstep
    apply addJob_post
    rw [Listed, show World.memory { s₁ with
      exited := s₁.exited ∪ ended
      history := s₁.history ++ [.launched pid cmdStr] } = s₁.memory from rfl,
      h₁.jobList_eq]
    exact h₁.tracked.launch hpid hchild rfl rfl

theorem runExternal_post (h : Table s) (base : CommandData) (cmdStr : Text) :
    Post Step (runExternal base cmdStr) s fun _ s' => Table s' := by
  have hbackground : (isBackground base).Makes LeavesJobs := by
    unfold isBackground
    split
    · exact Prog.Makes.pure
    · exact makes_sys trivial
  refine Post.seq (h.makes hbackground) fun background s₁ h₁ => ?_
  split
  · exact runBackground_post h₁ base cmdStr
  · exact runForeground_post h₁ base

theorem pipeExecute_post (h : Table s) (run : Text → ShellM Unit) (cmd : PipeCommand) :
    Post Step (pipeExecute run cmd) s fun _ s' => Table s' := by
  refine Post.seq (h.makes (makes_sys trivial)) fun ends s₁ h₁ => ?_
  split
  · exact h₁.makes (makes_sys trivial)
  · have hh := h₁.holds
    rw [h₁.maxJobId_eq] at hh
    have hfailed {s : World} (call : Failure) (ht : Table s) :
        Post Step (do sys (.perror "smash error: fork failed"); sys (.note (.failed call)))
          s fun _ s' => Table s' :=
      ht.makes (Prog.Makes.call trivial fun _ => makes_sys trivial)
    refine hh.fork (fun s₂ h₂ => ?_) fun pid1 s₂ hpos1 _ hpid1 h₂ => ?_
    · exact hfailed .pipeFork1 h₂.table
    · rw [if_neg hpos1.not_gt, if_neg hpos1.ne']
      refine h₂.fork (fun s₃ h₃ => ?_) fun pid2 s₃ hpos2 _ hpid2 h₃ => ?_
      · exact hfailed .pipeFork2 h₃.table
      · rw [if_neg hpos2.not_gt, if_neg hpos2.ne']
        refine Post.seq (h₃.makes (makes_sys trivial)) fun _ s₄ h₄ => ?_
        refine Post.seq (h₄.makes (makes_sys trivial)) fun _ s₅ h₅ => ?_
        refine Post.seq (h₅.waitpid hpid1) fun _ s₆ h₆ => ?_
        refine Post.seq (h₆.waitpid hpid2) fun _ s₇ h₇ => ?_
        exact Post.pure h₇.table

theorem restoreStdout_makes (fd : ℕ) : (restoreStdout fd).Makes LeavesJobs :=
  Prog.Makes.call trivial fun _ => Prog.Makes.call trivial fun _ =>
    makes_when (makes_sys trivial)

theorem closeFiles_makes (fd fd' : ℕ) : (closeFiles fd fd').Makes LeavesJobs := by
  refine Prog.Makes.call trivial fun ok => makes_ite ?_ (makes_sys trivial)
  exact Prog.Makes.call trivial fun _ => makes_when (makes_sys trivial)

theorem redirectionExecute_post (h : Table s) {run : Text → ShellM Unit}
    (hrun : ∀ line s, Table s → Post Step (run line) s fun _ s' => Table s')
    (cmd : RedirectionCommand) :
    Post Step (redirectionExecute run cmd) s fun _ s' => Table s' := by
  refine Post.seq (h.makes (makes_sys trivial)) fun ogStdout s₁ h₁ => ?_
  split
  · exact h₁.makes (makes_sys trivial)
  · refine Post.seq (h₁.makes (makes_sys trivial)) fun newFileFD s₂ h₂ => ?_
    split
    · exact h₂.makes (Prog.Makes.call trivial fun _ => makes_sys trivial)
    · refine Post.seq (h₂.makes (makes_sys trivial)) fun ok s₃ h₃ => ?_
      split
      · refine Post.seq (hrun _ s₃ h₃) fun _ s₄ h₄ => ?_
        refine Post.seq (h₄.makes (restoreStdout_makes _)) fun _ s₅ h₅ => ?_
        exact h₅.makes (closeFiles_makes _ _)
      · refine h₃.makes (Prog.Makes.call trivial fun _ => ?_)
        refine Prog.Makes.call trivial fun _ => ?_
        exact Prog.Makes.bind (makes_when (makes_sys trivial)) fun _ => makes_sys trivial

/-! ## Whole commands -/

theorem executeCommand_post (depth : ℕ) (cmdLine : Text) (h : Table s) :
    Post Step (executeCommand depth cmdLine) s fun _ s' => Table s' := by
  induction depth generalizing cmdLine s with
  | zero => exact post_undefined
  | succ depth ih =>
      refine Post.seq (removeFinishedJobs_post h.listed) ?_
      rintro _ s₁ ⟨h₁, hmax₁⟩
      refine Post.seq ((Table.mk h₁ hmax₁).makes (makes_sys trivial)) fun m s₂ h₂ => ?_
      refine post_ofOption fun cmd _ => ?_
      have hcmd : Post Step (runCommand (executeCommand depth) depth cmd) s₂
          fun _ s' => Table s' := by
        cases cmd with
        | builtIn b cmd => exact builtInExecute_post h₂ depth b cmd
        | pipe cmd => exact pipeExecute_post h₂ _ cmd
        | redirection cmd =>
            exact redirectionExecute_post h₂ (fun line s hs => ih line hs) cmd
        | external base cmdStr => exact runExternal_post h₂ base cmdStr
      refine Post.seq hcmd fun _ s₃ h₃ => ?_
      refine (removeFinishedJobs_post h₃.listed).mono ?_
      rintro _ s₄ ⟨h₄, hmax₄⟩
      exact ⟨h₄, hmax₄⟩

/-- The shell reads a line and executes it. -/
def CommandStep (s s' : World) : Prop :=
  ∃ depth cmdLine, Runs Step (executeCommand depth cmdLine) s () s'

/-- A shell that has not executed anything. -/
structure Boot (s : World) : Prop where
  jobList_eq : s.memory.jobList = []
  maxJobId_eq : s.memory.maxJobId = 0
  history_eq : s.history = []

theorem Boot.table (h : Boot s) : Table s := by
  refine ⟨?_, ?_⟩
  · rw [Listed, h.jobList_eq]
    refine ⟨List.Pairwise.nil, List.nodup_nil, by simp, ?_, ?_⟩
    · rw [h.history_eq]
      rfl
    · rw [h.history_eq]
      simp
  · rw [h.maxJobId_eq, h.jobList_eq]
    rfl

theorem Boot.reachable_table (h : Boot s)
    (hrun : Relation.ReflTransGen CommandStep s s') : Table s' := by
  induction hrun with
  | refl => exact h.table
  | tail _ hstep ih =>
      obtain ⟨depth, cmdLine, hruns⟩ := hstep
      exact executeCommand_post depth cmdLine ih _ _ hruns

/-- After every command the job list is strictly ascending by id and without repeated
ids or process numbers, `maxJobId` is its last id or 0, each job that was added got
the next id of the jobs then left, and the list has exactly the jobs launched in the
background that have neither been observed to end nor been brought to the
foreground since, with the process number and the text of their launch. -/
theorem job_table_in_every_run {s₀ s : World} (hboot : Boot s₀)
    (hrun : Relation.ReflTransGen CommandStep s₀ s) :
    s.memory.jobList.Pairwise (·.jobId < ·.jobId) ∧
    (s.memory.jobList.map JobEntry.jobId).Nodup ∧
    (s.memory.jobList.map JobEntry.pid).Nodup ∧
    s.memory.maxJobId = (match s.memory.jobList.getLast? with
      | some job => job.jobId
      | none => 0) ∧
    (∀ job others, .added job others ∈ s.history →
      (∀ other ∈ others, other.jobId < job.jobId) ∧
      (others = [] ∧ job.jobId = 1 ∨ ∃ other ∈ others, job.jobId = other.jobId + 1)) ∧
    ∀ pid cmdStr,
      (∃ job ∈ s.memory.jobList, job.pid = pid ∧ job.cmdStr = cmdStr) ↔
        ∃ pre post, s.history = pre ++ .launched pid cmdStr :: post ∧
          .terminated pid ∉ post ∧ .foregrounded pid ∉ post := by
  have htable := hboot.reachable_table hrun
  have htracked : Tracked s.memory.jobList [] s := htable.listed
  have hpids := htracked.pids_nodup
  rw [List.append_nil, List.map_map] at hpids
  refine ⟨htracked.ascending, ?_, hpids, htable.maxJobId_eq, htracked.next_id, ?_⟩
  · exact (List.pairwise_map.mpr htracked.ascending).imp fun hlt => hlt.ne
  · intro pid cmdStr
    rw [← mem_pending_iff, htracked.pending_eq, List.append_nil, List.mem_map]
    refine exists_congr fun job => and_congr_right fun _ => ?_
    rw [JobEntry.key, Prod.mk.injEq]

/-! ## A run -/

/-- All jobs run, and the list is in order. -/
structure Idle (s : World) : Prop where
  running : ∀ job ∈ s.memory.jobList, job.pid ∈ s.children
  exited_eq : s.exited = ∅
  ascending : s.memory.jobList.Pairwise (·.jobId < ·.jobId)
  maxJobId_eq : s.memory.maxJobId = backId s.memory.jobList

theorem runs_reapLoop {jobs : List JobEntry} (hrunning : ∀ job ∈ jobs, job.pid ∈ s.children)
    (hexited : s.exited = ∅) : Runs Step (reapLoop jobs) s jobs s := by
  induction jobs with
  | nil => exact ⟨rfl, rfl⟩
  | cons job jobs ih =>
      have hwait : Step s (.waitpid job.pid true) WaitResult.running s :=
        Step.of_effect ⟨rfl, hrunning job List.mem_cons_self, by simp [hexited], rfl⟩
      have hfinished : Runs Step (isJobFinished job) s false s :=
        Runs.call hwait ⟨rfl, rfl⟩
      refine Runs.seq hfinished (Runs.seq (ih fun job hjob => ?_) ⟨rfl, rfl⟩)
      exact hrunning job (List.mem_cons_of_mem _ hjob)

/-- The jobs that the loop leaves become the list. -/
theorem runs_removeFinishedJobs {jobs : List JobEntry}
    (hloop : Runs Step (reapLoop s.memory.jobList) s jobs s')
    (hasc : jobs.Pairwise (·.jobId < ·.jobId)) :
    Runs Step removeFinishedJobs s ()
      { s' with memory := { s.memory with jobList := jobs, maxJobId := backId jobs } } := by
  refine Runs.call (Step.of_effect ⟨rfl, rfl⟩) (Runs.call (Step.of_effect ⟨rfl, rfl⟩) ?_)
  rw [if_neg (not_not.mpr rfl)]
  refine Runs.seq hloop (runs_perform.mpr (Step.of_effect ?_))
  rw [sortJobs_eq hasc]
  rfl

/-- Jobs that all run are left as they are. -/
theorem Idle.runs (h : Idle s) : Runs Step removeFinishedJobs s () s := by
  have hruns := runs_removeFinishedJobs (runs_reapLoop h.running h.exited_eq) h.ascending
  rwa [← h.maxJobId_eq] at hruns

/-- The state after one more command in the background. -/
def World.launch (s : World) (pid : ℤ) (cmdStr : Text) : World :=
  { s with
    memory := { s.memory with
      jobList := s.memory.jobList ++ [⟨s.memory.maxJobId + 1, pid, cmdStr⟩]
      maxJobId := s.memory.maxJobId + 1 }
    children := insert pid s.children
    history := s.history ++ [.launched pid cmdStr] ++
      [.added ⟨s.memory.maxJobId + 1, pid, cmdStr⟩ s.memory.jobList] }

theorem Idle.launch (h : Idle s) (pid : ℤ) (cmdStr : Text) : Idle (s.launch pid cmdStr) where
  running := by
    intro job hjob
    rcases List.mem_append.mp hjob with hjob | hjob
    · exact Finset.mem_insert_of_mem (h.running job hjob)
    · rw [List.mem_singleton.mp hjob]
      exact Finset.mem_insert_self pid s.children
  exited_eq := h.exited_eq
  ascending := by
    refine List.pairwise_append.mpr ⟨h.ascending, List.pairwise_singleton _ _, ?_⟩
    intro job hjob new hnew
    rw [List.mem_singleton.mp hnew, h.maxJobId_eq]
    exact (isNextId_backId h.ascending).1 job hjob
  maxJobId_eq := by
    change _ = backId (s.memory.jobList ++ [_])
    rw [backId, List.getLast?_concat]
    rfl

/-- A command in the background is launched. -/
theorem Idle.runs_launch (h : Idle s) (pid : ℤ) (hpos : 0 < pid)
    (hnew : pid ∉ s.children) (hroom : s.memory.maxJobId + 1 ≤ intMax) (line : Text)
    {cmdStr : Text}
    {base : CommandData}
    (hcreate : createCommand s.memory.aliases
      (convertAliasToOriginal s.memory.aliases line) (trim line) =
        some (.external base cmdStr))
    (hbackground : base.isBackgroundCmd = some true) :
    Runs Step (executeCommand 1 line) s () (s.launch pid cmdStr) := by
  rw [executeCommand]
  apply Runs.seq h.runs
  refine Runs.call (Step.of_effect ⟨rfl, rfl⟩) ?_
  dsimp only
  rw [hcreate]
  refine Runs.seq (a := Command.external base cmdStr) ⟨rfl, rfl⟩ ?_
  have hisBackground : Runs Step (isBackground base) s true s := by
    rw [isBackground, hbackground]
    exact ⟨rfl, rfl⟩
  -- While the job is added, the list is still the old one.
  have hlaunched : Idle { s with
      children := insert pid s.children
      history := s.history ++ [.launched pid cmdStr] } :=
    ⟨fun job hjob => Finset.mem_insert_of_mem (h.running job hjob), h.exited_eq,
      h.ascending, h.maxJobId_eq⟩
  have hadd : Runs Step (runExternal base cmdStr) s () (s.launch pid cmdStr) := by
    refine Runs.seq hisBackground ?_
    rw [if_pos rfl]
    refine Runs.call (x := pid) (Step.of_effect (Or.inr ⟨hpos, hnew, rfl⟩)) ?_
    rw [if_neg hpos.ne', if_pos hpos]
    refine Runs.call (x := ()) (Step.of_effect rfl) (Runs.seq hlaunched.runs ?_)
    refine Runs.call (Step.of_effect ⟨rfl, rfl⟩) ?_
    split
    · next hmax => exact absurd hmax (not_lt.mpr hroom)
    · exact Runs.call (x := ()) (Step.of_effect rfl)
        (runs_perform.mpr (Step.of_effect rfl))
  exact Runs.seq hadd (h.launch pid cmdStr).runs

/-- The state after a job has ended and has been waited for. -/
def World.finish (s : World) (pid : ℤ) (jobs : List JobEntry) : World :=
  { s with
    memory := { s.memory with jobList := jobs, maxJobId := backId jobs }
    children := s.children.erase pid
    exited := ∅
    history := s.history ++ [.terminated pid] }

/-- The first job ends in front of a command that leaves the jobs alone. -/
theorem Idle.runs_finish (h : Idle s) {job : JobEntry} {jobs : List JobEntry}
    (hjobs : s.memory.jobList = job :: jobs) (hpids : ∀ other ∈ jobs, other.pid ≠ job.pid)
    (line : Text) {cmd : CommandData}
    (hcreate : createCommand s.memory.aliases
      (convertAliasToOriginal s.memory.aliases line) (trim line) =
        some (.builtIn .showpid cmd)) :
    Runs Step (executeCommand 1 line) s () (s.finish job.pid jobs) := by
  have hmem : job ∈ s.memory.jobList := hjobs ▸ List.mem_cons_self
  have hchild := h.running job hmem
  have hasc := h.ascending
  rw [hjobs] at hasc
  let ended : World := ({ s with exited := s.exited ∪ {job.pid} } : World).reap job.pid
  have hexited : ended.exited = ∅ := by
    simp [ended, World.reap, h.exited_eq]
  have hrunning : ∀ other ∈ jobs, other.pid ∈ ended.children := by
    intro other hother
    have hother' : other ∈ s.memory.jobList := hjobs ▸ List.mem_cons_of_mem job hother
    exact Finset.mem_erase.mpr ⟨hpids other hother, h.running other hother'⟩
  have hwait : Step s (.waitpid job.pid true) (WaitResult.reaped .exited) ended :=
    ⟨{job.pid}, by simpa using hchild, hchild, by simp, rfl⟩
  have hfinished : Runs Step (isJobFinished job) s true ended :=
    Runs.call hwait ⟨rfl, rfl⟩
  have hloop : Runs Step (reapLoop s.memory.jobList) s jobs ended := by
    rw [hjobs]
    exact Runs.seq hfinished (Runs.seq (runs_reapLoop hrunning hexited) ⟨rfl, rfl⟩)
  have hreap := runs_removeFinishedJobs hloop hasc.of_cons
  have hstate : ({ ended with
      memory := { s.memory with jobList := jobs, maxJobId := backId jobs } } : World) =
      s.finish job.pid jobs := by
    rw [World.finish, ← hexited]
    rfl
  have hidle : Idle (s.finish job.pid jobs) :=
    ⟨hrunning, rfl, hasc.of_cons, rfl⟩
  rw [hstate] at hreap
  rw [executeCommand]
  refine Runs.seq hreap (Runs.call (Step.of_effect ⟨rfl, rfl⟩) ?_)
  dsimp only
  rw [show (s.finish job.pid jobs).memory.aliases = s.memory.aliases from rfl, hcreate]
  refine Runs.seq (a := Command.builtIn .showpid cmd) ⟨rfl, rfl⟩ ?_
  exact Runs.seq (p := pure ()) ⟨rfl, rfl⟩ hidle.runs

theorem freshShell_boot : Boot freshShell :=
  ⟨rfl, rfl, rfl⟩

theorem freshShell_idle : Idle freshShell :=
  ⟨by simp [freshShell], rfl, List.Pairwise.nil, rfl⟩

/-- The shell after its first background command, with the child still running. -/
def launchedShell (cmdStr : Text) : World :=
  freshShell.launch 101 cmdStr

theorem runs_launch (line : Text) {cmdStr : Text} {base : CommandData}
    (hcreate : createCommand [] (convertAliasToOriginal [] line) (trim line) =
      some (.external base cmdStr))
    (hbackground : base.isBackgroundCmd = some true) :
    Runs Step (executeCommand 1 line) freshShell () (launchedShell cmdStr) :=
  freshShell_idle.runs_launch 101 (by decide) (Finset.notMem_empty 101) (by decide) line
    hcreate hbackground

/-- After two jobs were launched and the first of them has ended, the second one is
listed. -/
theorem job_table_in_every_run_sleep :
    ∃ s, Relation.ReflTransGen CommandStep freshShell s ∧
      s.history = [.launched 101 "sleep 5 &".toList,
        .added ⟨1, 101, "sleep 5 &".toList⟩ [], .launched 102 "sleep 9 &".toList,
        .added ⟨2, 102, "sleep 9 &".toList⟩ [⟨1, 101, "sleep 5 &".toList⟩],
        .terminated 101] ∧
      s.memory.maxJobId = 2 ∧
      ∃ job ∈ s.memory.jobList, job.pid = 102 ∧ job.cmdStr = "sleep 9 &".toList := by
  have hfive : createCommand [] (convertAliasToOriginal [] "sleep 5 &".toList)
      (trim "sleep 5 &".toList) =
        some (.external (command "sleep 5 &".toList) "sleep 5 &".toList) := by
    decide +kernel
  have hnine : createCommand [] (convertAliasToOriginal [] "sleep 9 &".toList)
      (trim "sleep 9 &".toList) =
        some (.external (command "sleep 9 &".toList) "sleep 9 &".toList) := by
    decide +kernel
  have hshow : createCommand [] (convertAliasToOriginal [] "showpid".toList)
      (trim "showpid".toList) = some (.builtIn .showpid (command "showpid".toList)) := by
    decide +kernel
  have hidle := freshShell_idle.launch 101 "sleep 5 &".toList
  have hfirst := runs_launch "sleep 5 &".toList hfive (by decide +kernel)
  have hsecond := hidle.runs_launch 102 (by decide) (by decide) (by decide)
    "sleep 9 &".toList hnine (by decide +kernel)
  have hthird := (hidle.launch 102 "sleep 9 &".toList).runs_finish rfl (by decide)
    "showpid".toList hshow
  have hrun : Relation.ReflTransGen CommandStep freshShell _ :=
    ((Relation.ReflTransGen.single ⟨1, _, hfirst⟩).tail ⟨1, _, hsecond⟩).tail
      ⟨1, _, hthird⟩
  obtain ⟨-, -, -, hmax, -, hlisted⟩ := job_table_in_every_run freshShell_boot hrun
  refine ⟨_, hrun, rfl, hmax, (hlisted 102 "sleep 9 &".toList).mpr ?_⟩
  exact ⟨[_, _], [_, _], rfl, by decide, by decide⟩

end OsCoursework.Shell
