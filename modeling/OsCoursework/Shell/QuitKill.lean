import OsCoursework.Shell.AliasRuns

/-!
# `quit kill`

The signals that `quit` sends before it ends the shell: with `kill`, one SIGKILL to
each background job that is still known, in the order of the job ids; without it, none.
-/

namespace OsCoursework.Shell

open OsCoursework.Calls Relation

variable {α : Type} {s s' : World} {calls : List Sys}

def SIGKILL : ℤ := 9

/-- The process and the number of a signal. -/
def Sys.signal : Sys → Option (ℤ × ℤ)
  | .kill pid sig => some (pid, sig)
  | _ => none

/-- The signals sent, in their order. -/
def signals (calls : List Sys) : List (ℤ × ℤ) :=
  calls.filterMap Sys.signal

theorem signals_append (calls calls' : List Sys) :
    signals (calls ++ calls') = signals calls ++ signals calls' :=
  List.filterMap_append

/-- Calls that neither send a signal nor end the shell. -/
def Harmless : Sys → Prop
  | .kill _ _ => False
  | .exit _ => False
  | _ => True

theorem signals_harmless (h : ∀ o ∈ calls, Harmless o) : signals calls = [] := by
  refine List.filterMap_eq_nil_iff.mpr fun o ho => ?_
  have hharmless := h o ho
  cases o with
  | kill pid sig => exact hharmless.elim
  | _ => rfl

/-- Programs that send no signal. -/
theorem signals_post {p : ShellM α} (hp : p.Makes Harmless) :
    Post (Recorded Step) p (s, calls) fun _ w => signals w.2 = signals calls := by
  refine (hp.recorded calls).mono ?_
  rintro _ w ⟨new, hnew, hharmless⟩
  rw [hnew, signals_append, signals_harmless hharmless, List.append_nil]

theorem removeFinishedJobs_harmless : removeFinishedJobs.Makes Harmless :=
  removeFinishedJobs_makes trivial trivial (fun _ => trivial) (fun _ => trivial)
    fun _ => trivial

/-- One SIGKILL for each job of the list. -/
theorem killAll_signals (jobs : List JobEntry) :
    Post (Recorded Step) (killAll jobs) (s, calls) fun _ w =>
      signals w.2 = signals calls ++ jobs.map fun job => (job.pid, SIGKILL) := by
  induction jobs generalizing s calls with
  | nil => exact Post.pure (by simp)
  | cons job jobs ih =>
      refine Post.call fun sent w hstep => ?_
      obtain ⟨s₁, calls₁⟩ := w
      obtain ⟨-, rfl⟩ := hstep
      have hwhen : (when (sent = false) (sys (.perror "smash error: kill failed"))).Makes
          Harmless := makes_when (makes_sys trivial)
      refine Post.seq (signals_post hwhen) fun _ w hw => ?_
      refine ih.mono fun _ w' hw' => ?_
      rw [hw', hw, signals_append]
      simp [signals, Sys.signal, SIGKILL]

theorem killAll_makes (jobs : List JobEntry) : (killAll jobs).Makes LeavesJobs := by
  induction jobs with
  | nil => exact Prog.Makes.pure
  | cons job jobs ih =>
      exact Prog.Makes.call trivial fun _ => Prog.Makes.bind
        (makes_when (makes_sys trivial)) fun _ => ih

theorem Tracked.pending_nodup {jobs : List JobEntry} (h : Tracked jobs [] s) :
    ((pending s.history).map Prod.fst).Nodup :=
  h.pending_eq ▸ h.pids_nodup

/-- The jobs that are signalled are those the history asks for at the end. -/
theorem quitKill_signals (ht : Table s) :
    Post (Recorded Step) quitKill (s, calls) fun _ w =>
      ((pending w.1.history).map Prod.fst).Nodup ∧
      signals w.2 = signals calls ++ (pending w.1.history).map fun job => (job.1, SIGKILL) := by
  refine Post.seq (((removeFinishedJobs_post ht.listed).recorded calls).and
    (signals_post removeFinishedJobs_harmless)) ?_
  rintro _ ⟨s₁, calls₁⟩ ⟨⟨hlisted, hmax⟩, hsignals₁⟩
  refine Post.call ?_
  rintro m ⟨s₂, _⟩ ⟨hget, rfl⟩
  have ht₂ : Table s₂ := Step.table (o := .get) trivial hget ⟨hlisted, hmax⟩
  have hmemory : s₂.memory = m := by
    rw [Step.memory_eq (o := .get) trivial hget, hget.get_fades.1]
  have hprint (os : List Output) {s : World} {calls : List Sys} :
      Post (Recorded Step) (printAll os) (s, calls) fun _ w => signals w.2 = signals calls :=
    signals_post (makes_printAll (fun _ => trivial) os)
  set header := cout ("smash: sending SIGKILL signal to ".toList ++
    decimal m.jobList.length ++ " jobs:".toList)
  set lines := printAll (m.jobList.map fun job =>
    .cout (decimal job.pid ++ ": ".toList ++ job.cmdStr))
  have hleaves : (do header; lines; killAll m.jobList).Makes LeavesJobs :=
    Prog.Makes.call trivial fun _ =>
      Prog.Makes.bind (makes_printAll (fun _ => trivial) _) fun _ => killAll_makes _
  have hkept : Post Step (do header; lines; killAll m.jobList) s₂ fun _ s' =>
      ((pending s'.history).map Prod.fst).Nodup ∧
      pending s'.history = m.jobList.map JobEntry.key := by
    intro a s' hruns
    have hkept : Kept s₂ s' := hleaves.rel (R := Kept) (fun _ _ _ _ => Step.kept) hruns
    have ht' : Tracked s₂.memory.jobList [] s' := Tracked.kept ht₂.listed hkept
    exact ⟨ht'.pending_nodup, by rw [ht'.pending_eq, List.append_nil, hmemory]⟩
  have hsent : Post (Recorded Step) (do header; lines; killAll m.jobList)
      (s₂, calls₁ ++ [.get]) fun _ w => signals w.2 =
        signals calls ++ m.jobList.map fun job => (job.pid, SIGKILL) := by
    refine Post.seq (signals_post (makes_sys trivial)) fun _ w₃ h₃ => ?_
    refine Post.seq (hprint _) fun _ w₄ h₄ => (killAll_signals _).mono fun _ w₅ h₅ => ?_
    rw [h₅, h₄, h₃, signals_append, hsignals₁]
    simp [signals, Sys.signal]
  refine ((hkept.recorded _).and hsent).mono ?_
  rintro _ w ⟨⟨hnodup, hpending⟩, hsignals⟩
  refine ⟨hnodup, ?_⟩
  rw [hsignals, hpending, List.map_map]
  rfl

theorem quitKill_makes : quitKill.Makes fun o => ∀ status, o ≠ .exit status := by
  have hharmless {α : Type} {p : ShellM α} (hp : p.Makes Harmless) :
      p.Makes fun o => ∀ status, o ≠ .exit status :=
    hp.mono fun o ho status heq => by rw [heq] at ho; exact ho
  have hkill (jobs : List JobEntry) :
      (killAll jobs).Makes fun o => ∀ status, o ≠ .exit status := by
    induction jobs with
    | nil => exact Prog.Makes.pure
    | cons job jobs ih =>
        exact Prog.Makes.call nofun fun _ => Prog.Makes.bind
          (makes_when (makes_sys nofun)) fun _ => ih
  refine Prog.Makes.bind (hharmless removeFinishedJobs_harmless) fun _ => ?_
  refine Prog.Makes.call nofun fun m => Prog.Makes.call nofun fun _ => ?_
  exact Prog.Makes.bind (makes_printAll (fun _ => nofun) _) fun _ => hkill _

/-- At an exit of `quit`, its status is 0, the job list is empty, and the signals are
those that were asked for. -/
def QuitsWell (cmd : CommandData) (w : World × List Sys) (o : Sys) : Prop :=
  ∀ status, o = .exit status → status = 0 ∧ w.1.memory.jobList = [] ∧
    ((pending w.1.history).map Prod.fst).Nodup ∧
    signals w.2 = if cmd.args[1]? = some "kill".toList then
      (pending w.1.history).map fun job => (job.1, SIGKILL) else []

theorem quitExecute_guards (ht : Table s) (hcalls : signals calls = [])
    (cmd : CommandData) :
    Guards (Recorded Step) (QuitsWell cmd) (quitExecute cmd) (s, calls) := by
  have hkill : Post (Recorded Step) (when (cmd.args[1]? = some "kill".toList) quitKill)
      (s, calls) fun _ w => ((pending w.1.history).map Prod.fst).Nodup ∧
        signals w.2 = if cmd.args[1]? = some "kill".toList then
          (pending w.1.history).map fun job => (job.1, SIGKILL) else [] := by
    rw [when]
    split
    · have hsignals : Post (Recorded Step) quitKill (s, calls) _ := quitKill_signals ht
      rwa [hcalls] at hsignals
    · exact Post.pure ⟨Tracked.pending_nodup ht.listed, hcalls⟩
  refine Guards.seq ?_ hkill ?_
  · refine Guards.makes (C := fun o => ∀ status, o ≠ .exit status) ?_ ?_
    · exact makes_ite quitKill_makes Prog.Makes.pure
    · exact fun _ _ ho status heq => absurd heq (ho status)
  · rintro _ ⟨s₁, calls₁⟩ ⟨hnodup, hsignals⟩
    refine Guards.call (by rintro _ ⟨⟩) ?_
    rintro m ⟨s₂, _⟩ ⟨⟨_, -, rfl, rfl⟩, rfl⟩
    refine Guards.call (by rintro _ ⟨⟩) ?_
    rintro _ ⟨s₃, _⟩ ⟨⟨_, -, rfl⟩, rfl⟩
    refine ⟨fun status hstatus => ?_, fun x => x.elim⟩
    refine ⟨(Sys.exit.inj hstatus).symm, rfl, hnodup, ?_⟩
    rw [signals_append, signals_append, hsignals]
    simp [signals, Sys.signal]

/-- A line that is `quit`, from the removal of finished jobs on. -/
theorem executeCommand_quit_guards (ht : Table s) (depth : ℕ) {line : Text}
    {cmd : CommandData} (hcmd : Creates s.memory.aliases line (.builtIn .quit cmd)) :
    Guards (Recorded Step) (QuitsWell cmd) (executeCommand depth line) (s, []) := by
  cases depth with
  | zero => exact ⟨by rintro _ ⟨⟩, fun x => x.elim⟩
  | succ depth =>
      have hfinished : Post (Recorded Step) removeFinishedJobs (s, []) fun _ w =>
          (Listed [] w.1 ∧ w.1.memory.maxJobId = backId w.1.memory.jobList) ∧
          w.1.memory.aliases = s.memory.aliases ∧ signals w.2 = [] :=
        ((removeFinishedJobs_post ht.listed).recorded []).and
          (((removeFinishedJobs_leaves s rfl).recorded []).and
            (signals_post removeFinishedJobs_harmless))
      have hsilent : Guards (Recorded Step) (QuitsWell cmd) removeFinishedJobs (s, []) :=
        Guards.makes removeFinishedJobs_harmless fun _ _ ho status heq => by
          rw [heq] at ho
          exact ho.elim
      refine Guards.seq hsilent hfinished ?_
      rintro _ ⟨s₁, calls₁⟩ ⟨⟨hlisted, hmax⟩, haliases, hcalls⟩
      refine Guards.call (by rintro _ ⟨⟩) ?_
      rintro m ⟨s₂, _⟩ ⟨hget, rfl⟩
      have ht₂ : Table s₂ := Step.table (o := .get) trivial hget ⟨hlisted, hmax⟩
      obtain ⟨ended, -, rfl, rfl⟩ := hget
      dsimp only at haliases ⊢
      rw [haliases, show createCommand s.memory.aliases _ _ = _ from hcmd]
      refine Guards.seq (p := quitExecute cmd) (Q := fun _ _ => False) ?_ ?_ ?_
      · refine quitExecute_guards ht₂ ?_ cmd
        rw [signals_append, hcalls]
        rfl
      · exact Post.recorded (Q := fun _ _ => False) (quitExecute_post cmd) _
      · exact fun _ _ hno => hno.elim

/-- When a line that is `quit` exits, it has sent a SIGKILL to each job that was launched
in the background and neither observed to end nor brought to the foreground, in the order
of their launch, if `kill` was asked for, and no other signal; the job list is empty. -/
theorem quit_signals {s₀ s : World} {depth : ℕ} {line : Text} {cmd : CommandData}
    {status : ℤ} {next : Empty → ShellM Unit} {w : World × List Sys} (hboot : Boot s₀)
    (hreach : ReflTransGen CommandStep s₀ s)
    (hcmd : Creates s.memory.aliases line (.builtIn .quit cmd))
    (hrun : ReflTransGen (Advance (Recorded Step)) (executeCommand depth line, (s, []))
      (.call (.exit status) next, w)) :
    status = 0 ∧ w.1.memory.jobList = [] ∧ ((signals w.2).map Prod.fst).Nodup ∧
    signals w.2 = if cmd.args[1]? = some "kill".toList then
      (pending w.1.history).map fun job => (job.1, SIGKILL) else [] := by
  have hguards := executeCommand_quit_guards (hboot.reachable_table hreach) depth hcmd
  obtain ⟨hstatus, hjobs, hnodup, hsignals⟩ := hguards.reach hrun rfl status rfl
  refine ⟨hstatus, hjobs, ?_, hsignals⟩
  rw [hsignals]
  split
  · rwa [List.map_map]
  · exact List.nodup_nil

/-! ## A run -/

/-- A line, up to the command that it is. -/
theorem Idle.advance_command (h : Idle s) {line : Text} {cmd : Command}
    (hcmd : Creates s.memory.aliases line cmd) :
    ∃ calls, ReflTransGen (Advance (Recorded Step)) (executeCommand 1 line, (s, []))
      (runCommand (executeCommand 0) 0 cmd >>= fun _ => removeFinishedJobs,
        (s, calls)) := by
  obtain ⟨calls, hfinished⟩ := h.runs.recorded []
  have hget : Recorded Step (s, calls) .get s.memory (s, calls ++ [.get]) :=
    ⟨Step.of_effect ⟨rfl, rfl⟩, rfl⟩
  refine ⟨calls ++ [.get], (Runs.advance hfinished).trans
    ((Runs.advance (runs_perform.mpr hget)).trans ?_)⟩
  dsimp only
  rw [show createCommand s.memory.aliases _ _ = _ from hcmd]
  exact .refl

/-- `quit kill`, up to its exit. -/
theorem advance_quitExecute {cmd : CommandData}
    (hkind : cmd.args[1]? = some "kill".toList) (hkill : Runs Step quitKill s () s)
    (calls : List Sys) :
    ∃ next calls', ReflTransGen (Advance (Recorded Step)) (quitExecute cmd, (s, calls))
      (.call (.exit 0) next,
        ({ s with memory := { s.memory with jobList := [], maxJobId := 0 } }, calls')) := by
  obtain ⟨calls', hkill⟩ := hkill.recorded calls
  have hget : Recorded Step (s, calls') .get s.memory (s, calls' ++ [.get]) :=
    ⟨Step.of_effect ⟨rfl, rfl⟩, rfl⟩
  have hput (m : Memory) : Recorded Step (s, calls' ++ [.get]) (.put m) ()
      ({ s with memory := m }, calls' ++ [.get] ++ [.put m]) :=
    ⟨Step.of_effect rfl, rfl⟩
  have hwhen : ReflTransGen (Advance (Recorded Step)) (quitExecute cmd, (s, calls))
      (do
        let m ← sys .get
        sys (.put { m with jobList := [], maxJobId := 0 })
        exit 0, (s, calls')) := by
    apply Runs.advance (a := ())
    rwa [when, if_pos hkind]
  exact ⟨_, _, (hwhen.tail (.call hget)).tail (.call (hput _))⟩

theorem runs_quitKill :
    Runs Step quitKill (launchedShell "sleep 5 &".toList) ()
      (launchedShell "sleep 5 &".toList) := by
  refine Runs.seq (freshShell_idle.launch 101 _).runs
    (Runs.call (Step.of_effect ⟨rfl, rfl⟩) ?_)
  refine Runs.call (x := ()) (Step.of_effect rfl) ?_
  refine Runs.seq (Runs.call (x := ()) (Step.of_effect rfl) ⟨rfl, rfl⟩) ?_
  refine Runs.call (x := true) (Step.of_effect rfl) ?_
  rw [when, if_neg (by decide)]
  exact ⟨rfl, rfl⟩

theorem quit_signals_sleep :
    ∃ next w, ReflTransGen (Advance (Recorded Step))
        (executeCommand 1 "quit kill".toList, (launchedShell "sleep 5 &".toList, []))
        (.call (.exit 0) next, w) ∧ signals w.2 = [(101, SIGKILL)] := by
  have hcreate : createCommand [] (convertAliasToOriginal [] "sleep 5 &".toList)
      (trim "sleep 5 &".toList) =
        some (.external (command "sleep 5 &".toList) "sleep 5 &".toList) := by
    decide +kernel
  have hcmd : Creates (launchedShell "sleep 5 &".toList).memory.aliases "quit kill".toList
      (.builtIn .quit (command "quit kill".toList)) := by
    rw [Creates]
    decide +kernel
  have hkind : (command "quit kill".toList).args[1]? = some "kill".toList := by
    decide +kernel
  have hlaunch := runs_launch "sleep 5 &".toList hcreate (by decide +kernel)
  obtain ⟨calls, hline⟩ := (freshShell_idle.launch 101 _).advance_command hcmd
  obtain ⟨next, calls', hquit⟩ := advance_quitExecute hkind runs_quitKill calls
  have hrun := hline.trans (Advance.seq hquit)
  have hsignals := (quit_signals freshShell_boot (.single ⟨1, _, hlaunch⟩) hcmd hrun).2.2.2
  rw [if_pos hkind] at hsignals
  exact ⟨_, _, hrun, hsignals⟩

end OsCoursework.Shell
