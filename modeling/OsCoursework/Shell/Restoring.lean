import OsCoursework.Shell.Descriptors

/-!
# Redirections and pipes restore the descriptors

The two commands that work on descriptors of their own, then all commands: a
redirection or a pipe, with everything it runs, leaves the descriptor table as it
was exactly when none of the recorded failures happened.
-/

namespace OsCoursework.Shell

open OsCoursework.Calls

variable {s s₁ s₂ s₃ s₄ s₅ s' : World} {strict : Prop}

/-! ## Redirections -/

theorem Step.dup_cases {fd : ℕ} {x : Option ℕ} (h : Step s (.dup fd) x s') :
    x = none ∧ Accounted strict s s' ∨
      ∃ d file, x = some d ∧ Opened s d s' ∧ s.fds fd = some file ∧
        s'.fds d = some file := by
  obtain ⟨ended, -, ⟨rfl, rfl⟩ | ⟨d, file, rfl, hclosed, hfd, rfl⟩⟩ := h
  · exact Or.inl ⟨rfl, .unchanged rfl rfl⟩
  · exact Or.inr ⟨d, file, rfl, ⟨hclosed, ⟨file, rfl⟩, rfl⟩, hfd,
      Function.update_self _ _ _⟩

theorem Step.dup2_cases {oldFd newFd : ℕ} {x : Bool} (h : Step s (.dup2 oldFd newFd) x s') :
    s'.history = s.history ∧ (x = false ∧ s'.fds = s.fds ∨
      ∃ file, x = true ∧ s.fds oldFd = some file ∧
        s'.fds = Function.update s.fds newFd (some file)) := by
  obtain ⟨ended, -, ⟨rfl, rfl⟩ | ⟨file, rfl, hfd, rfl⟩⟩ := h
  · exact ⟨rfl, Or.inl ⟨rfl, rfl⟩⟩
  · exact ⟨rfl, Or.inr ⟨file, rfl, hfd, rfl⟩⟩

/-- Standard output refers to a new file, and its old file has a descriptor. -/
structure Redirected (s : World) (ogStdout newFileFD : ℕ) (s₃ : World) : Prop where
  stdout_kept : s.fds 1 ≠ none ∧ s₃.fds ogStdout = s.fds 1
  stdout_open : s₃.fds 1 ≠ none
  og_closed : s.fds ogStdout = none
  new_closed : s.fds newFileFD = none
  new_open : s₃.fds newFileFD ≠ none
  ne : ogStdout ≠ newFileFD
  same : ∀ fd, fd ≠ 1 → fd ≠ ogStdout → fd ≠ newFileFD → s₃.fds fd = s.fds fd
  history_eq : s₃.history = s.history

variable {ogStdout newFileFD : ℕ}

theorem Redirected.of_steps {file : ℕ} (hog : Opened s ogStdout s₁)
    (hout : s.fds 1 = some file) (hog₁ : s₁.fds ogStdout = some file)
    (hnew : Opened s₁ newFileFD s₂) (hstep : Step s₂ (.dup2 newFileFD 1) true s₃) :
    Redirected s ogStdout newFileFD s₃ := by
  obtain ⟨hhistory, ⟨hno, -⟩ | ⟨file', -, -, hfds₃⟩⟩ := hstep.dup2_cases
  · cases hno
  have hone : ogStdout ≠ 1 := by
    rintro rfl
    rw [hog.was_closed] at hout
    cases hout
  have hne : ogStdout ≠ newFileFD := by
    rintro rfl
    rw [hnew.was_closed] at hog₁
    cases hog₁
  have hclosed : s.fds newFileFD = none := by
    rw [← hog.same hne.symm, hnew.was_closed]
  have hnewone : newFileFD ≠ 1 := by
    rintro rfl
    rw [hclosed] at hout
    cases hout
  refine ⟨⟨by rw [hout]; exact Option.some_ne_none file, ?_⟩, ?_, hog.was_closed, hclosed,
    ?_, hne, ?_, ?_⟩
  · rw [hfds₃, Function.update_of_ne hone, hnew.same hne, hog₁, hout]
  · rw [hfds₃, Function.update_self]
    exact Option.some_ne_none file'
  · rw [hfds₃, Function.update_of_ne hnewone]
    exact hnew.now_open
  · intro fd h₁ hog' hnew'
    rw [hfds₃, Function.update_of_ne h₁, hnew.same hnew', hog.same hog']
  · rw [hhistory, hnew.history_eq, hog.history_eq]

/-- The last restoring of standard output in these events failed. -/
def RestoreFailed (new : List Event) : Prop :=
  ∃ pre post, new = pre ++ .restored false :: post ∧ ∀ ok, .restored ok ∉ post

/-- What a redirection or a pipe does: it is accounted for, and standard output is as
it was unless the command could not restore it. -/
def Settled (s s' : World) : Prop :=
  ∃ new left, AccountedBy False s s' new left ∧
    (¬ RestoreFailed new → 1 ∉ left → s'.fds 1 = s.fds 1)

theorem Settled.accounted (h : Settled s s') : Accounted False s s' := by
  obtain ⟨new, left, hacc, -⟩ := h
  exact ⟨new, left, hacc⟩

theorem Accounted.settled (h : Accounted True s s') : Settled s s' := by
  obtain ⟨new, left, hacc⟩ := h
  refine ⟨new, left, ⟨hacc.history_eq, ?_, hacc.left_eq⟩, fun _ hone => ?_⟩
  · exact hacc.leftOpen.mono fun _ => Or.inl trivial
  · exact hacc.leftOpen.same 1 hone fun _ => Or.inl trivial

theorem restoreStdout_post :
    Post Step (restoreStdout ogStdout) s₄ fun _ s₅ =>
      ∃ ok file, s₅.history = s₄.history ++ [.restored ok] ∧
        s₅.fds = Function.update s₄.fds 1 file ∧
        (ok = true ∧ file = s₄.fds ogStdout ∧ file ≠ none ∨
          ok = false ∧ file = s₄.fds 1) := by
  refine Post.call fun ok s₅ hdup2 => Post.call fun _ s₆ hnote => ?_
  obtain ⟨hhistory, hfds⟩ := hdup2.dup2_cases
  obtain ⟨ended, -, rfl⟩ := hnote
  have hquiet : Post Step (when (ok = false) (sys (.perror "smash error: dup2 failed")))
      { s₅ with exited := s₅.exited ∪ ended, history := s₅.history ++ [.restored ok] }
      fun _ s' => s'.history = s₅.history ++ [.restored ok] ∧ s'.fds = s₅.fds := by
    unfold when
    split
    · refine Post.perform fun _ s' hperror => ?_
      obtain ⟨ended', -, rfl⟩ := hperror
      exact ⟨rfl, rfl⟩
    · exact Post.pure ⟨rfl, rfl⟩
  refine hquiet.mono ?_
  rintro _ s' ⟨hhistory', hfds'⟩
  rw [hhistory] at hhistory'
  obtain ⟨rfl, hsame⟩ | ⟨file, rfl, hfile, hupdate⟩ := hfds
  · refine ⟨false, s₄.fds 1, hhistory', ?_, Or.inr ⟨rfl, rfl⟩⟩
    rw [hfds', hsame, Function.update_eq_self]
  · refine ⟨true, some file, hhistory', by rw [hfds', hupdate], Or.inl ⟨rfl, ?_, ?_⟩⟩
    · rw [hfile]
    · exact Option.some_ne_none file

theorem closeFiles_post (hnew : s₅.fds newFileFD ≠ none)
    (hog : Function.update s₅.fds newFileFD none ogStdout ≠ none) :
    Post Step (closeFiles ogStdout newFileFD) s₅ fun _ s' =>
      s'.history = s₅.history ∧
        s'.fds = Function.update (Function.update s₅.fds newFileFD none) ogStdout none := by
  refine Post.call fun ok s₆ hclose => ?_
  obtain ⟨hhistory₆, ⟨rfl, -, hfds₆⟩ | ⟨-, hclosed, -⟩⟩ := hclose.close_cases
  · rw [if_pos rfl]
    refine Post.call fun ok s₇ hclose' => ?_
    obtain ⟨hhistory₇, ⟨rfl, -, hfds₇⟩ | ⟨-, hclosed, -⟩⟩ := hclose'.close_cases
    · exact Post.pure ⟨by rw [hhistory₇, hhistory₆], by rw [hfds₇, hfds₆]⟩
    · rw [hfds₆] at hclosed
      exact absurd hclosed hog
  · exact absurd hclosed hnew

section Restoring

variable {new : List Event} {left : Set ℕ}

theorem Redirected.og_open (h : Redirected s ogStdout newFileFD s₃) :
    s₃.fds ogStdout ≠ none := by
  rw [h.stdout_kept.2]
  exact h.stdout_kept.1

theorem Redirected.og_ne (h : Redirected s ogStdout newFileFD s₃) : ogStdout ≠ 1 :=
  fun heq => h.stdout_kept.1 (heq ▸ h.og_closed)

theorem Redirected.new_ne (h : Redirected s ogStdout newFileFD s₃) : newFileFD ≠ 1 :=
  fun heq => h.stdout_kept.1 (heq ▸ h.new_closed)

/-- Both descriptors are still open when they are to be closed. -/
theorem Redirected.still_open (h : Redirected s ogStdout newFileFD s₃)
    (hleft : LeftOpen (False ∨ .restored false ∉ new) s₃ s₄ left) {file : Option ℕ}
    (hfds : s₅.fds = Function.update s₄.fds 1 file) :
    s₅.fds newFileFD ≠ none ∧ Function.update s₅.fds newFileFD none ogStdout ≠ none := by
  constructor
  · rw [hfds, Function.update_of_ne h.new_ne, Ne, hleft.kept _ (hleft.not_mem h.new_open)]
    exact h.new_open
  · rw [Function.update_of_ne h.ne, hfds, Function.update_of_ne h.og_ne, Ne,
      hleft.kept _ (hleft.not_mem h.og_open)]
    exact h.og_open

/-- What is left after the command, with both descriptors closed. -/
theorem Redirected.closed (h : Redirected s ogStdout newFileFD s₃)
    (hleft : LeftOpen (False ∨ .restored false ∉ new) s₃ s₄ left) {file : Option ℕ}
    (hfile : file ≠ none) {stdout : Prop} (hstdout : stdout → file = s.fds 1)
    (hfds : s'.fds = Function.update (Function.update
      (Function.update s₄.fds 1 file) newFileFD none) ogStdout none) :
    LeftOpen stdout s s' left := by
  -- A descriptor that is neither of the two, nor standard output.
  have hother {fd : ℕ} (hog : fd ≠ ogStdout) (hnew : fd ≠ newFileFD) (hone : fd ≠ 1) :
      s'.fds fd = s₄.fds fd := by
    rw [hfds, Function.update_of_ne hog, Function.update_of_ne hnew,
      Function.update_of_ne hone]
  have hsame (fd : ℕ) (hfd : fd ∉ left) (hone : fd ≠ 1) : s'.fds fd = s.fds fd := by
    by_cases hog : fd = ogStdout
    · rw [hfds, hog, Function.update_self, h.og_closed]
    by_cases hnew : fd = newFileFD
    · rw [hfds, Function.update_of_ne hog, hnew, Function.update_self, h.new_closed]
    rw [hother hog hnew hone, hleft.same fd hfd fun heq => absurd heq hone,
      h.same fd hone hog hnew]
  have hone : s'.fds 1 = file := by
    rw [hfds, Function.update_of_ne h.og_ne.symm, Function.update_of_ne h.new_ne.symm,
      Function.update_self]
  constructor
  · intro fd hfd hout
    by_cases heq : fd = 1
    · rw [heq, hone, hstdout (hout heq)]
    · exact hsame fd hfd heq
  · intro fd hfd
    by_cases heq : fd = 1
    · rw [heq, hone]
      exact iff_of_false hfile h.stdout_kept.1
    · rw [hsame fd hfd heq]
  · intro fd hfd
    obtain ⟨hbefore, hafter⟩ := hleft.opened fd hfd
    have hne {e : ℕ} (hopen : s₃.fds e ≠ none) : fd ≠ e :=
      fun heq => hopen (heq ▸ hbefore)
    have h₁ := hne h.stdout_open
    have h₂ := hne h.og_open
    have h₃ := hne h.new_open
    exact ⟨by rw [← h.same fd h₁ h₂ h₃, hbefore], by rwa [hother h₂ h₃ h₁]⟩

theorem Redirected.finish (h : Redirected s ogStdout newFileFD s₃)
    (hacc : Accounted False s₃ s₄) :
    Post Step (do restoreStdout ogStdout; closeFiles ogStdout newFileFD) s₄
      fun _ s' => Settled s s' := by
  obtain ⟨new, left, hacc⟩ := hacc
  have hleft := hacc.leftOpen
  refine Post.seq restoreStdout_post ?_
  rintro _ s₅ ⟨ok, file, hhistory₅, hfds₅, hfile⟩
  obtain ⟨hnew, hog⟩ := h.still_open hleft hfds₅
  refine (closeFiles_post hnew hog).mono ?_
  rintro _ s' ⟨hhistory', hfds'⟩
  rw [hfds₅] at hfds'
  have hsome : file ≠ none := by
    obtain ⟨-, -, hfile⟩ | ⟨-, rfl⟩ := hfile
    · exact hfile
    · rw [Ne, hleft.kept 1 (hleft.not_mem h.stdout_open)]
      exact h.stdout_open
  have hback : ok = true → file = s.fds 1 := by
    rintro rfl
    obtain ⟨-, rfl, -⟩ | ⟨hno, -⟩ := hfile
    · rw [hleft.same _ (hleft.not_mem h.og_open) fun heq => absurd heq h.og_ne,
        h.stdout_kept.2]
    · cases hno
  refine ⟨new ++ [.restored ok], left, ⟨?_, ?_, ?_⟩, fun hrestore hone => ?_⟩
  · rw [hhistory', hhistory₅, hacc.history_eq, h.history_eq, List.append_assoc]
  · refine h.closed hleft hsome (fun hout => hback ?_) hfds'
    cases ok with
    | true => rfl
    | false => simp at hout
  · rw [hacc.left_eq, leaky_append, not_or]
    simp [Leaky]
  · refine (h.closed hleft hsome hback hfds').same 1 hone fun _ => ?_
    cases ok with
    | true => rfl
    | false => exact absurd ⟨new, [], rfl, by simp⟩ hrestore

end Restoring

theorem redirectionExecute_settled {run : Text → ShellM Unit}
    (hrun : ∀ line, Accounts False (run line)) (cmd : RedirectionCommand) (s : World) :
    Post Step (redirectionExecute run cmd) s fun _ s' => Settled s s' := by
  refine Post.call fun x s₁ hdup => ?_
  obtain ⟨rfl, h⟩ | ⟨ogStdout, file, rfl, hog, hout, hog₁⟩ := hdup.dup_cases
  · exact (h.post (.sys (o := .perror _) trivial)).mono fun _ _ h => h.settled
  refine Post.call fun x s₂ hopen => ?_
  obtain ⟨rfl, h⟩ | ⟨newFileFD, rfl, hnew⟩ := hopen.openFile_cases
  · have hholding : Holding True s ogStdout s₂ := ⟨s₁, hog, h⟩
    refine Post.seq (hholding.run (.sys trivial)) fun _ s₃ h₃ => ?_
    exact (h₃.fail _).mono fun _ _ h => h.accounted.settled
  refine Post.call fun ok s₃ hdup2 => ?_
  cases ok with
  | true =>
      have hred := Redirected.of_steps hog hout hog₁ hnew hdup2
      exact Post.seq (hrun _ s₃) fun _ s₄ h₄ => hred.finish h₄
  | false =>
      obtain ⟨hhistory₃, ⟨-, hfds₃⟩ | ⟨_, hno, -⟩⟩ := hdup2.dup2_cases
      · have hacc₃ : Accounted True s₂ s₃ := .unchanged hhistory₃ hfds₃
        have hholding : Holding True s₁ newFileFD s₃ := ⟨s₂, hnew, hacc₃⟩
        refine Post.seq (hholding.run (.sys trivial)) fun _ s₄ h₄ => ?_
        refine Post.call fun ok s₅ hclose => ?_
        -- Only the descriptor of the old standard output is still open.
        have hholding₅ : Holding True s ogStdout s₅ := ⟨s₁, hog, h₄.close hclose⟩
        refine Post.seq (hholding₅.run (.when (.sys trivial))) fun _ s₆ h₆ => ?_
        exact (h₆.fail _).mono fun _ _ h => h.accounted.settled
      · cases hno

/-! ## Pipes -/

theorem Step.pipe_cases {x : Option (ℕ × ℕ)} (h : Step s .pipe x s') :
    x = none ∧ Accounted strict s s' ∨
      ∃ readEnd writeEnd s₁, x = some (readEnd, writeEnd) ∧ Opened s writeEnd s₁ ∧
        Opened s₁ readEnd s' := by
  obtain ⟨ended, -, ⟨rfl, rfl⟩ | ⟨d, e, f, g, rfl, hne, hd, he, rfl⟩⟩ := h
  · exact Or.inl ⟨rfl, .unchanged rfl rfl⟩
  · refine Or.inr ⟨d, e, s.setFd e (some g), rfl, ⟨he, ⟨g, rfl⟩, rfl⟩, ⟨?_, ⟨f, ?_⟩, rfl⟩⟩
    · exact (Function.update_of_ne hne _ _).trans hd
    · exact Function.update_comm hne.symm (some g) (some f) s.fds |>.symm ▸ rfl

theorem pipeExecute_accounts (run : Text → ShellM Unit) (cmd : PipeCommand) :
    Accounts strict (pipeExecute run cmd) := by
  intro s
  refine Post.call fun x s₂ hpipe => ?_
  obtain ⟨rfl, h⟩ | ⟨readEnd, writeEnd, s₁, rfl, hwrite, hread⟩ := hpipe.pipe_cases
  · exact h.post (.sys trivial)
  -- A failure of `fork` leaves both ends open.
  have hfailed {s₃ : World} (call : Failure)
      (h : Holding strict s₁ readEnd s₃) :
      Post Step (do sys (.perror "smash error: fork failed"); sys (.note (.failed call)))
        s₃ fun _ s' => Accounted strict s s' := by
    refine Post.seq (h.run (.sys trivial)) fun _ s₄ h₄ => ?_
    exact (h₄.fail call).mono fun _ _ hleak => (hleak.opened hwrite).accounted
  have hends : Holding strict s₁ readEnd s₂ := hread.holding
  refine Post.seq (hends.run (.sys trivial)) fun pid1 s₃ h₃ => ?_
  split
  · exact hfailed _ h₃
  split
  · exact pipeChild_post _ _ _ _ _
  refine Post.seq (h₃.run (.sys trivial)) fun pid2 s₄ h₄ => ?_
  split
  · exact hfailed _ h₄
  split
  · exact pipeChild_post _ _ _ _ _
  refine Post.call fun ok s₅ hclose => ?_
  have hholding : Holding strict s writeEnd s₅ := ⟨s₁, hwrite, h₄.close hclose⟩
  exact hholding.close_post fun ok => .call trivial fun _ => .call trivial fun _ => .pure

/-! ## Jobs -/

theorem reapLoop_accounts (jobs : List JobEntry) : Accounts strict (reapLoop jobs) := by
  induction jobs with
  | nil => exact .pure
  | cons job jobs ih =>
      have hfinished : Accounts strict (isJobFinished job) := by
        refine .call trivial fun result => ?_
        split
        · exact .pure
        · split
          · exact .pure
          · exact .call trivial fun _ => .pure
        · exact .pure
      exact .bind hfinished fun _ => .bind ih fun _ => .pure

theorem removeFinishedJobs_accounts : Accounts strict removeFinishedJobs := by
  refine .call trivial fun m => .call trivial fun pid => ?_
  split
  · exact .pure
  · exact .bind (reapLoop_accounts _) fun _ => .sys trivial

theorem addJob_accounts (cmdStr : Text) (pid : ℤ) :
    Accounts strict (addJob cmdStr pid) := by
  refine .bind removeFinishedJobs_accounts fun _ => .call trivial fun m => ?_
  split
  · exact .of_makes (makes_undefined trivial)
  · exact .call trivial fun _ => .sys trivial

theorem setForegroundPid_accounts (pid : ℤ) : Accounts strict (setForegroundPid pid) :=
  .call trivial fun _ => .sys trivial

theorem printAll_accounts (os : List Output) : Accounts strict (printAll os) :=
  .of_makes (makes_printAll (fun _ => trivial) os)

theorem printJobsList_accounts : Accounts strict printJobsList :=
  .bind removeFinishedJobs_accounts fun _ => .call trivial fun _ => printAll_accounts _

theorem bringToForeground_accounts (job : JobEntry) :
    Accounts strict (bringToForeground job) :=
  .call trivial fun _ => .bind (setForegroundPid_accounts _) fun _ => .call trivial fun _ =>
    .call trivial fun _ => .bind (.when (.sys trivial)) fun _ =>
    .bind (setForegroundPid_accounts _) fun _ => .call trivial fun _ => .sys trivial

theorem foregroundExecute_accounts (cmd : CommandData) :
    Accounts strict (foregroundExecute cmd) := by
  refine .call trivial fun m => ?_
  split
  · split
    · exact .sys trivial
    · exact bringToForeground_accounts _
  · split
    · exact .sys trivial
    · refine .bind (.of_makes (makes_ofOption _ trivial)) fun jobId => ?_
      split
      · exact .sys trivial
      · exact bringToForeground_accounts _

theorem killExecute_accounts (cmd : CommandData) : Accounts strict (killExecute cmd) := by
  refine .call trivial fun m => ?_
  dsimp only
  split
  · split
    · exact .sys trivial
    · refine .bind (.of_makes (makes_ofOption _ trivial)) fun numbers => ?_
      split
      · exact .sys trivial
      · split
        · exact .sys trivial
        · exact .call trivial fun _ => .call trivial fun _ => .when (.sys trivial)
  · exact .sys trivial

theorem aliasTableExecute_accounts (f : AliasTable → AliasTable × List Output) :
    Accounts strict (aliasTableExecute f) :=
  .call trivial fun _ => .call trivial fun _ => printAll_accounts _

/-! ## Whole commands -/

theorem builtInExecute_accounts (depth : ℕ) (b : BuiltIn) (cmd : CommandData) :
    Accounts strict (builtInExecute depth b cmd) := by
  unfold builtInExecute
  split
  · exact aliasTableExecute_accounts _
  · exact aliasTableExecute_accounts _
  · exact printJobsList_accounts
  · exact foregroundExecute_accounts cmd
  · exact fun s => quitExecute_post cmd
  · exact killExecute_accounts cmd
  · exact unSetEnvExecute_accounts cmd
  · exact sysInfoExecute_accounts
  · exact diskUsageExecute_accounts depth cmd
  · exact whoAmIExecute_accounts
  · exact usbInfoExecute_accounts
  all_goals exact .pure

theorem runExternal_accounts (base : CommandData) (cmdStr : Text) :
    Accounts strict (runExternal base cmdStr) := by
  have hbackground : Accounts strict (isBackground base) := by
    unfold isBackground
    split
    · exact .pure
    · exact .sys trivial
  refine .bind hbackground fun background => ?_
  split
  · refine .call trivial fun pid => ?_
    split
    · exact fun s => externalChild_post base
    · split
      · exact .call trivial fun _ => addJob_accounts _ _
      · exact .sys trivial
  · refine .call trivial fun pid => ?_
    split
    · exact fun s => externalChild_post base
    · split
      · exact .bind (setForegroundPid_accounts _) fun _ => .call trivial fun _ =>
          .bind (setForegroundPid_accounts _) fun _ => .when (.sys trivial)
      · exact .sys trivial

theorem runCommand_accounts {run : Text → ShellM Unit}
    (hrun : ∀ line, Accounts False (run line)) (depth : ℕ) (cmd : Command) :
    Accounts False (runCommand run depth cmd) := by
  cases cmd with
  | builtIn b cmd => exact builtInExecute_accounts depth b cmd
  | pipe cmd => exact pipeExecute_accounts run cmd
  | redirection cmd =>
      exact fun s => (redirectionExecute_settled hrun cmd s).mono fun _ _ h => h.accounted
  | external base cmdStr => exact runExternal_accounts base cmdStr

theorem executeCommand_accounts (depth : ℕ) (cmdLine : Text) :
    Accounts False (executeCommand depth cmdLine) := by
  induction depth generalizing cmdLine with
  | zero => exact .of_makes (makes_undefined trivial)
  | succ depth ih =>
      exact .bind removeFinishedJobs_accounts fun _ => .call trivial fun m =>
        .bind (.of_makes (makes_ofOption _ trivial)) fun cmd =>
        .bind (runCommand_accounts ih depth cmd) fun _ => removeFinishedJobs_accounts

/-- When a redirection or a pipe returns to the shell process, the same descriptors are
open as before it and standard output refers to the same file, exactly if no `open` or
first `dup2` of a redirection, no `fork` of a pipe and no `read` of `unsetenv` failed in
it or in a command it ran.  A redirection restores standard output after all that it
runs, so that the last restoring is its own. -/
theorem descriptors_restored_iff (depth : ℕ) {p : ShellM Unit}
    (hp : (∃ cmd, p = redirectionExecute (executeCommand depth) cmd) ∨
      ∃ cmd, p = pipeExecute (executeCommand depth) cmd)
    (hrun : Runs Step p s () s') :
    ∃ new, s'.history = s.history ++ new ∧ (¬ RestoreFailed new →
      ((∀ fd, s'.fds fd = none ↔ s.fds fd = none) ∧ s'.fds 1 = s.fds 1 ↔
        ∀ call, .failed call ∉ new)) := by
  have hsettled : Settled s s' := by
    obtain ⟨cmd, rfl⟩ | ⟨cmd, rfl⟩ := hp
    · exact redirectionExecute_settled (executeCommand_accounts depth) cmd s _ _ hrun
    · exact (pipeExecute_accounts _ cmd s _ _ hrun).settled
  obtain ⟨new, left, hacc, hstdout⟩ := hsettled
  refine ⟨new, hacc.history_eq, fun hrestore => ?_⟩
  rw [← not_exists, ← Leaky, ← hacc.left_eq]
  constructor
  · rintro ⟨hopen, -⟩
    refine Set.eq_empty_of_forall_notMem fun fd hfd => ?_
    obtain ⟨hbefore, hafter⟩ := hacc.leftOpen.opened fd hfd
    exact hafter ((hopen fd).mpr hbefore)
  · rintro rfl
    exact ⟨fun fd => hacc.leftOpen.kept fd (Set.notMem_empty fd),
      hstdout hrestore (Set.notMem_empty 1)⟩

/-- The child ends and is waited for. -/
def World.await (s : World) (pid : ℤ) : World :=
  { s with exited := s.exited ∪ {pid} }.reap pid

theorem Step.await (pid : ℤ) (hchild : pid ∈ s.children) :
    Step s (.waitpid pid false) (WaitResult.reaped .exited) (s.await pid) := by
  refine ⟨{pid}, Finset.singleton_subset_iff.mpr hchild, hchild, ?_, rfl⟩
  exact Finset.mem_union_right _ (Finset.mem_singleton_self pid)

/-- The shell after a pipe, with both of its children waited for. -/
def pipedShell : World :=
  let opened := (freshShell.setFd 3 (some 3)).setFd 4 (some 4)
  let forked := { opened with children := {102, 101} }
  (((forked.setFd 3 none).setFd 4 none).await 101).await 102

theorem runs_pipe (run : Text → ShellM Unit) (cmd : PipeCommand) :
    Runs Step (pipeExecute run cmd) freshShell () pipedShell := by
  refine Runs.call (x := some (3, 4)) (Step.of_effect (Or.inr
    ⟨3, 4, 3, 4, rfl, by decide, rfl, rfl, rfl⟩)) ?_
  refine Runs.call (x := (101 : ℤ)) (Step.of_effect (Or.inr
    ⟨by decide, by decide, rfl⟩)) ?_
  rw [if_neg (by decide), if_neg (by decide)]
  refine Runs.call (x := (102 : ℤ)) (Step.of_effect (Or.inr
    ⟨by decide, by decide, rfl⟩)) ?_
  rw [if_neg (by decide), if_neg (by decide)]
  refine Runs.call (x := true) (Step.of_effect (Or.inl ⟨rfl, by decide, rfl⟩)) ?_
  refine Runs.call (x := true) (Step.of_effect (Or.inl ⟨rfl, by decide, rfl⟩)) ?_
  apply Runs.call (Step.await 101 (by decide))
  apply Runs.call (Step.await 102 (by decide))
  exact ⟨rfl, rfl⟩

theorem descriptors_restored_iff_pipe :
    ∃ cmd s', createCommand [] (convertAliasToOriginal [] "ls | wc".toList)
        (trim "ls | wc".toList) = some (.pipe cmd) ∧
      Runs Step (pipeExecute (executeCommand 1) cmd) freshShell () s' ∧
      (∀ fd, s'.fds fd = none ↔ freshShell.fds fd = none) ∧
      s'.fds 1 = freshShell.fds 1 := by
  have hruns := runs_pipe (executeCommand 1)
    ⟨command "ls | wc".toList, "ls".toList, "wc".toList, false⟩
  obtain ⟨new, hnew, hiff⟩ := descriptors_restored_iff 1 (Or.inr ⟨_, rfl⟩) hruns
  obtain rfl : new = [.terminated 101, .terminated 102] := hnew.symm
  refine ⟨_, pipedShell, by decide +kernel, hruns, (hiff ?_).mpr (by simp)⟩
  rintro ⟨pre, post, heq, -⟩
  have hmem : Event.restored false ∈ [.terminated 101, .terminated 102] := by
    rw [heq]
    simp
  simp at hmem

/-- The file cannot be opened, and the copy of standard output stays open. -/
theorem runs_open_fails (run : Text → ShellM Unit) (cmd : RedirectionCommand) :
    Runs Step (redirectionExecute run cmd) freshShell ()
      { freshShell.setFd 3 (some 1) with history := [.failed .redirectionOpen] } := by
  refine Runs.call (x := some 3) (Step.of_effect (Or.inr ⟨3, 1, rfl, rfl, rfl, rfl⟩)) ?_
  refine Runs.call (x := none) (Step.of_effect (Or.inl ⟨rfl, rfl⟩)) ?_
  refine Runs.call (x := ()) (Step.of_effect rfl) ?_
  exact runs_perform.mpr (Step.of_effect rfl)

theorem stdout_copy_left_open :
    ∃ cmd s', createCommand [] (convertAliasToOriginal [] "ls > /nonexistent/x".toList)
        (trim "ls > /nonexistent/x".toList) = some (.redirection cmd) ∧
      Runs Step (redirectionExecute (executeCommand 1) cmd) freshShell () s' ∧
      (∀ ok, .restored ok ∉ s'.history) ∧
      ¬ ((∀ fd, s'.fds fd = none ↔ freshShell.fds fd = none) ∧
        s'.fds 1 = freshShell.fds 1) := by
  refine ⟨⟨command "ls > /nonexistent/x".toList, "ls".toList, "/nonexistent/x".toList,
    true⟩, _, by decide +kernel, runs_open_fails _ _, by simp, ?_⟩
  rintro ⟨hsame, -⟩
  have hopen : some 1 = none ↔ freshShell.fds 3 = none := hsame 3
  exact absurd (hopen.mpr rfl) (Option.some_ne_none 1)

end OsCoursework.Shell
