import OsCoursework.Shell.JobTable

/-!
# Rules for the job table

Most calls leave jobs alone.  For the others there is a rule each, and from these
come the rules for reaping jobs, for adding one and for removing one.
-/

namespace OsCoursework.Shell

open OsCoursework.Calls

variable {α : Type} {jobs tracked : List JobEntry} {extra : List (ℤ × Text)} {max : ℤ}
  {s s' : World}

/-! ## Calls that leave jobs alone -/

/-- An event that says nothing about jobs. -/
def Event.NoJob : Event → Prop
  | .failed _ => True
  | .restored _ => True
  | _ => False

/-- The memory and the children are as before, and nothing about jobs was recorded. -/
structure Kept (s s' : World) : Prop where
  memory_eq : s'.memory = s.memory
  children_eq : s'.children = s.children
  history_eq : ∃ new, s'.history = s.history ++ new ∧ ∀ e ∈ new, e.NoJob

instance : IsPreorder World Kept where
  refl s := ⟨rfl, rfl, [], by simp⟩
  trans s₁ s₂ s₃ h h' := by
    obtain ⟨new, hnew, hquiet⟩ := h.history_eq
    obtain ⟨new', hnew', hquiet'⟩ := h'.history_eq
    refine ⟨h'.memory_eq.trans h.memory_eq, h'.children_eq.trans h.children_eq,
      new ++ new', ?_, ?_⟩
    · rw [hnew', hnew, List.append_assoc]
    · intro e he
      rcases List.mem_append.mp he with he | he
      · exact hquiet e he
      · exact hquiet' e he

theorem Kept.of_eq (hm : s'.memory = s.memory) (hc : s'.children = s.children)
    (hh : s'.history = s.history) : Kept s s' :=
  ⟨hm, hc, [], by simp [hh]⟩

def LeavesJobs : Sys → Prop
  | .put _ => False
  | .fork => False
  | .waitpid _ _ => False
  | .note e => e.NoJob
  | _ => True

theorem Step.kept {o : Sys} {x : o.Answer} (ho : LeavesJobs o) (h : Step s o x s') :
    Kept s s' := by
  obtain ⟨ended, -, h⟩ := h
  cases o with
  | put m => exact ho.elim
  | fork => exact ho.elim
  | waitpid pid nohang => exact ho.elim
  | undefined => exact h.elim
  | exit status => exact h.elim
  | note e =>
      obtain rfl := h
      refine ⟨rfl, rfl, [e], rfl, fun e' he' => ?_⟩
      rw [List.mem_singleton.mp he']
      exact ho
  | get =>
      obtain ⟨-, rfl⟩ := h
      exact .of_eq rfl rfl rfl
  | getpid =>
      obtain ⟨-, rfl⟩ := h
      exact .of_eq rfl rfl rfl
  | dup fd =>
      obtain ⟨-, rfl⟩ | ⟨d, file, -, -, -, rfl⟩ := h <;> exact .of_eq rfl rfl rfl
  | openFile path mode =>
      obtain ⟨-, rfl⟩ | ⟨d, file, -, -, rfl⟩ := h <;> exact .of_eq rfl rfl rfl
  | dup2 oldFd newFd =>
      obtain ⟨-, rfl⟩ | ⟨file, -, -, rfl⟩ := h <;> exact .of_eq rfl rfl rfl
  | pipe =>
      obtain ⟨-, rfl⟩ | ⟨d, e, f, g, -, -, -, -, rfl⟩ := h <;> exact .of_eq rfl rfl rfl
  | close fd =>
      obtain ⟨-, -, rfl⟩ | ⟨-, -, rfl⟩ := h <;> exact .of_eq rfl rfl rfl
  | _ =>
      obtain rfl := h
      exact .of_eq rfl rfl rfl

theorem Tracked.congr (h : Tracked tracked extra s)
    (hc : ∀ p ∈ s.children, p ∈ s'.children) (hh : s'.history = s.history) :
    Tracked tracked extra s' where
  ascending := h.ascending
  pids_nodup := h.pids_nodup
  child := fun p hp => hc p (h.child p hp)
  pending_eq := by rw [hh, h.pending_eq]
  next_id := by
    rw [hh]
    exact h.next_id

theorem Tracked.kept (h : Tracked tracked extra s) (hk : Kept s s') :
    Tracked tracked extra s' := by
  obtain ⟨new, hnew, hquiet⟩ := hk.history_eq
  have hpending : pending s'.history = pending s.history := by
    rw [hnew]
    clear hnew
    induction new using List.reverseRecOn with
    | nil => rw [List.append_nil]
    | append_singleton new e ih =>
        rw [← List.append_assoc, pending_concat, ih fun e he => hquiet e (by simp [he])]
        have hnew : e.NoJob := hquiet e (by simp)
        cases e with
        | failed call => rfl
        | restored ok => rfl
        | launched pid cmdStr => exact hnew.elim
        | added job others => exact hnew.elim
        | terminated pid => exact hnew.elim
        | foregrounded pid => exact hnew.elim
  refine ⟨h.ascending, h.pids_nodup, ?_, ?_, ?_⟩
  · rw [hk.children_eq]
    exact h.child
  · rw [hpending, h.pending_eq]
  · intro job others hmem
    rw [hnew, List.mem_append] at hmem
    rcases hmem with hmem | hmem
    · exact h.next_id job others hmem
    · exact (hquiet _ hmem).elim

/-! ## Rules -/

/-- The job list and its largest id in memory, and the jobs the history asks for. -/
structure Holds (jobs tracked : List JobEntry) (extra : List (ℤ × Text)) (max : ℤ)
    (s : World) : Prop where
  jobList_eq : s.memory.jobList = jobs
  maxJobId_eq : s.memory.maxJobId = max
  tracked : Tracked tracked extra s

theorem Holds.kept (h : Holds jobs tracked extra max s) (hk : Kept s s') :
    Holds jobs tracked extra max s' :=
  ⟨by rw [hk.memory_eq, h.jobList_eq], by rw [hk.memory_eq, h.maxJobId_eq],
    h.tracked.kept hk⟩

theorem Holds.makes {p : ShellM α} (h : Holds jobs tracked extra max s)
    (hp : p.Makes LeavesJobs) :
    Post Step p s fun _ s' => Holds jobs tracked extra max s' :=
  fun _ _ hruns => h.kept (hp.rel (R := Kept) (fun _ _ _ _ => Step.kept) hruns)

theorem Holds.get {f : Memory → ShellM α} {Q : α → World → Prop}
    (h : Holds jobs tracked extra max s)
    (hf : ∀ m s', m.jobList = jobs → m.maxJobId = max → s'.memory = m →
      Holds jobs tracked extra max s' → Post Step (f m) s' Q) :
    Post Step (sys .get >>= f) s Q := by
  refine Post.call fun m s' hstep => ?_
  have hk := hstep.kept (show LeavesJobs .get from trivial)
  obtain ⟨ended, -, rfl, rfl⟩ := hstep
  exact hf _ _ h.jobList_eq h.maxJobId_eq rfl (h.kept hk)

/-- The new memory decides the list. -/
theorem Holds.put {m : Memory} (h : Holds jobs tracked extra max s) :
    Post Step (sys (.put m)) s fun _ s' =>
      Holds m.jobList tracked extra m.maxJobId s' := by
  refine Post.perform fun _ s' hstep => ?_
  obtain ⟨ended, -, rfl⟩ := hstep
  exact ⟨rfl, rfl, h.tracked.congr (fun _ hp => hp) rfl⟩

theorem Holds.setForegroundPid (h : Holds jobs tracked extra max s) (pid : ℤ) :
    Post Step (setForegroundPid pid) s fun _ s' => Holds jobs tracked extra max s' := by
  refine h.get fun m s₁ hjobs hmax hm h₁ => ?_
  refine h₁.put.mono fun _ s' h' => ?_
  rwa [hjobs, hmax] at h'

/-- A new child is no job. -/
theorem Holds.fork {f : ℤ → ShellM α} {Q : α → World → Prop}
    (h : Holds jobs tracked extra max s)
    (hfail : ∀ s', Holds jobs tracked extra max s' → Post Step (f (-1)) s' Q)
    (hpid : ∀ pid s', 0 < pid → pid ∈ s'.children →
      pid ∉ (tracked.map JobEntry.key ++ extra).map Prod.fst →
      Holds jobs tracked extra max s' → Post Step (f pid) s' Q) :
    Post Step (sys .fork >>= f) s Q := by
  refine Post.call fun pid s' hstep => ?_
  obtain ⟨ended, -, ⟨rfl, rfl⟩ | ⟨hpos, hnew, rfl⟩⟩ := hstep
  · exact hfail _ ⟨h.jobList_eq, h.maxJobId_eq, h.tracked.congr (fun _ hp => hp) rfl⟩
  · refine hpid pid _ hpos (Finset.mem_insert_self _ _)
      (fun hmem => hnew (h.tracked.child pid hmem)) ?_
    exact ⟨h.jobList_eq, h.maxJobId_eq,
      h.tracked.congr (fun _ hp => Finset.mem_insert_of_mem hp) rfl⟩

/-- Waiting for a process that is no job. -/
theorem Holds.waitpid (h : Holds jobs tracked extra max s) {pid : ℤ} {nohang : Bool}
    (hpid : pid ∉ (tracked.map JobEntry.key ++ extra).map Prod.fst) :
    Post Step (sys (.waitpid pid nohang)) s fun _ s' =>
      Holds jobs tracked extra max s' := by
  refine Post.perform fun result s' hstep => ?_
  obtain ⟨ended, -, hstep⟩ := hstep
  have hsame : Holds jobs tracked extra max { s with exited := s.exited ∪ ended } :=
    ⟨h.jobList_eq, h.maxJobId_eq, h.tracked.congr (fun _ hp => hp) rfl⟩
  match result, hstep with
  | .running, ⟨_, _, _, heq⟩ => exact heq ▸ hsame
  | .error .ECHILD, ⟨_, heq⟩ => exact heq ▸ hsame
  | .error .EINTR, ⟨_, heq⟩ => exact heq ▸ hsame
  | .reaped status, ⟨_, _, heq⟩ =>
      subst heq
      refine ⟨h.jobList_eq, h.maxJobId_eq, ?_⟩
      refine h.tracked.drop_other (Or.inl rfl) hpid rfl fun p hp hne => ?_
      exact Finset.mem_erase.mpr ⟨hne, hp⟩

/-! ## Reaping -/

/-- A finished job is one that has been waited for. -/
theorem isJobFinished_post {done rest : List JobEntry} {job : JobEntry}
    (h : Tracked (done ++ job :: rest) extra s) :
    Post Step (isJobFinished job) s fun finished s' => s'.memory = s.memory ∧
      Tracked (if finished then done ++ rest else done ++ job :: rest) extra s' := by
  refine Post.call fun result s' hstep => ?_
  obtain ⟨ended, -, hstep⟩ := hstep
  have hsame : Tracked (done ++ job :: rest) extra
      { s with exited := s.exited ∪ ended } := h.congr (fun _ hp => hp) rfl
  match result, hstep with
  | .running, ⟨_, _, _, heq⟩ =>
      subst heq
      exact Post.pure ⟨rfl, hsame⟩
  | .error .ECHILD, ⟨_, heq⟩ =>
      subst heq
      exact Post.pure ⟨rfl, hsame⟩
  | .error .EINTR, ⟨hnohang, _⟩ => cases hnohang
  | .reaped status, ⟨_, _, heq⟩ =>
      subst heq
      have hstatus : (status = .signaled || status = .exited : Bool) = true := by
        cases status <;> rfl
      refine Post.pure ⟨rfl, ?_⟩
      rw [if_pos hstatus]
      refine h.drop_job (Or.inl rfl) rfl fun p hp hne => ?_
      exact Finset.mem_erase.mpr ⟨hne, hp⟩

theorem reapLoop_post (rest done : List JobEntry)
    (h : Tracked (done ++ rest) extra s) :
    Post Step (reapLoop rest) s fun kept s' =>
      s'.memory = s.memory ∧ Tracked (done ++ kept) extra s' := by
  induction rest generalizing s done with
  | nil => exact Post.pure ⟨rfl, h⟩
  | cons job rest ih =>
      refine Post.seq (isJobFinished_post h) ?_
      rintro finished s₁ ⟨hmem₁, h₁⟩
      cases finished with
      | true =>
          refine Post.seq (ih done h₁) ?_
          rintro kept s₂ ⟨hmem₂, h₂⟩
          exact Post.pure ⟨hmem₂.trans hmem₁, h₂⟩
      | false =>
          have h₁' : Tracked ((done ++ [job]) ++ rest) extra s₁ := by simpa using h₁
          refine Post.seq (ih (done ++ [job]) h₁') ?_
          rintro kept s₂ ⟨hmem₂, h₂⟩
          refine Post.pure ⟨hmem₂.trans hmem₁, ?_⟩
          simpa using h₂

theorem sortJobs_eq {jobs : List JobEntry} (h : jobs.Pairwise (·.jobId < ·.jobId)) :
    sortJobs jobs = jobs :=
  List.mergeSort_of_pairwise (h.imp fun hlt => decide_eq_true hlt.le)

/-- The list in memory is what the history asks for. -/
def Listed (extra : List (ℤ × Text)) (s : World) : Prop :=
  Tracked s.memory.jobList extra s

/-- The job table after a command. -/
structure Table (s : World) : Prop where
  listed : Listed [] s
  maxJobId_eq : s.memory.maxJobId = backId s.memory.jobList

theorem removeFinishedJobs_post (h : Listed extra s) :
    Post Step removeFinishedJobs s fun _ s' =>
      Listed extra s' ∧ s'.memory.maxJobId = backId s'.memory.jobList := by
  have hholds : Holds s.memory.jobList s.memory.jobList extra s.memory.maxJobId s :=
    ⟨rfl, rfl, h⟩
  refine hholds.get fun m s₁ hjobs _ hm h₁ => ?_
  refine Post.call fun pid s₂ hstep => ?_
  have h₂ := h₁.kept (hstep.kept (show LeavesJobs .getpid from trivial))
  obtain ⟨ended, -, rfl, rfl⟩ := hstep
  -- This is the shell process, so that its own number is the one stored.
  rw [if_neg (not_not.mpr (by rw [hm]))]
  refine Post.seq (reapLoop_post m.jobList [] (hjobs ▸ h₂.tracked)) ?_
  rintro kept s₃ ⟨-, h₃⟩
  rw [List.nil_append] at h₃
  rw [sortJobs_eq h₃.ascending]
  have hholds₃ : Holds s₃.memory.jobList kept extra s₃.memory.maxJobId s₃ :=
    ⟨rfl, rfl, h₃⟩
  refine hholds₃.put.mono fun _ s' h' => ?_
  refine ⟨?_, ?_⟩
  · rw [Listed, h'.jobList_eq]
    exact h'.tracked
  · rw [h'.maxJobId_eq, h'.jobList_eq]

/-! ## Adding and removing -/

/-- One more than the last id is the next id. -/
theorem isNextId_backId {jobs : List JobEntry} (h : jobs.Pairwise (·.jobId < ·.jobId)) :
    IsNextId (backId jobs + 1) jobs := by
  rcases List.eq_nil_or_concat jobs with rfl | ⟨front, last, rfl⟩
  · exact ⟨by simp, Or.inl ⟨rfl, rfl⟩⟩
  · rw [List.concat_eq_append] at h ⊢
    have hback : backId (front ++ [last]) = last.jobId := by
      rw [backId, List.getLast?_concat]
    rw [hback]
    refine ⟨fun job hjob => ?_, Or.inr ⟨last, by simp, rfl⟩⟩
    rcases List.mem_append.mp hjob with hjob | hjob
    · have hlt := (List.pairwise_append.mp h).2.2 job hjob last (by simp)
      omega
    · rw [List.mem_singleton.mp hjob]
      omega

theorem addJob_post {pid : ℤ} {cmdStr : Text} (h : Listed [(pid, cmdStr)] s) :
    Post Step (addJob cmdStr pid) s fun _ s' => Table s' := by
  refine Post.seq (removeFinishedJobs_post h) ?_
  rintro _ s₁ ⟨h₁, hmax⟩
  have hholds : Holds s₁.memory.jobList s₁.memory.jobList [(pid, cmdStr)]
      s₁.memory.maxJobId s₁ := ⟨rfl, rfl, h₁⟩
  refine hholds.get fun m s₂ hjobs hm₂ _ h₂ => ?_
  split
  · exact post_undefined
  · rw [hm₂, hjobs]
    refine Post.call fun _ s₃ hstep => ?_
    obtain ⟨ended, -, rfl⟩ := hstep
    have hid : IsNextId (s₁.memory.maxJobId + 1) s₁.memory.jobList := by
      rw [hmax]
      exact isNextId_backId h₁.ascending
    -- The job that was launched is now listed.
    have hadd : Tracked (s₁.memory.jobList ++ [⟨s₁.memory.maxJobId + 1, pid, cmdStr⟩]) []
        { s₂ with
          exited := s₂.exited ∪ ended
          history := s₂.history ++
            [.added ⟨s₁.memory.maxJobId + 1, pid, cmdStr⟩ s₁.memory.jobList] } :=
      Tracked.add h₂.tracked hid rfl rfl
    refine (Holds.mk rfl rfl hadd).put.mono fun _ s' h' => ⟨?_, ?_⟩
    · rw [Listed, h'.jobList_eq]
      exact h'.tracked
    · rw [h'.maxJobId_eq, h'.jobList_eq, backId, List.getLast?_concat]

theorem Table.holds (h : Table s) :
    Holds s.memory.jobList s.memory.jobList [] s.memory.maxJobId s :=
  ⟨rfl, rfl, h.listed⟩

theorem Holds.table (h : Holds jobs jobs [] (backId jobs) s) : Table s := by
  refine ⟨?_, ?_⟩
  · rw [Listed, h.jobList_eq]
    exact h.tracked
  · rw [h.maxJobId_eq, h.jobList_eq]

/-- A table that a command leaves as it is. -/
theorem Table.makes {p : ShellM α} (h : Table s) (hp : p.Makes LeavesJobs) :
    Post Step p s fun _ s' => Table s' := by
  refine (h.holds.makes hp).mono fun _ s' h' => ?_
  rw [h.maxJobId_eq] at h'
  exact h'.table

/-- Removing a job by its id, when the history has already let it go. -/
theorem removeJobById_post {done rest : List JobEntry} {job : JobEntry}
    (hasc : (done ++ job :: rest).Pairwise (·.jobId < ·.jobId))
    (h : Holds (done ++ job :: rest) (done ++ rest) [] max s) :
    Post Step (removeJobById job.jobId) s fun _ s' => Table s' := by
  have hfilter : (done ++ job :: rest).filter (·.jobId ≠ job.jobId) = done ++ rest := by
    obtain ⟨-, htail, hcross⟩ := List.pairwise_append.mp hasc
    have hafter := (List.pairwise_cons.mp htail).1
    rw [List.filter_append, List.filter_cons_of_neg (by simp), List.filter_eq_self.mpr,
      List.filter_eq_self.mpr]
    · intro x hx
      exact decide_eq_true (hafter x hx).ne'
    · intro x hx
      exact decide_eq_true (hcross x hx job List.mem_cons_self).ne
  refine h.get fun m s₁ hjobs _ _ h₁ => ?_
  rw [hjobs, hfilter, sortJobs_eq h.tracked.ascending]
  exact h₁.put.mono fun _ s' h' => h'.table

end OsCoursework.Shell
