import OsCoursework.Shell.Execute

/-!
# The job table

`pending` reads off a history which background jobs were launched and have neither
been observed to end nor been brought to the foreground.  `Tracked` says that a list
of jobs is what the history asks for; the rules below say which calls keep it so.
-/

namespace OsCoursework.Shell

open OsCoursework.Calls

/-! ## What the history asks for -/

def pendingStep (jobs : List (ℤ × Text)) : Event → List (ℤ × Text)
  | .launched pid cmdStr => jobs ++ [(pid, cmdStr)]
  | .terminated pid => jobs.filter (·.1 ≠ pid)
  | .foregrounded pid => jobs.filter (·.1 ≠ pid)
  | _ => jobs

/-- The background jobs of a history, in the order of their launch. -/
def pending (history : List Event) : List (ℤ × Text) :=
  history.foldl pendingStep []

theorem pending_concat (history : List Event) (e : Event) :
    pending (history ++ [e]) = pendingStep (pending history) e := by
  rw [pending, List.foldl_append]
  rfl

/-- Launched, and nothing since then took the job away. -/
theorem mem_pending_iff {history : List Event} {pid : ℤ} {cmdStr : Text} :
    (pid, cmdStr) ∈ pending history ↔
      ∃ pre post, history = pre ++ .launched pid cmdStr :: post ∧
        .terminated pid ∉ post ∧ .foregrounded pid ∉ post := by
  induction history using List.reverseRecOn with
  | nil => simp [pending]
  | append_singleton history e ih =>
      -- The launch is in the earlier history, or it is the last event.
      have hsplit : (∃ pre post, history ++ [e] = pre ++ .launched pid cmdStr :: post ∧
            .terminated pid ∉ post ∧ .foregrounded pid ∉ post) ↔
          (pid, cmdStr) ∈ pending history ∧ e ≠ .terminated pid ∧ e ≠ .foregrounded pid ∨
            e = .launched pid cmdStr := by
        rw [ih]
        constructor
        · rintro ⟨pre, post, heq, hterm, hfg⟩
          rcases List.eq_nil_or_concat post with rfl | ⟨post, last, rfl⟩
          · exact Or.inr (List.append_inj_right' heq rfl |> List.cons.inj).1
          · rw [List.concat_eq_append] at heq hterm hfg
            rw [← List.cons_append, ← List.append_assoc] at heq
            obtain ⟨rfl, hlast⟩ := List.append_inj' heq rfl
            obtain rfl := (List.cons.inj hlast).1
            simp only [List.mem_append, List.mem_singleton, not_or] at hterm hfg
            exact Or.inl ⟨⟨pre, post, rfl, hterm.1, hfg.1⟩, Ne.symm hterm.2,
              Ne.symm hfg.2⟩
        · rintro (⟨⟨pre, post, rfl, hterm, hfg⟩, hne, hne'⟩ | rfl)
          · exact ⟨pre, post ++ [e], by simp, by simp [hterm, hne.symm],
              by simp [hfg, hne'.symm]⟩
          · exact ⟨history, [], rfl, by simp, by simp⟩
      rw [hsplit, pending_concat]
      cases e with
      | launched p c => simp [pendingStep, eq_comm]
      | added job others => simp [pendingStep]
      | terminated p => simp [pendingStep, @eq_comm _ p pid]
      | foregrounded p => simp [pendingStep, @eq_comm _ p pid]
      | failed call => simp [pendingStep]
      | restored ok => simp [pendingStep]

/-! ## Tables that follow the history -/

def JobEntry.key (job : JobEntry) : ℤ × Text :=
  (job.pid, job.cmdStr)

/-- The id of a new job: one more than the largest id of the others. -/
def IsNextId (id : ℤ) (others : List JobEntry) : Prop :=
  (∀ job ∈ others, job.jobId < id) ∧
    (others = [] ∧ id = 1 ∨ ∃ job ∈ others, id = job.jobId + 1)

/-- The jobs in the table, followed by jobs that are still to be added. -/
structure Tracked (jobs : List JobEntry) (extra : List (ℤ × Text)) (s : World) :
    Prop where
  ascending : jobs.Pairwise (·.jobId < ·.jobId)
  pids_nodup : ((jobs.map JobEntry.key ++ extra).map Prod.fst).Nodup
  child : ∀ pid ∈ (jobs.map JobEntry.key ++ extra).map Prod.fst, pid ∈ s.children
  pending_eq : pending s.history = jobs.map JobEntry.key ++ extra
  next_id : ∀ job others, .added job others ∈ s.history → IsNextId job.jobId others

variable {jobs tracked : List JobEntry} {extra : List (ℤ × Text)} {max : ℤ}
  {s s' : World}

/-- A job that ends or comes to the foreground leaves the table. -/
theorem Tracked.drop (h : Tracked tracked extra s) {pid : ℤ} {e : Event}
    (he : e = .terminated pid ∨ e = .foregrounded pid)
    (hhistory : s'.history = s.history ++ [e])
    (hchildren : ∀ p ∈ s.children, p ≠ pid → p ∈ s'.children) :
    Tracked (tracked.filter (·.pid ≠ pid)) (extra.filter (·.1 ≠ pid)) s' := by
  have hmap : (tracked.filter (·.pid ≠ pid)).map JobEntry.key ++
      extra.filter (·.1 ≠ pid) =
      (tracked.map JobEntry.key ++ extra).filter (·.1 ≠ pid) := by
    rw [List.filter_append, List.filter_map]
    rfl
  have hstep : pendingStep (pending s.history) e =
      (pending s.history).filter (·.1 ≠ pid) := by
    rcases he with rfl | rfl <;> rfl
  refine ⟨h.ascending.filter _, ?_, ?_, ?_, ?_⟩
  · rw [hmap]
    exact h.pids_nodup.sublist (List.filter_sublist.map _)
  · intro p hp
    rw [hmap] at hp
    obtain ⟨x, hx, rfl⟩ := List.mem_map.mp hp
    obtain ⟨hmem, hne⟩ := List.mem_filter.mp hx
    exact hchildren _ (h.child _ (List.mem_map_of_mem hmem)) (by simpa using hne)
  · rw [hhistory, pending_concat, hstep, h.pending_eq, hmap]
  · intro job others hmem
    rw [hhistory, List.mem_append, List.mem_singleton] at hmem
    rcases hmem with hmem | rfl
    · exact h.next_id job others hmem
    · rcases he with he | he <;> cases he

/-- A process that is no job. -/
theorem Tracked.drop_other (h : Tracked tracked extra s) {pid : ℤ} {e : Event}
    (he : e = .terminated pid ∨ e = .foregrounded pid)
    (hpid : pid ∉ (tracked.map JobEntry.key ++ extra).map Prod.fst)
    (hhistory : s'.history = s.history ++ [e])
    (hchildren : ∀ p ∈ s.children, p ≠ pid → p ∈ s'.children) :
    Tracked tracked extra s' := by
  have hdrop := h.drop he hhistory hchildren
  rw [List.map_append, List.mem_append, not_or] at hpid
  rwa [List.filter_eq_self.mpr, List.filter_eq_self.mpr] at hdrop
  · intro x hx
    refine decide_eq_true fun heq => hpid.2 ?_
    rw [← heq]
    exact List.mem_map_of_mem hx
  · intro job hjob
    refine decide_eq_true fun heq => hpid.1 ?_
    rw [← heq, List.map_map]
    exact List.mem_map_of_mem hjob

/-- The job itself, between the others. -/
theorem Tracked.drop_job {done rest : List JobEntry} {job : JobEntry}
    (h : Tracked (done ++ job :: rest) extra s) {e : Event}
    (he : e = .terminated job.pid ∨ e = .foregrounded job.pid)
    (hhistory : s'.history = s.history ++ [e])
    (hchildren : ∀ p ∈ s.children, p ≠ job.pid → p ∈ s'.children) :
    Tracked (done ++ rest) extra s' := by
  have hdrop := h.drop he hhistory hchildren
  have hnodup := h.pids_nodup
  simp only [List.map_append, List.map_cons, List.map_map, List.append_assoc,
    List.cons_append] at hnodup
  obtain ⟨-, htail, hdisj⟩ := List.nodup_append.mp hnodup
  have hafter := (List.nodup_cons.mp htail).1
  rw [List.mem_append, not_or] at hafter
  rw [List.filter_append, List.filter_cons_of_neg (by simp), List.filter_eq_self.mpr,
    List.filter_eq_self.mpr, List.filter_eq_self.mpr] at hdrop
  · exact hdrop
  · intro x hx
    refine decide_eq_true fun heq => hafter.2 ?_
    change job.pid ∈ _
    rw [← heq]
    exact List.mem_map_of_mem hx
  · intro x hx
    refine decide_eq_true fun heq => hafter.1 ?_
    change job.pid ∈ _
    rw [← heq]
    exact List.mem_map_of_mem (f := Prod.fst ∘ JobEntry.key) hx
  · intro x hx
    refine decide_eq_true fun heq => hdisj x.pid ?_ job.pid List.mem_cons_self heq
    exact List.mem_map_of_mem (f := Prod.fst ∘ JobEntry.key) hx

/-- A new child is launched. -/
theorem Tracked.launch (h : Tracked tracked [] s) {pid : ℤ} {cmdStr : Text}
    (hpid : pid ∉ (tracked.map JobEntry.key).map Prod.fst) (hchild : pid ∈ s.children)
    (hhistory : s'.history = s.history ++ [.launched pid cmdStr])
    (hchildren : s'.children = s.children) :
    Tracked tracked [(pid, cmdStr)] s' := by
  have hnodup := h.pids_nodup
  have hold := h.child
  rw [List.append_nil] at hnodup hold
  refine ⟨h.ascending, ?_, ?_, ?_, ?_⟩
  · rw [List.map_append, List.nodup_append]
    refine ⟨hnodup, List.nodup_singleton _, fun a ha b hb hab => hpid ?_⟩
    obtain rfl := List.mem_singleton.mp hb
    rwa [← hab]
  · intro p hp
    rw [hchildren]
    rw [List.map_append, List.mem_append] at hp
    rcases hp with hp | hp
    · exact hold p hp
    · obtain rfl := List.mem_singleton.mp hp
      exact hchild
  · rw [hhistory, pending_concat, h.pending_eq, List.append_nil]
    rfl
  · intro job others hmem
    rw [hhistory, List.mem_append, List.mem_singleton] at hmem
    exact h.next_id job others (hmem.resolve_right (by simp))

/-- The launched job gets the next id. -/
theorem Tracked.add {job : JobEntry} (h : Tracked tracked [job.key] s)
    (hid : IsNextId job.jobId tracked)
    (hhistory : s'.history = s.history ++ [.added job tracked])
    (hchildren : s'.children = s.children) : Tracked (tracked ++ [job]) [] s' := by
  have hmap : (tracked ++ [job]).map JobEntry.key ++ [] =
      tracked.map JobEntry.key ++ [job.key] := by
    rw [List.append_nil, List.map_append]
    rfl
  refine ⟨?_, ?_, ?_, ?_, ?_⟩
  · rw [List.pairwise_append]
    refine ⟨h.ascending, List.pairwise_singleton _ _, fun a ha b hb => ?_⟩
    obtain rfl := List.mem_singleton.mp hb
    exact hid.1 a ha
  · rw [hmap]
    exact h.pids_nodup
  · rw [hmap, hchildren]
    exact h.child
  · rw [hhistory, pending_concat, h.pending_eq, hmap]
    rfl
  · intro job' others hmem
    rw [hhistory, List.mem_append, List.mem_singleton] at hmem
    rcases hmem with hmem | hmem
    · exact h.next_id job' others hmem
    · cases hmem
      exact hid

end OsCoursework.Shell
