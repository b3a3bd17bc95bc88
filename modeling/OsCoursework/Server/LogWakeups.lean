import OsCoursework.Server.LogLock

/-!
# The lock strands nobody

A worker that waits to read does so because of a writer, and a writer that waits
while the lock is free is not alone: another writer has been woken and is about to
test again.  Both facts survive every move of the lock, since the move that frees
the lock for somebody also wakes somebody.
-/

namespace OsCoursework.Server.Logging

open OsCoursework.Monitor

abbrev WorkerStatus := Status Cond Outside Inside

abbrev Statuses (n : ℕ) := Fin n → WorkerStatus

variable {n : ℕ} {clock : ℕ → Timeval} {s s' : LogState n}

/-! ## Places of sleep -/

/-- The phase in which a worker waits for `c`. -/
def Cond.phase : Cond → Phase
  | .readersAllowed => .idle
  | .writersAllowed => .waiting

theorem Move.phase_of_waits {l l' : Lock} {ph ph' : Phase}
    {wakes : List (Wake Cond)} {waits : Option Cond}
    (h : Move l l' ph ph' wakes waits) {c : Cond} (hc : waits = some c) :
    ph' = c.phase := by
  cases h <;> cases hc <;> rfl

theorem LoggingState.asleep_phase (hs : LoggingState clock s) (i : Fin n) (c : Cond)
    (k : Inside) (hst : s.status i = .asleep c k) :
    phase (.inside k) = c.phase := by
  obtain ⟨stale, hs⟩ := hs
  refine Reachable.asleep hs
    (R := fun _ c k => phase (.inside k) = c.phase) ?_ ?_ i c k hst
  · intro t c k h
    cases h
  · intro t l d out c k hin hexit
    have hmove := inside_move hin
    rw [hexit] at hmove
    exact hmove.phase_of_waits rfl

/-! ## Testing again -/

/-- The worker is inside `writer_lock`, not in the wait set, and about to test the
condition again. -/
def Retests (st : WorkerStatus) : Prop :=
  ∃ r, st = .blocked (.writerRetest r) ∨ st = .holding (.writerRetest r)

theorem eq_writerRetest {k : Inside} (h : phase (.inside k) = .waiting) :
    ∃ r, k = .writerRetest r := by
  cases k with
  | writerRetest r => exact ⟨r, rfl⟩
  | _ => cases h

theorem Retests.phase_eq {st : WorkerStatus} (h : Retests st) :
    phase st.place = .waiting := by
  obtain ⟨r, rfl | rfl⟩ := h <;> rfl

theorem Retests.not_asleepOn {st : WorkerStatus} (h : Retests st) (c : Cond) :
    ¬ st.AsleepOn c := by
  obtain ⟨r, rfl | rfl⟩ := h <;> exact id

theorem Retests.wakeOn {st : WorkerStatus} (h : Retests st) (c : Cond) :
    Retests (st.wakeOn c) := by
  obtain ⟨r, rfl | rfl⟩ := h
  · exact ⟨r, Or.inl rfl⟩
  · exact ⟨r, Or.inr rfl⟩

/-! ## The invariant -/

structure Wakeful (l : Lock) (f : Statuses n) : Prop where
  readers : ∀ i, (f i).AsleepOn .readersAllowed →
    0 < l.writers ∨ 0 < l.waitingWriters
  writers : ∀ i, (f i).AsleepOn .writersAllowed → l.readers ≤ 0 →
    l.writers ≤ 0 → ∃ j, Retests (f j)

/-- A worker moves outside the locked sections and does not fall asleep. -/
theorem Wakeful.frame {l : Lock} {f : Statuses n} {i : Fin n} {st : WorkerStatus}
    (h : Wakeful l f) (hawake : ∀ c, ¬ st.AsleepOn c)
    (hretest : Retests (f i) → Retests st) :
    Wakeful l (Function.update f i st) := by
  have hasleep {c : Cond} {j : Fin n}
      (hj : (Function.update f i st j).AsleepOn c) : (f j).AsleepOn c := by
    by_cases hji : j = i
    · subst hji
      rw [Function.update_self] at hj
      exact absurd hj (hawake c)
    · rwa [Function.update_of_ne hji] at hj
  refine ⟨fun j hj => h.readers j (hasleep hj), ?_⟩
  intro j hj hreaders hwriters
  obtain ⟨u, hu⟩ := h.writers j (hasleep hj) hreaders hwriters
  refine ⟨u, ?_⟩
  by_cases hui : u = i
  · subst hui
    rw [Function.update_self]
    exact hretest hu
  · rwa [Function.update_of_ne hui]

/-! ## Leaving a locked section -/

section Leave

variable {l l' : Lock} {f g : Statuses n} {i : Fin n} {k : Inside}
  {ph' : Phase} {wakes : List (Wake Cond)} {e : Exit Cond Outside Inside}

/-- Who sleeps after a section slept before, or is the worker that left it. -/
theorem asleepOn_of_leave (hwoken : WokenAll wakes f g) {c : Cond} {j : Fin n}
    (hj : (Function.update g i e.status j).AsleepOn c) :
    (j = i ∧ e.waits = some c) ∨ (j ≠ i ∧ (g j).AsleepOn c ∧ (f j).AsleepOn c) := by
  by_cases hji : j = i
  · subst hji
    rw [Function.update_self] at hj
    exact Or.inl ⟨rfl, Exit.status_asleepOn_iff.mp hj⟩
  · rw [Function.update_of_ne hji] at hj
    obtain ⟨m, hm⟩ := Status.asleepOn_iff.mp hj
    have hf := hwoken.eq_asleep hm
    exact Or.inr ⟨hji, hj, Status.asleepOn_iff.mpr ⟨m, hf⟩⟩

/-- A writer about to test again still is when another worker leaves a section. -/
theorem retests_of_leave (hwoken : WokenAll wakes f g) (hst : f i = .holding k)
    (hk : phase (.inside k) ≠ .waiting) {j : Fin n} (hj : Retests (f j)) :
    Retests (Function.update g i e.status j) := by
  have hji : j ≠ i := by
    rintro rfl
    rw [hst] at hj
    exact hk hj.phase_eq
  rw [Function.update_of_ne hji]
  exact hwoken.forall (R := Retests) (fun c st h => h.wakeOn c) hj

/-- A signal to a waiting writer makes it test again. -/
theorem exists_retests_of_signal (hst : f i = .holding k)
    (hsleep : ∀ j c m, f j = .asleep c m → phase (.inside m) = c.phase)
    (hwoken : WokenAll [.signal .writersAllowed] f g) {j : Fin n}
    (hj : (f j).AsleepOn .writersAllowed) :
    ∃ u, Retests (Function.update g i e.status u) := by
  cases hwoken with
  | cons hw hrest =>
      cases hrest
      cases hw with
      | @signal _ _ u hu =>
          obtain ⟨m, hm⟩ := Status.asleepOn_iff.mp hu
          obtain ⟨r, rfl⟩ := eq_writerRetest (hsleep u _ m hm)
          have hui : u ≠ i := by
            rintro rfl
            rw [hst] at hm
            cases hm
          refine ⟨u, r, Or.inl ?_⟩
          rw [Function.update_of_ne hui, Function.update_self, hm]
          rfl
      | nobody hnone => exact absurd hj (hnone j)

/-- A broadcast to the readers leaves none of them asleep. -/
theorem not_asleepOn_of_broadcast (hwoken : WokenAll [.broadcast .readersAllowed] f g)
    (j : Fin n) : ¬ (g j).AsleepOn .readersAllowed := by
  cases hwoken with
  | cons hw hrest =>
      cases hrest
      cases hw
      rw [Status.wakeOn_asleepOn_iff]
      exact fun h => h.2 rfl

theorem Wakeful.leave_readers (h : Wakeful l f) (hwoken : WokenAll wakes f g)
    {ph : Phase} {waits : Option Cond} (hmove : Move l l' ph ph' wakes waits)
    (hwaits : e.waits = waits) (j : Fin n)
    (hj : (Function.update g i e.status j).AsleepOn .readersAllowed) :
    0 < l'.writers ∨ 0 < l'.waitingWriters := by
  rcases asleepOn_of_leave hwoken hj with ⟨-, hown⟩ | ⟨-, hg, hf⟩
  · -- The worker itself went to sleep: `reader_lock` found a writer.
    rw [hwaits] at hown
    cases hmove with
    | readerWait hwriter => exact hwriter
    | _ => cases hown
  · have hold := h.readers j hf
    cases hmove with
    | readerWait _ => exact hold
    | read hwriters hwaiting => omega
    | readDone => exact hold
    | writerWait _ =>
        dsimp only
        omega
    | writerRewait _ => exact hold
    | writeAtOnce _ _ => exact Or.inl Int.one_pos
    | write _ _ => exact Or.inl Int.one_pos
    | writeDone =>
        split at hwoken
        · next hwaiting => exact Or.inr hwaiting
        · exact absurd hg (not_asleepOn_of_broadcast hwoken j)

theorem Wakeful.leave_writers (h : Wakeful l f)
    (hinv : LockInv l fun j => (f j).place) (hst : f i = .holding k)
    (hsleep : ∀ j c m, f j = .asleep c m → phase (.inside m) = c.phase)
    (hwoken : WokenAll wakes f g) {ph : Phase} {waits : Option Cond}
    (hmove : Move l l' ph ph' wakes waits) (hk : phase (.inside k) = ph)
    (hwaits : e.waits = waits) (j : Fin n)
    (hj : (Function.update g i e.status j).AsleepOn .writersAllowed)
    (hreaders : l'.readers ≤ 0) (hwriters : l'.writers ≤ 0) :
    ∃ u, Retests (Function.update g i e.status u) := by
  have hcount := hinv.readers_eq
  rcases asleepOn_of_leave hwoken hj with ⟨-, hown⟩ | ⟨-, -, hf⟩
  · -- The worker itself went to sleep: somebody has the lock.
    rw [hwaits] at hown
    cases hmove with
    | writerWait hbusy =>
        dsimp only at hreaders hwriters
        omega
    | writerRewait hbusy => omega
    | _ => cases hown
  · cases hmove with
    | readerWait _ =>
        obtain ⟨u, hu⟩ := h.writers j hf hreaders hwriters
        exact ⟨u, retests_of_leave hwoken hst (by rw [hk]; decide) hu⟩
    | read _ _ =>
        dsimp only at hreaders
        omega
    | readDone =>
        have hread : i ∈ inPhase .reading fun j => (f j).place := by
          apply mem_inPhase.mpr
          rw [hst]
          exact hk
        have hpos := Finset.card_pos.mpr ⟨i, hread⟩
        dsimp only at hreaders
        rw [if_pos (by omega)] at hwoken
        exact exists_retests_of_signal hst hsleep hwoken hf
    | writerWait hbusy =>
        dsimp only at hreaders hwriters
        omega
    | writerRewait hbusy => omega
    | writeAtOnce _ _ => exact absurd hwriters Int.one_pos.not_ge
    | write _ _ => exact absurd hwriters Int.one_pos.not_ge
    | writeDone =>
        obtain ⟨m, hm⟩ := Status.asleepOn_iff.mp hf
        have hwait : j ∈ inPhase .waiting fun j => (f j).place := by
          apply mem_inPhase.mpr
          rw [hm]
          exact hsleep j _ m hm
        have hpos := Finset.card_pos.mpr ⟨j, hwait⟩
        have hwaiting := hinv.waitingWriters_eq
        rw [if_pos (by omega)] at hwoken
        exact exists_retests_of_signal hst hsleep hwoken hf

end Leave

/-! ## Runs -/

theorem Wakeful.step (h : Wakeful s.data.lock s.status) (hs : LoggingState clock s)
    (hstep : Step (program clock n) s s') : Wakeful s'.data.lock s'.status := by
  cases hstep with
  | @run t o d p hst hout =>
      rw [(outside_frame hout).1]
      refine h.frame (p.not_asleepOn ·) fun hretest => ?_
      rw [hst] at hretest
      obtain ⟨r, hr | hr⟩ := hretest <;> cases hr
  | @acquire t k hst _ =>
      refine h.frame (fun _ => id) fun hretest => ?_
      rw [hst] at hretest
      obtain ⟨r, hr | hr⟩ := hretest
      · cases hr
        exact ⟨r, Or.inr rfl⟩
      · cases hr
  | @leave t k out g hst _ hin hwoken =>
      have hmove := inside_move hin
      exact ⟨h.leave_readers hwoken hmove rfl,
        h.leave_writers hs.lockInv hst hs.asleep_phase hwoken hmove rfl rfl⟩
  | @wakeup t c k hst =>
      refine h.frame (fun _ => id) fun hretest => ?_
      rw [hst] at hretest
      obtain ⟨r, hr | hr⟩ := hretest <;> cases hr

theorem LoggingState.wakeful (hs : LoggingState clock s) :
    Wakeful s.data.lock s.status := by
  obtain ⟨stale, hs⟩ := hs
  induction hs with
  | refl => exact ⟨fun i hi => absurd hi id, fun i hi => absurd hi id⟩
  | tail hrun hstep ih => exact ih.step ⟨stale, hrun⟩ hstep

/-- If writers wait for a free lock, one of them is about to test again. -/
theorem LoggingState.exists_retests (hs : LoggingState clock s)
    (hwaiting : 0 < s.data.waitingWriters) (hreaders : s.data.readers ≤ 0)
    (hwriters : s.data.writers ≤ 0) : ∃ j, Retests (s.status j) := by
  have heq : s.data.waitingWriters = (inPhase .waiting s.config.place).card :=
    hs.lockInv.waitingWriters_eq
  obtain ⟨u, hu⟩ := Finset.card_pos.mp
    (show 0 < (inPhase .waiting s.config.place).card by omega)
  have hphase : phase (s.status u).place = .waiting :=
    mem_inPhase (f := s.config.place).mp hu
  cases hst : s.status u with
  | running o =>
      rw [hst] at hphase
      cases o <;> cases hphase
  | blocked k =>
      rw [hst] at hphase
      obtain ⟨r, rfl⟩ := eq_writerRetest hphase
      exact ⟨u, r, Or.inl hst⟩
  | holding k =>
      rw [hst] at hphase
      obtain ⟨r, rfl⟩ := eq_writerRetest hphase
      exact ⟨u, r, Or.inr hst⟩
  | asleep c k =>
      rw [hst] at hphase
      have hc : c.phase = .waiting := (hs.asleep_phase u c k hst).symm.trans hphase
      cases c with
      | readersAllowed => cases hc
      | writersAllowed =>
          exact hs.wakeful.writers u (Status.asleepOn_iff.mpr ⟨k, hst⟩) hreaders
            hwriters

/-- While somebody sleeps and nobody has the lock, a writer is about to get it. -/
theorem LoggingState.exists_retests_of_free (hs : LoggingState clock s) {i : Fin n}
    {c : Cond} (hi : (s.status i).AsleepOn c) (hfree : ∀ j, ¬ Reads s j ∧ ¬ Writes s j) :
    ∃ j, Retests (s.status j) := by
  have hreaders : s.data.readers = (inPhase .reading s.config.place).card :=
    hs.lockInv.readers_eq
  have hwriters : s.data.writers = (inPhase .writing s.config.place).card :=
    hs.lockInv.writers_eq
  rw [card_inPhase_eq_zero (f := s.config.place) fun j => (hfree j).1] at hreaders
  rw [card_inPhase_eq_zero (f := s.config.place) fun j => (hfree j).2] at hwriters
  cases c with
  | writersAllowed => exact hs.wakeful.writers i hi hreaders.le hwriters.le
  | readersAllowed =>
      rcases hs.wakeful.readers i hi with hwriter | hwaiting
      · change 0 < s.data.writers at hwriter
        omega
      · exact hs.exists_retests hwaiting hreaders.le hwriters.le

/-- Readers wait only for writers, a writer that waits for a free lock is not the
last one awake, and so nobody waits for ever because of a lost wakeup. -/
theorem lock_strands_nobody (n : ℕ) (clock : ℕ → Timeval) (s : LogState n)
    (hs : LoggingState clock s) :
    (∀ i, (s.status i).AsleepOn .readersAllowed →
      0 < s.data.writers ∨ 0 < s.data.waitingWriters) ∧
    (∀ i, (s.status i).AsleepOn .writersAllowed → s.data.readers = 0 →
      s.data.writers = 0 → ∃ j, j ≠ i ∧ Retests (s.status j)) ∧
    ¬ ((∃ i c, (s.status i).AsleepOn c) ∧ (∀ i, ¬ Reads s i ∧ ¬ Writes s i) ∧
      ∀ i, ¬ Retests (s.status i)) := by
  refine ⟨hs.wakeful.readers, ?_, ?_⟩
  · intro i hi hreaders hwriters
    obtain ⟨j, hj⟩ := hs.wakeful.writers i hi hreaders.le hwriters.le
    refine ⟨j, ?_, hj⟩
    rintro rfl
    exact hj.not_asleepOn _ hi
  · rintro ⟨⟨i, c, hi⟩, hfree, hnone⟩
    obtain ⟨j, hj⟩ := hs.exists_retests_of_free hi hfree
    exact hnone j hj

theorem lock_strands_nobody_asleep : ∃ s : LogState 2,
    (s.status 1).AsleepOn .readersAllowed ∧
      (0 < s.data.writers ∨ 0 < s.data.waitingWriters) := by
  obtain ⟨s, hs, -, hasleep⟩ := exists_writing
  exact ⟨s, hasleep, (lock_strands_nobody 2 _ s hs).1 1 hasleep⟩

end OsCoursework.Server.Logging
