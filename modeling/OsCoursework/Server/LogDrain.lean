import OsCoursework.Server.Counting
import OsCoursework.Server.LogRoom
import OsCoursework.Server.LogWakeups
import OsCoursework.Support.Schedule

/-!
# Requests at the log are answered

Between two arrivals the workers only work off the requests they have.  A worker that
unlocks may wake all the others with a broadcast, and each of these may find the lock
taken and sleep again, but nobody unlocks more often than once for a request: so a
request costs a bounded number of steps in whatever order the workers take them.  Where
no step is left but an arrival or a spurious wakeup, every request has been answered,
unless a worker cannot go on for a reason of its own.
-/

namespace OsCoursework.Server.Logging

open OsCoursework.Monitor
open OsCoursework.Transition

variable {n : ℕ} {clock : ℕ → Timeval} {s s' : LogState n}

/-! ## The potential -/

/-- The steps of `add_to_log` up to the unlocking. -/
def writeRank (n : ℕ) : WriteStage → ℕ
  | .format => 2 * n + 10
  | .grow _ => 2 * n + 9
  | .copy _ => 2 * n + 8
  | .advance _ => 2 * n + 7
  | .terminate => 2 * n + 6

def readRank : ReadStage → ℕ
  | .malloc => 8
  | .copy _ => 7
  | .length _ => 6

def outsideRank (n : ℕ) : Outside → ℕ
  | .ready => 0
  | .writing _ stage => writeRank n stage
  | .sendGet _ => 1
  | .reading _ stage => readRank stage
  | .sendPost _ _ _ _ => 1

/-- For a worker in the wait set.  Waking up another worker counts two, and unlocking
after a write may wake up all of them. -/
def insideRank (n : ℕ) : Inside → ℕ
  | .writerLock _ => 2 * n + 12
  | .writerRetest _ => 2 * n + 11
  | .writerUnlock _ => 2 * n + 3
  | .readerLock _ => 8
  | .readerUnlock _ _ _ => 3

/-- How many steps a worker has ahead of it, those of the workers it wakes included. -/
def logRank (n : ℕ) (_ : Fin n) : WorkerStatus → ℕ
  | .running o => outsideRank n o
  | .blocked k => insideRank n k + 2
  | .holding k => insideRank n k + 1
  | .asleep _ k => insideRank n k

def potential (s : LogState n) : ℕ :=
  work (logRank n) s.status

/-- What arrivals have paid for. -/
def earned (s : LogState n) : ℕ :=
  (2 * n + 15) * s.data.arrived

/-- A worker wakes up without being signalled. -/
def Spurious : Event (Fin n) → Bool
  | .wakeup _ => true
  | _ => false

def credit (e : Event (Fin n)) : ℕ :=
  if Spurious e then 3 else 0

theorem logRank_blocked_le (i : Fin n) (c : Cond) (k : Inside) :
    logRank n i (.blocked k) ≤ logRank n i (.asleep c k) + 2 :=
  Nat.le_refl _

theorem logRank_le (i : Fin n) (st : WorkerStatus) : logRank n i st ≤ 2 * n + 14 := by
  have houtside (o : Outside) : outsideRank n o ≤ 2 * n + 14 := by
    rcases o with _ | ⟨r, stage⟩ | _ | ⟨r, stage⟩ | _
    · simp only [outsideRank]
      omega
    · cases stage <;> simp only [outsideRank, writeRank] <;> omega
    · simp only [outsideRank]
      omega
    · cases stage <;> simp only [outsideRank, readRank] <;> omega
    · simp only [outsideRank]
      omega
  have hinside (k : Inside) : insideRank n k ≤ 2 * n + 12 := by
    cases k <;> simp only [insideRank] <;> omega
  cases st with
  | running o => exact houtside o
  | blocked k => exact Nat.add_le_add_right (hinside k) 2
  | holding k => exact Nat.add_le_add_right ((hinside k).trans (Nat.le_succ _)) 1
  | asleep c k => exact (hinside k).trans (Nat.le_add_right _ 2)

/-- No section begins a request, and each leaves less work than it found. -/
theorem inside_rank {i : Fin n} {k : Inside} {d : Data n}
    {out : Outcome Cond Outside Inside (Data n)} (h : inside clock i k d = some out) :
    out.data.arrived = d.arrived ∧
      logRank n i out.exit.status + 2 * (out.wakes.map (Wake.reach n)).sum <
        logRank n i (.holding k) := by
  have hpos : 0 < n := i.pos
  have hretest {r : Get} {d : Data n} (hrun : writerRetest clock i d r = some out) :
      out.data.arrived = d.arrived ∧
        logRank n i out.exit.status + 2 * (out.wakes.map (Wake.reach n)).sum < 2 * n + 12 := by
    rcases writerRetest_cases hrun with
      ⟨-, hdata, hwakes, hexit⟩ | ⟨-, -, hwakes, _, -, hdata, hexit⟩ <;>
      rw [hdata, hwakes, hexit] <;> refine ⟨rfl, ?_⟩ <;>
      simp only [Exit.status, Place.status, logRank, insideRank, outsideRank, writeRank,
        List.map_nil, List.sum_nil] <;> omega
  cases k with
  | writerLock r =>
      obtain ⟨waiting, -, hrun⟩ := Option.bind_eq_some_iff.mp h
      obtain ⟨harrived, hlt⟩ := hretest hrun
      exact ⟨harrived, hlt.trans (Nat.lt_succ_self _)⟩
  | writerRetest r => exact hretest h
  | writerUnlock r =>
      cases h
      refine ⟨rfl, ?_⟩
      dsimp only
      split <;> simp only [Exit.status, Place.status, logRank, insideRank, outsideRank,
        List.map_cons, List.map_nil, List.sum_singleton, Wake.reach] <;> omega
  | readerLock r =>
      change readerLock clock d r = some out at h
      rw [readerLock] at h
      split at h
      · cases h
        exact ⟨rfl, Nat.lt_succ_self _⟩
      · obtain ⟨readers, -, h⟩ := Option.bind_eq_some_iff.mp h
        cases h
        exact ⟨rfl, Nat.lt_succ_self _⟩
  | readerUnlock r dst len =>
      obtain ⟨readers, -, h⟩ := Option.bind_eq_some_iff.mp h
      cases h
      refine ⟨rfl, ?_⟩
      dsimp only
      split <;> simp only [Exit.status, Place.status, logRank, insideRank, outsideRank,
        List.map_cons, List.map_nil, List.sum_singleton, List.sum_nil, Wake.reach] <;> omega

/-- Without the mutex, a worker goes on with its request or takes the next one. -/
theorem outside_rank {i : Fin n} {o : Outside} {d d' : Data n} {p : Place Outside Inside}
    (h : outside clock i o d d' p) :
    o ≠ .ready ∧ d'.arrived = d.arrived ∧ logRank n i p.status < outsideRank n o ∨
      o = .ready ∧ d'.arrived = d.arrived + 1 ∧ logRank n i p.status ≤ 2 * n + 14 := by
  cases o with
  | ready =>
      obtain ⟨host, method, uri, tmStats, t, prepared, -, harrive⟩ := h
      right
      cases prepared <;> (cases harrive; exact ⟨rfl, rfl, logRank_le i _⟩)
  | writing r stage =>
      left
      cases stage with
      | format =>
          obtain ⟨rfl, rfl⟩ := h
          exact ⟨nofun, rfl, Nat.lt_succ_self _⟩
      | _ =>
          obtain ⟨log, -, rfl, rfl⟩ := h
          exact ⟨nofun, rfl, Nat.lt_succ_self _⟩
  | sendGet r =>
      obtain ⟨body, -, rfl, rfl⟩ := h
      exact Or.inl ⟨nofun, rfl, Nat.zero_lt_one⟩
  | reading r stage =>
      left
      cases stage with
      | malloc =>
          obtain ⟨rfl, size, -, rfl⟩ := h
          exact ⟨nofun, rfl, Nat.lt_succ_self _⟩
      | copy size =>
          obtain ⟨rfl, bytes, dst, -, -, -, rfl⟩ := h
          exact ⟨nofun, rfl, Nat.lt_succ_self _⟩
      | length dst =>
          obtain ⟨rfl, rfl⟩ := h
          exact ⟨nofun, rfl, Nat.lt_succ_self _⟩
  | sendPost r returned dst len =>
      obtain ⟨body, -, rfl, rfl⟩ := h
      exact Or.inl ⟨nofun, rfl, Nat.zero_lt_one⟩

/-- Every event lowers the potential, up to its credit and what an arrival earns. -/
theorem potential_occurs {e : Event (Fin n)} (hocc : Occurs (program clock n) e s s') :
    potential s' + earned s + 1 ≤ potential s + earned s' + credit e := by
  cases hocc with
  | @run s i o d p hst hout =>
      have hmove := work_update (logRank n) s.status i p.status
      rw [hst] at hmove
      rw [potential, potential, earned, earned]
      rcases outside_rank hout with ⟨-, harrived, hlt⟩ | ⟨rfl, harrived, hle⟩
      · rw [harrived]
        simp only [logRank] at hmove hlt ⊢
        omega
      · rw [harrived, Nat.mul_succ]
        simp only [logRank, outsideRank] at hmove hle ⊢
        omega
  | @acquire s i k hst _ =>
      have hmove := work_update (logRank n) s.status i (.holding k)
      rw [hst] at hmove
      simp only [potential, earned, logRank] at hmove ⊢
      omega
  | @leave s i k out f hst _ hin hwoken =>
      have hle := hwoken.work_update_le (logRank n) logRank_blocked_le hst out.exit.status
      obtain ⟨harrived, hlt⟩ := inside_rank hin
      rw [Fintype.card_fin] at hle
      rw [potential, potential, earned, earned, harrived]
      dsimp only
      omega
  | @wakeup s i c k hst =>
      have hmove := work_update (logRank n) s.status i (.blocked k)
      rw [hst] at hmove
      simp only [potential, earned, credit, Spurious, logRank, if_true] at hmove ⊢
      omega

/-! ## Runs -/

theorem sum_credit (es : List (Event (Fin n))) :
    (es.map credit).sum = 3 * es.countP Spurious := by
  induction es with
  | nil => rfl
  | cons e es ih =>
      rw [List.map_cons, List.sum_cons, ih, List.countP_cons, credit]
      split <;> omega

theorem potential_start (n : ℕ) (stale : ℕ → Char) : potential (start n stale) = 0 := by
  rw [potential, work]
  exact Finset.sum_eq_zero fun _ _ => rfl

/-- However the workers are scheduled, a request costs at most `2 * n + 15` steps, the
sleeping, the wakeups and the turns of the mutex included, and a spurious wakeup at
most 3. -/
theorem log_steps_le (n : ℕ) (clock : ℕ → Timeval) (stale : ℕ → Char)
    (es : List (Event (Fin n))) (s : LogState n)
    (hrun : Run (Occurs (program clock n)) es (start n stale) s) :
    es.length ≤ (2 * n + 15) * s.data.arrived + 3 * es.countP Spurious := by
  have hpaid := hrun.amortised earned (I := fun _ => True) (fun _ _ _ _ _ => trivial)
    (fun _ _ _ _ hocc => potential_occurs hocc) trivial
  rw [sum_credit, potential_start] at hpaid
  rw [earned, earned] at hpaid
  omega

theorem log_steps_le_one : ∃ stale es s,
    Run (Occurs (program (fun _ => midnight) 1)) es (start 1 stale) s ∧
      s.data.completed.length = 1 ∧
      es.length ≤ (2 * 1 + 15) * s.data.arrived + 3 * es.countP Spurious := by
  obtain ⟨s, ⟨stale, hs⟩, hone, -⟩ := exists_logged
  obtain ⟨es, hrun⟩ := Reachable.exists_run hs
  exact ⟨stale, es, s, hrun, hone, log_steps_le 1 _ stale es s hrun⟩

/-- A step of the work that is there: no request arrives, and nobody wakes up without
being signalled. -/
def Works (clock : ℕ → Timeval) (e : Event (Fin n)) (s s' : LogState n) : Prop :=
  Occurs (program clock n) e s s' ∧ Spurious e = false ∧
    ∀ i, e = .run i → s.status i ≠ .running .ready

theorem Works.potential_lt {e : Event (Fin n)} (h : Works clock e s s') :
    s'.data.arrived = s.data.arrived ∧ potential s' < potential s := by
  obtain ⟨hocc, hspurious, hready⟩ := h
  have harrived : s'.data.arrived = s.data.arrived := by
    cases hocc with
    | run hst hout =>
        rcases outside_rank hout with ⟨-, harrived, -⟩ | ⟨rfl, -⟩
        · exact harrived
        · exact absurd hst (hready _ rfl)
    | acquire _ _ => rfl
    | leave _ _ hin _ => exact (inside_rank hin).1
    | wakeup _ => rfl
  have hpaid := potential_occurs hocc
  rw [earned, earned, harrived, credit, hspurious, if_neg Bool.false_ne_true] at hpaid
  exact ⟨harrived, by omega⟩

theorem potential_le (s : LogState n) : potential s ≤ (2 * n + 14) * n := by
  rw [potential, work]
  refine (Finset.sum_le_sum fun i _ => logRank_le i (s.status i)).trans ?_
  rw [Finset.sum_const_nat fun _ _ => rfl, Finset.card_univ, Fintype.card_fin, Nat.mul_comm]

/-! ## Rest -/

/-- Worker `i` cannot finish its request: its entry does not fit an `int` with the text,
or it has to send a body that could not be allocated. -/
def HeldUp (s : LogState n) (i : Fin n) : Prop :=
  (∃ r entry, (s.status i = .running (.writing r (.grow entry)) ∨
    s.status i = .running (.writing r (.copy entry))) ∧ TooLong s.data.log entry) ∨
  ∃ r, s.status i = .running (.sendGet r) ∧ r.body = none ∧ r.bodyLen ≠ 0

/-- Every request has been answered, every GET is in the log, and the lock is free. -/
structure Answered (s : LogState n) : Prop where
  ready : ∀ i, s.status i = .running .ready
  free : s.data.readers = 0 ∧ s.data.writers = 0 ∧ s.data.waitingWriters = 0
  answered : s.data.sent.length = s.data.arrived
  logged : s.data.log.content = flat s.data.acquired

theorem LoggingState.answered (hs : LoggingState clock s)
    (hready : ∀ i, s.status i = .running .ready) : Answered s := by
  have hplace (i : Fin n) : s.config.place i = .outside .ready :=
    congrArg Status.place (hready i)
  have hnone (ph : Phase) (hph : ph ≠ .idle) : (inPhase ph s.config.place).card = 0 := by
    refine card_inPhase_eq_zero fun i hi => hph ?_
    rw [hplace i] at hi
    exact hi.symm
  have hlock := hs.lockInv
  refine ⟨hready, ⟨?_, ?_, ?_⟩, hs.sent_length_eq hready, ?_⟩
  · exact hlock.readers_eq.trans (by rw [hnone .reading (by decide)]; rfl)
  · exact hlock.writers_eq.trans (by rw [hnone .writing (by decide)]; rfl)
  · exact hlock.waitingWriters_eq.trans (by rw [hnone .waiting (by decide)]; rfl)
  · refine (hs.recordInv.free fun i => ?_).2
    rw [hplace i]
    decide

/-- A phase that some worker is not in. -/
theorem card_inPhase_lt (ph : Phase) {f : Places n} {i : Fin n} (hi : phase (f i) ≠ ph) :
    (inPhase ph f).card < n := by
  have hlt := Finset.card_lt_univ_of_notMem (s := inPhase ph f) (x := i) fun hmem =>
    hi (mem_inPhase.mp hmem)
  rwa [Fintype.card_fin] at hlt

/-- The test of `writer_lock` always has a result. -/
theorem writerRetest_isSome {d : Data n} (hlow : 0 ≤ d.waitingWriters)
    (hhigh : d.waitingWriters ≤ 2147483647) (i : Fin n) (r : Get) :
    ∃ out, writerRetest clock i d r = some out := by
  rw [writerRetest]
  split
  · exact ⟨_, rfl⟩
  · rw [int, if_pos ⟨by omega, by omega⟩]
    exact ⟨_, rfl⟩

/-- The locked sections always have a result, since there are fewer workers than an
`int` can count. -/
theorem LoggingState.inside_isSome (hs : LoggingState clock s) (hn : n ≤ 2147483647)
    {i : Fin n} {k : Inside} (hst : s.status i = .holding k) :
    ∃ out, inside clock i k s.data = some out := by
  have hplace : s.config.place i = .inside k := congrArg Status.place hst
  have hlock := hs.lockInv
  have hreaders : s.data.readers = (inPhase .reading s.config.place).card := hlock.readers_eq
  have hwaiting : s.data.waitingWriters = (inPhase .waiting s.config.place).card :=
    hlock.waitingWriters_eq
  have hle (ph : Phase) : (inPhase ph s.config.place).card ≤ n := by
    have hle := Finset.card_le_univ (inPhase ph s.config.place)
    rwa [Fintype.card_fin] at hle
  have hreading := hle .reading
  cases k with
  | writerLock r =>
      have hidle : phase (s.config.place i) ≠ .waiting := fun h => by
        rw [hplace] at h
        cases h
      have hlt := card_inPhase_lt .waiting hidle
      change ∃ out, writerLock clock i s.data r = some out
      rw [writerLock, int, if_pos ⟨by omega, by omega⟩]
      exact writerRetest_isSome (d := { s.data with waitingWriters := s.data.waitingWriters + 1 })
        (by change 0 ≤ s.data.waitingWriters + 1; omega)
        (by change s.data.waitingWriters + 1 ≤ 2147483647; omega) i r
  | writerRetest r => exact writerRetest_isSome (by omega) (by have := hle .waiting; omega) i r
  | writerUnlock r => exact ⟨_, rfl⟩
  | readerLock r =>
      have hidle : phase (s.config.place i) ≠ .reading := fun h => by
        rw [hplace] at h
        cases h
      have hlt := card_inPhase_lt .reading hidle
      change ∃ out, readerLock clock s.data r = some out
      rw [readerLock]
      split
      · exact ⟨_, rfl⟩
      · rw [int, if_pos ⟨by omega, by omega⟩]
        exact ⟨_, rfl⟩
  | readerUnlock r dst len =>
      change ∃ out, readerUnlock s.data r dst len = some out
      rw [readerUnlock, int, if_pos ⟨by omega, by omega⟩]
      exact ⟨_, rfl⟩

/-- Where only an arrival could change anything, a worker outside the mutex is between
two requests, or held up. -/
theorem LoggingState.ready_of_stuck (hs : LoggingState clock s)
    (hstuck : ∀ e s', ¬ Works clock e s s') {i : Fin n} {o : Outside}
    (hst : s.status i = .running o) : o = .ready ∨ HeldUp s i := by
  have hroom := hs.roomInv
  have hplace : s.config.place i = .outside o := congrArg Status.place hst
  have hworker : RoomAt s.data.log (.outside o) := hplace ▸ hroom.worker i
  by_cases hready : o = .ready
  · exact Or.inl hready
  right
  have hno {d : Data n} {p : Place Outside Inside} : ¬ outside clock i o s.data d p := by
    refine fun hout => hstuck (.run i) _ ⟨.run hst hout, rfl, ?_⟩
    rintro _ ⟨⟩ hagain
    rw [hst] at hagain
    cases hagain
    exact hready rfl
  cases o with
  | ready => exact absurd rfl hready
  | writing r stage =>
      cases stage with
      | format => exact absurd ⟨rfl, rfl⟩ hno
      | grow entry =>
          refine Or.inl ⟨r, entry, Or.inl hst, not_lt.mp fun hshort => ?_⟩
          obtain ⟨log, hgrows, -⟩ := LogInv.grows hworker hshort
          exact hno ⟨log, hgrows, rfl, rfl⟩
      | copy entry =>
          rcases hworker with hfor | ⟨hlong, -⟩
          · have hfits := hfor.room
            have hle : s.data.log.length + entry.length ≤ s.data.log.capacity := by omega
            obtain ⟨log, hcopy⟩ := exists_copyEntry hfor.length_nonneg hle
            exact absurd ⟨log, hcopy, rfl, rfl⟩ hno
          · exact Or.inl ⟨r, entry, Or.inr hst, hlong⟩
      | advance entry =>
          have hfits := RoomFor.room hworker
          have hcapacity := (RoomFor.capacity hworker).bounds.2
          have hle : s.data.log.length + entry.length ≤ 2147483647 := by omega
          obtain ⟨log, hadvance⟩ := exists_advance (RoomFor.length_nonneg hworker) hle
          exact absurd ⟨log, hadvance, rfl, rfl⟩ hno
      | terminate =>
          have hfits := LogInv.room hworker
          obtain ⟨log, hterminate⟩ := exists_terminate (LogInv.length_nonneg hworker) (by omega)
          exact absurd ⟨log, hterminate, rfl, rfl⟩ hno
  | sendGet r =>
      refine Or.inr ⟨r, hst, ?_⟩
      cases hbody : r.body with
      | some body => exact absurd ⟨_, by rw [hbody]; rfl, rfl, rfl⟩ hno
      | none =>
          refine ⟨rfl, fun hlen => hno ⟨[], ?_, rfl, rfl⟩⟩
          rw [hbody, hlen]
          rfl
  | reading r stage =>
      have hlog : LogInv s.data.log := hroom.reading hs.lockInv (by rw [hplace]; rfl)
      have hnonneg := hlog.length_nonneg
      have hfits := hlog.room
      have hlength := hlog.length_lt
      have hint : int (s.data.log.length + 1) = some (s.data.log.length + 1) :=
        if_pos ⟨by omega, by omega⟩
      cases stage with
      | malloc => exact absurd ⟨rfl, _, hint, rfl⟩ hno
      | copy size =>
          cases hworker
          exact absurd ⟨rfl, _, _, hint, le_refl _, if_pos ⟨by omega, hfits.le⟩, rfl⟩ hno
      | length dst => exact absurd ⟨rfl, rfl⟩ hno
  | sendPost r returned dst len => exact absurd ⟨_, rfl, rfl, rfl⟩ hno

/-- Where only an arrival could change anything, the sleeping workers have nobody left
to wait for: there are none, unless some worker is held up. -/
theorem LoggingState.answered_of_stuck (hs : LoggingState clock s) (hn : n ≤ 2147483647)
    (hstuck : ∀ e s', ¬ Works clock e s s') : Answered s ∨ ∃ i, HeldUp s i := by
  by_cases hheld : ∃ i, HeldUp s i
  · exact Or.inr hheld
  left
  have hexclusive : Exclusive s := by
    obtain ⟨stale, hreach⟩ := hs
    exact Reachable.exclusive hreach fun i => by simp [start]
  have hstatus := hexclusive.running_or_asleep (P := program clock n)
    (fun i k hst => hs.inside_isSome hn hst)
    (fun i s' hocc => hstuck (.acquire i) s' ⟨hocc, rfl, fun _ h => by cases h⟩)
    (fun i s' hocc => hstuck (.leave i) s' ⟨hocc, rfl, fun _ h => by cases h⟩)
  have hrunning {i : Fin n} {o : Outside} (hst : s.status i = .running o) : o = .ready :=
    (hs.ready_of_stuck hstuck hst).resolve_right (not_exists.mp hheld i)
  have hphase (i : Fin n) :
      phase (s.status i).place = .idle ∨ phase (s.status i).place = .waiting := by
    rcases hstatus i with ⟨o, hst⟩ | ⟨c, k, hst⟩
    · rw [hst, hrunning hst]
      exact Or.inl rfl
    · rw [hst, Status.place, hs.asleep_phase i c k hst]
      cases c
      · exact Or.inl rfl
      · exact Or.inr rfl
  refine hs.answered fun i => ?_
  rcases hstatus i with ⟨o, hst⟩ | ⟨c, k, hst⟩
  · rw [hst, hrunning hst]
  · -- Nobody has the lock, so somebody would be about to get it.
    have hfree (j : Fin n) : ¬ Reads s j ∧ ¬ Writes s j := by
      rw [Reads, Writes]
      rcases hphase j with hj | hj <;> rw [hj] <;> decide
    obtain ⟨j, r, hj | hj⟩ :=
      hs.exists_retests_of_free (Status.asleepOn_iff.mpr ⟨k, hst⟩) hfree <;>
      rcases hstatus j with ⟨o, hj'⟩ | ⟨d, m, hj'⟩ <;> cases hj.symm.trans hj'

/-- Once no more requests arrive, and without spurious wakeups, the workers come to an
end after a bounded number of steps, in whatever order they take them: then every
request has been answered, unless a worker is held up. -/
theorem log_drains (n : ℕ) (clock : ℕ → Timeval) (hn : n ≤ 2147483647) (s : LogState n)
    (hs : LoggingState clock s) :
    (∃ es s', Run (Works clock) es s s' ∧ (Answered s' ∨ ∃ i, HeldUp s' i)) ∧
    ∀ es s', Run (Works clock) es s s' →
      es.length ≤ (2 * n + 14) * n ∧ s'.data.arrived = s.data.arrived ∧
      ((∀ e s'', ¬ Works clock e s' s'') → Answered s' ∨ ∃ i, HeldUp s' i) := by
  have hreach (e : Event (Fin n)) (s s' : LogState n) (h : LoggingState clock s)
      (hworks : Works clock e s s') : LoggingState clock s' := by
    obtain ⟨stale, h⟩ := h
    exact ⟨stale, h.tail hworks.1.step⟩
  refine ⟨?_, fun es s' hrun => ?_⟩
  · obtain ⟨es, s', hrun, -, hstuck⟩ := Run.exists_stuck (fun _ => True) potential hreach
      (fun _ _ _ _ _ hworks => hworks.potential_lt.2) hs
    exact ⟨es, s', hrun, (hrun.invariant hreach hs).answered_of_stuck hn
      fun e s'' => hstuck e s'' trivial⟩
  · have hpaid : potential s' + 0 + es.length ≤
        potential s + 0 + (es.map fun _ => 0).sum :=
      hrun.amortised (fun _ => 0) (I := fun _ => True) (fun _ _ _ _ _ => trivial)
        (fun _ _ _ _ hworks => hworks.potential_lt.2) trivial
    rw [List.map_const', List.sum_replicate_nat, Nat.mul_zero] at hpaid
    have hle := potential_le s
    have harrived := hrun.invariant (I := fun t => t.data.arrived = s.data.arrived)
      (fun _ _ _ h hworks => hworks.potential_lt.1.trans h) rfl
    exact ⟨by omega, harrived, (hrun.invariant hreach hs).answered_of_stuck hn⟩

theorem log_drains_writing : ∃ s : LogState 2, Writes s 0 ∧
    (s.status 1).AsleepOn .readersAllowed ∧
      ∃ es s', Run (Works fun _ => midnight) es s s' ∧ es.length ≤ 36 ∧
        (Answered s' ∨ ∃ i, HeldUp s' i) := by
  obtain ⟨s, hs, hwrites, hasleep⟩ := exists_writing
  obtain ⟨⟨es, s', hrun, hend⟩, hall⟩ := log_drains 2 _ (by decide) s hs
  exact ⟨s, hwrites, hasleep, es, s', hrun, (hall es s' hrun).1, hend⟩

end OsCoursework.Server.Logging
