import OsCoursework.Server.LogGrowth

/-!
# Room in the log

What is known of the buffer at each place of a worker, in all runs: between two calls
of `add_to_log` there is room for the NUL, and inside of one there is room for the
entry once the doubling loop has ended.  So the only stage of a call that can fail is
the loop, and it fails from `2 ^ 30` bytes on.
-/

namespace OsCoursework.Server.Logging

open OsCoursework.Monitor

variable {n : ℕ} {clock : ℕ → Timeval} {d d' : Data n} {f : Places n} {i j : Fin n}
  {log log' : LogBuffer} {entry : Text} {p : Place Outside Inside}

/-! ## The stages of `add_to_log` -/

/-- Room for the entry and the NUL. -/
structure RoomFor (log : LogBuffer) (entry : Text) : Prop where
  capacity : IsCapacity log.capacity
  length_nonneg : 0 ≤ log.length
  room : log.length + entry.length + 1 < log.capacity

/-- With the entry the text has `2 ^ 30` bytes or more. -/
def TooLong (log : LogBuffer) (entry : Text) : Prop :=
  1073741824 ≤ log.length + entry.length + 1

/-- Where the loop has ended there is room, or the length of the text did not fit an
`int` and nothing can be copied. -/
def Grown (log : LogBuffer) (entry : Text) : Prop :=
  RoomFor log entry ∨ TooLong log entry ∧ ∀ log', copyEntry log entry ≠ some log'

theorem grown_of_grows (h : LogInv log) (hgrows : Grows log entry.length log') :
    Grown log' entry := by
  have hnonneg := h.length_nonneg
  obtain ⟨fuel, c, hrun, rfl⟩ := hgrows
  obtain ⟨hc, hneed⟩ := growLoop_spec (Or.inl h.capacity) hrun
  have hle := hc.le
  by_cases hshort : log.length + entry.length + 1 < 2147483648
  · left
    rw [h.wrap_need hshort] at hneed
    refine ⟨?_, hnonneg, hneed⟩
    rcases hc with hcap | rfl | rfl
    · exact hcap
    · omega
    · omega
  · refine Or.inr ⟨?_, fun log' hcopy => ?_⟩
    · change 1073741824 ≤ log.length + entry.length + 1
      omega
    · have hfits : log.length + entry.length ≤ c := copyEntry_le hcopy
      omega

theorem RoomFor.copy (h : RoomFor log entry) (hcopy : copyEntry log entry = some log') :
    RoomFor log' entry := by
  have hlength := (copyEntry_spec hcopy).1
  have hcapacity := copyEntry_capacity hcopy
  exact ⟨hcapacity ▸ h.capacity, hlength ▸ h.length_nonneg, hlength ▸ hcapacity ▸ h.room⟩

theorem RoomFor.advance (h : RoomFor log entry)
    (hadvance : advance log entry.length = some log') : LogInv log' := by
  obtain ⟨-, hlength, -⟩ := advance_spec hadvance
  have hcapacity := advance_capacity hadvance
  obtain ⟨hcap, hnonneg, hroom⟩ := h
  exact ⟨hcapacity ▸ hcap, by omega, by omega⟩

theorem LogInv.terminate (h : LogInv log) (hterminate : terminate log = some log') :
    LogInv log' := by
  have hlength := (terminate_spec hterminate).1
  have hcapacity := terminate_capacity hterminate
  exact ⟨hcapacity ▸ h.capacity, hlength ▸ h.length_nonneg, hlength ▸ hcapacity ▸ h.room⟩

/-! ## The invariant -/

/-- What is known of the buffer where a worker is. -/
def RoomAt (log : LogBuffer) : Place Outside Inside → Prop
  | .outside (.writing _ .format) => LogInv log
  | .outside (.writing _ (.grow _)) => LogInv log
  | .outside (.writing _ (.copy entry)) => Grown log entry
  | .outside (.writing _ (.advance entry)) => RoomFor log entry
  | .outside (.writing _ .terminate) => LogInv log
  | .inside (.writerUnlock _) => LogInv log
  | .outside (.reading _ (.copy size)) => size = log.length + 1
  | _ => True

structure RoomInv (log : LogBuffer) (f : Places n) : Prop where
  worker : ∀ i, RoomAt log (f i)
  free : (∀ i, phase (f i) ≠ .writing) → LogInv log

/-- A worker that neither reads nor writes says nothing about the buffer. -/
theorem roomAt_of_phase (hwriting : phase p ≠ .writing) (hreading : phase p ≠ .reading)
    (log : LogBuffer) : RoomAt log p := by
  match p with
  | .outside .ready => trivial
  | .outside (.writing _ _) => exact absurd rfl hwriting
  | .outside (.sendGet _) => trivial
  | .outside (.reading _ _) => exact absurd rfl hreading
  | .outside (.sendPost _ _ _ _) => trivial
  | .inside (.writerLock _) => trivial
  | .inside (.writerRetest _) => trivial
  | .inside (.writerUnlock _) => exact absurd rfl hwriting
  | .inside (.readerLock _) => trivial
  | .inside (.readerUnlock _ _ _) => exact absurd rfl hreading

/-- While somebody reads, the buffer is that of a free log. -/
theorem RoomInv.reading {l : Lock} (h : RoomInv log f) (hlock : LockInv l f)
    (hi : phase (f i) = .reading) : LogInv log := by
  refine h.free fun j hj => ?_
  by_cases hij : i = j
  · rw [hij, hj] at hi
    cases hi
  · exact (hlock.alone hj hij).2 hi

/-- Worker `i` moves, and changes the buffer only as a writer. -/
theorem RoomInv.move {l : Lock} (h : RoomInv log f) (hlock : LockInv l f)
    (hlog : log' = log ∨ phase (f i) = .writing) (hp : RoomAt log' p)
    (hfree : phase (f i) = .writing → phase p ≠ .writing → LogInv log') :
    RoomInv log' (Function.update f i p) := by
  refine ⟨fun j => ?_, fun hnone => ?_⟩
  · by_cases hji : j = i
    · subst hji
      rwa [Function.update_self]
    · rw [Function.update_of_ne hji]
      rcases hlog with rfl | hwriting
      · exact h.worker j
      · obtain ⟨hnotwriting, hnotreading⟩ := hlock.alone hwriting hji
        exact roomAt_of_phase hnotwriting hnotreading log'
  · have hpnone := hnone i
    rw [Function.update_self] at hpnone
    by_cases hwriting : phase (f i) = .writing
    · exact hfree hwriting hpnone
    · rcases hlog with rfl | hcontra
      · exact h.free (forall_not_writing_of_update hwriting hnone)
      · exact absurd hcontra hwriting

/-- A step without the mutex, as far as the buffer goes. -/
theorem RoomInv.outside {l : Lock} {o : Outside} (h : RoomInv d.log f)
    (hlock : LockInv l f) (hi : f i = .outside o) (hout : outside clock i o d d' p) :
    RoomInv d'.log (Function.update f i p) := by
  have hphase : phase p = phase (f i) := by rw [hi, (outside_frame hout).2]
  have hworker := h.worker i
  rw [hi] at hworker
  suffices hstep : (d'.log = d.log ∨ phase (f i) = .writing) ∧ RoomAt d'.log p from
    h.move hlock hstep.1 hstep.2 fun hwriting hnot => absurd (hphase.trans hwriting) hnot
  cases o with
  | ready =>
      obtain ⟨host, method, uri, tmStats, t, prepared, -, harrive⟩ := hout
      cases prepared <;> (cases harrive; exact ⟨Or.inl rfl, trivial⟩)
  | writing r stage =>
      refine ⟨Or.inr (by rw [hi]; rfl), ?_⟩
      cases stage with
      | format =>
          obtain ⟨rfl, rfl⟩ := hout
          exact hworker
      | grow entry =>
          obtain ⟨log, hgrows, rfl, rfl⟩ := hout
          exact grown_of_grows hworker hgrows
      | copy entry =>
          obtain ⟨log, hcopy, rfl, rfl⟩ := hout
          rcases hworker with hroom | ⟨-, hnone⟩
          · exact hroom.copy hcopy
          · exact absurd hcopy (hnone log)
      | advance entry =>
          obtain ⟨log, hadvance, rfl, rfl⟩ := hout
          exact RoomFor.advance hworker hadvance
      | terminate =>
          obtain ⟨log, hterminate, rfl, rfl⟩ := hout
          exact LogInv.terminate hworker hterminate
  | sendGet r =>
      obtain ⟨body, -, rfl, rfl⟩ := hout
      exact ⟨Or.inl rfl, trivial⟩
  | reading r stage =>
      cases stage with
      | malloc =>
          obtain ⟨rfl, size, hsize, rfl⟩ := hout
          exact ⟨Or.inl rfl, int_eq_some hsize⟩
      | copy size =>
          obtain ⟨rfl, bytes, dst, -, -, -, rfl⟩ := hout
          exact ⟨Or.inl rfl, trivial⟩
      | length dst =>
          obtain ⟨rfl, rfl⟩ := hout
          exact ⟨Or.inl rfl, trivial⟩
  | sendPost r returned dst len =>
      obtain ⟨body, -, rfl, rfl⟩ := hout
      exact ⟨Or.inl rfl, trivial⟩

/-- A writer gets the lock where nobody writes. -/
theorem RoomInv.retest {l : Lock} {r : Get} {out : Outcome Cond Outside Inside (Data n)}
    (h : RoomInv d.log f) (hlock : LockInv l f) (hl : l.writers = d.writers)
    (hrun : writerRetest clock i d r = some out) :
    out.data.log = d.log ∧ RoomAt out.data.log out.exit.place := by
  rcases writerRetest_cases hrun with
    ⟨-, hdata, -, hexit⟩ | ⟨-, hwriters, -, _, -, hdata, hexit⟩
  · rw [hdata, hexit]
    exact ⟨rfl, trivial⟩
  · rw [hdata, hexit]
    refine ⟨rfl, h.free fun j hj => ?_⟩
    have hpos := Finset.card_pos.mpr ⟨j, mem_inPhase.mpr hj⟩
    have hcount := hlock.writers_eq
    omega

/-- A worker that writes and has the mutex is about to give the lock back. -/
theorem RoomAt.logInv {k : Inside} (h : RoomAt log (.inside k))
    (hwriting : phase (.inside k) = .writing) : LogInv log := by
  cases k with
  | writerUnlock r => exact h
  | _ => cases hwriting

/-- The locked sections leave the buffer alone. -/
theorem RoomInv.inside {k : Inside} {out : Outcome Cond Outside Inside (Data n)}
    (h : RoomInv d.log f) (hlock : LockInv d.lock f) (hi : f i = .inside k)
    (hin : inside clock i k d = some out) :
    RoomInv out.data.log (Function.update f i out.exit.place) := by
  have hworker := h.worker i
  rw [hi] at hworker
  have hmove (hlog : out.data.log = d.log) (hroom : RoomAt out.data.log out.exit.place) :
      RoomInv out.data.log (Function.update f i out.exit.place) := by
    rw [hlog] at hroom ⊢
    refine h.move hlock (Or.inl rfl) hroom fun hwriting _ => ?_
    rw [hi] at hwriting
    exact hworker.logInv hwriting
  cases k with
  | writerLock r =>
      obtain ⟨waiting, -, hrun⟩ := Option.bind_eq_some_iff.mp hin
      obtain ⟨hlog, hroom⟩ :=
        RoomInv.retest (d := { d with waitingWriters := waiting }) h hlock rfl hrun
      exact hmove hlog hroom
  | writerRetest r =>
      obtain ⟨hlog, hroom⟩ := h.retest hlock rfl hin
      exact hmove hlog hroom
  | writerUnlock r =>
      cases hin
      exact hmove rfl trivial
  | readerLock r =>
      change readerLock clock d r = some out at hin
      rw [readerLock] at hin
      split at hin
      · cases hin
        exact hmove rfl trivial
      · obtain ⟨readers, -, hin⟩ := Option.bind_eq_some_iff.mp hin
        cases hin
        exact hmove rfl trivial
  | readerUnlock r dst len =>
      obtain ⟨readers, -, hin⟩ := Option.bind_eq_some_iff.mp hin
      cases hin
      exact hmove rfl trivial

/-! ## Runs -/

theorem RoomInv.step {x x' : LogConfig n} (h : RoomInv x.data.log x.place)
    (hlock : LockInv x.data.lock x.place) (hstep : AtomicStep (program clock n) x x') :
    RoomInv x'.data.log x'.place := by
  cases hstep with
  | outside hplace hout => exact h.outside hlock hplace hout
  | inside hplace hin => exact h.inside hlock hplace hin

theorem roomInv_start (n : ℕ) (stale : ℕ → Char) :
    RoomInv (start n stale).data.log (start n stale).config.place :=
  ⟨fun _ => trivial, fun _ => createLog_inv stale⟩

theorem LoggingState.roomInv {s : LogState n} (hs : LoggingState clock s) :
    RoomInv s.data.log s.config.place := by
  obtain ⟨stale, hs⟩ := hs
  exact (hs.atomic_invariant
    (I := fun x => LockInv x.data.lock x.place ∧ RoomInv x.data.log x.place)
    ⟨lockInv_start n stale, roomInv_start n stale⟩
    fun _ _ hx hstep => ⟨hx.1.step hstep, hx.2.step hx.1 hstep⟩).2

end OsCoursework.Server.Logging
