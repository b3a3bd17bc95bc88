import OsCoursework.Server.Logging

/-!
# The reader-writer lock of the log

Seen from the lock, a worker is idle, reads, waits to write or writes.  `Move`
lists what a locked section does to the three counters, to the phase of its worker
and to the wait sets; outside the mutex nothing of this changes.  Everything about
the lock is derived from `Move`.
-/

namespace OsCoursework.Server.Logging

open OsCoursework.Monitor

/-! ## Phases -/

inductive Phase where
  | idle
  | reading
  | waiting
  | writing
  deriving DecidableEq

/-- Where a worker is with respect to the lock.  It reads or writes from the end of
`reader_lock` or `writer_lock` until the section of the unlock has run, and it
waits once it has been counted in `waiting_writers`. -/
def phase : Place Outside Inside → Phase
  | .outside (.reading _ _) => .reading
  | .inside (.readerUnlock _ _ _) => .reading
  | .outside (.writing _ _) => .writing
  | .inside (.writerUnlock _) => .writing
  | .inside (.writerRetest _) => .waiting
  | _ => .idle

/-- The counters of the lock. -/
structure Lock where
  readers : ℤ
  waitingWriters : ℤ
  writers : ℤ

def Data.lock {n : ℕ} (d : Data n) : Lock :=
  ⟨d.readers, d.waitingWriters, d.writers⟩

/-! ## Moves -/

/-- What a locked section does: the counters before and after, the phase of the
worker before and after, whom it wakes and what it waits for. -/
inductive Move : Lock → Lock → Phase → Phase → List (Wake Cond) → Option Cond →
    Prop where
  | readerWait {l : Lock} (h : 0 < l.writers ∨ 0 < l.waitingWriters) :
      Move l l .idle .idle [] (some .readersAllowed)
  | read {l : Lock} (hwriters : l.writers ≤ 0) (hwaiting : l.waitingWriters ≤ 0) :
      Move l { l with readers := l.readers + 1 } .idle .reading [] none
  | readDone {l : Lock} :
      Move l { l with readers := l.readers - 1 } .reading .idle
        (if l.readers - 1 = 0 then [.signal .writersAllowed] else []) none
  | writerWait {l : Lock} (h : 0 < l.readers ∨ 0 < l.writers) :
      Move l { l with waitingWriters := l.waitingWriters + 1 } .idle .waiting []
        (some .writersAllowed)
  | writerRewait {l : Lock} (h : 0 < l.readers ∨ 0 < l.writers) :
      Move l l .waiting .waiting [] (some .writersAllowed)
  | writeAtOnce {l : Lock} (hreaders : l.readers ≤ 0) (hwriters : l.writers ≤ 0) :
      Move l { l with writers := 1 } .idle .writing [] none
  | write {l : Lock} (hreaders : l.readers ≤ 0) (hwriters : l.writers ≤ 0) :
      Move l ⟨l.readers, l.waitingWriters - 1, 1⟩ .waiting .writing [] none
  | writeDone {l : Lock} :
      Move l { l with writers := 0 } .writing .idle
        (if 0 < l.waitingWriters then [.signal .writersAllowed]
        else [.broadcast .readersAllowed]) none

theorem Move.enters_reading {l l' : Lock} {ph ph' : Phase}
    {wakes : List (Wake Cond)} {waits : Option Cond}
    (h : Move l l' ph ph' wakes waits) (hbefore : ph ≠ .reading)
    (hafter : ph' = .reading) : l.writers ≤ 0 ∧ l.waitingWriters ≤ 0 := by
  cases h with
  | read hwriters hwaiting => exact ⟨hwriters, hwaiting⟩
  | _ => cases hafter

variable {n : ℕ} {clock : ℕ → Timeval} {d d' : Data n} {i : Fin n}

theorem int_eq_some {a b : ℤ} (h : int a = some b) : b = a := by
  unfold int at h
  split at h
  · exact (Option.some.inj h).symm
  · cases h

theorem readerLock_move {r : Post}
    {out : Outcome Cond Outside Inside (Data n)}
    (h : readerLock clock d r = some out) :
    Move d.lock out.data.lock .idle (phase out.exit.place) out.wakes
      out.exit.waits := by
  rw [readerLock] at h
  split at h
  · next hwait =>
    cases h
    exact .readerWait hwait
  · next hfree =>
    obtain ⟨readers, hint, h⟩ := Option.bind_eq_some_iff.mp h
    cases int_eq_some hint
    cases h
    rw [not_or, not_lt, not_lt] at hfree
    exact .read hfree.1 hfree.2

theorem readerUnlock_move {r : Post} {dst : Text} {len : ℤ}
    {out : Outcome Cond Outside Inside (Data n)}
    (h : readerUnlock d r dst len = some out) :
    Move d.lock out.data.lock .reading (phase out.exit.place) out.wakes
      out.exit.waits := by
  obtain ⟨readers, hint, h⟩ := Option.bind_eq_some_iff.mp h
  cases int_eq_some hint
  cases h
  exact .readDone

/-- The part of `writer_lock` that a new writer shares with one that waited. -/
theorem writerRetest_cases {r : Get} {out : Outcome Cond Outside Inside (Data n)}
    (h : writerRetest clock i d r = some out) :
    ((0 < d.readers ∨ 0 < d.writers) ∧ out.data = d ∧ out.wakes = [] ∧
      out.exit = .wait .writersAllowed (.writerRetest r)) ∨
    (d.readers ≤ 0 ∧ d.writers ≤ 0 ∧ out.wakes = [] ∧
      ∃ tmStats, tmStats = { r.tmStats with logExit := clock d.ticks } ∧
        out.data = { d with
          waitingWriters := d.waitingWriters - 1
          writers := 1
          ticks := d.ticks + 1
          acquired := d.acquired ++ [⟨r.request, d.stats i, tmStats⟩] } ∧
        out.exit = .unlock (.outside
          (.writing { r with tmStats := tmStats } .format))) := by
  rw [writerRetest] at h
  split at h
  · next hwait =>
    cases h
    exact Or.inl ⟨hwait, rfl, rfl, rfl⟩
  · next hfree =>
    obtain ⟨waiting, hint, h⟩ := Option.bind_eq_some_iff.mp h
    cases int_eq_some hint
    cases h
    rw [not_or, not_lt, not_lt] at hfree
    exact Or.inr ⟨hfree.1, hfree.2, rfl, _, rfl, rfl, rfl⟩

theorem writerRetest_move {r : Get} {out : Outcome Cond Outside Inside (Data n)}
    (h : writerRetest clock i d r = some out) :
    Move d.lock out.data.lock .waiting (phase out.exit.place) out.wakes
      out.exit.waits := by
  rcases writerRetest_cases h with
    ⟨hwait, hdata, hwakes, hexit⟩ | ⟨hreaders, hwriters, hwakes, _, _, hdata, hexit⟩
  · rw [hdata, hwakes, hexit]
    exact .writerRewait hwait
  · rw [hdata, hwakes, hexit]
    exact .write hreaders hwriters

theorem writerLock_move {r : Get} {out : Outcome Cond Outside Inside (Data n)}
    (h : writerLock clock i d r = some out) :
    Move d.lock out.data.lock .idle (phase out.exit.place) out.wakes
      out.exit.waits := by
  obtain ⟨waiting, hint, h⟩ := Option.bind_eq_some_iff.mp h
  cases int_eq_some hint
  rcases writerRetest_cases h with
    ⟨hwait, hdata, hwakes, hexit⟩ | ⟨hreaders, hwriters, hwakes, _, _, hdata, hexit⟩
  · rw [hdata, hwakes, hexit]
    exact .writerWait hwait
  · rw [hdata, hwakes, hexit]
    have hlock : ∀ l : Lock,
        (⟨l.readers, l.waitingWriters + 1 - 1, 1⟩ : Lock) =
          { l with writers := 1 } := by
      intro l
      rw [Int.add_sub_cancel]
    refine cast ?_ (Move.writeAtOnce (l := d.lock) hreaders hwriters)
    rw [← hlock]
    rfl

theorem writerUnlock_move {r : Get} {out : Outcome Cond Outside Inside (Data n)}
    (h : writerUnlock i d r = some out) :
    Move d.lock out.data.lock .writing (phase out.exit.place) out.wakes
      out.exit.waits := by
  cases h
  exact .writeDone

/-- Every locked section is a move. -/
theorem inside_move {k : Inside} {out : Outcome Cond Outside Inside (Data n)}
    (h : inside clock i k d = some out) :
    Move d.lock out.data.lock (phase (.inside k)) (phase out.exit.place) out.wakes
      out.exit.waits := by
  cases k with
  | writerLock r => exact writerLock_move h
  | writerRetest r => exact writerRetest_move h
  | writerUnlock r => exact writerUnlock_move h
  | readerLock r => exact readerLock_move h
  | readerUnlock r dst len => exact readerUnlock_move h

/-- Without the mutex, neither the counters nor the phase of a worker change. -/
theorem outside_frame {o : Outside} {p : Place Outside Inside}
    (h : outside clock i o d d' p) :
    d'.lock = d.lock ∧ phase p = phase (.outside o) := by
  cases o with
  | ready =>
      obtain ⟨host, method, uri, tmStats, t, prepared, -, harrive⟩ := h
      cases prepared <;> (cases harrive; exact ⟨rfl, rfl⟩)
  | writing r stage =>
      cases stage with
      | format =>
          obtain ⟨rfl, rfl⟩ := h
          exact ⟨rfl, rfl⟩
      | _ =>
          obtain ⟨log, -, rfl, rfl⟩ := h
          exact ⟨rfl, rfl⟩
  | sendGet r =>
      obtain ⟨body, -, rfl, rfl⟩ := h
      exact ⟨rfl, rfl⟩
  | reading r stage =>
      cases stage with
      | malloc =>
          obtain ⟨rfl, size, -, rfl⟩ := h
          exact ⟨rfl, rfl⟩
      | copy size =>
          obtain ⟨rfl, bytes, dst, -, -, -, rfl⟩ := h
          exact ⟨rfl, rfl⟩
      | length dst =>
          obtain ⟨rfl, rfl⟩ := h
          exact ⟨rfl, rfl⟩
  | sendPost r returned dst len =>
      obtain ⟨body, -, rfl, rfl⟩ := h
      exact ⟨rfl, rfl⟩

/-! ## The invariant -/

abbrev Places (n : ℕ) := Fin n → Place Outside Inside

/-- The workers in the phase `ph`. -/
def inPhase (ph : Phase) (f : Places n) : Finset (Fin n) :=
  Finset.univ.filter fun i => phase (f i) = ph

theorem mem_inPhase {ph : Phase} {f : Places n} {i : Fin n} :
    i ∈ inPhase ph f ↔ phase (f i) = ph := by
  simp [inPhase]

theorem card_inPhase_eq_zero {ph : Phase} {f : Places n} (h : ∀ i, phase (f i) ≠ ph) :
    (inPhase ph f).card = 0 :=
  Finset.card_eq_zero.mpr (Finset.filter_eq_empty_iff.mpr fun i _ => h i)

theorem card_inPhase_update (ph : Phase) (f : Places n) (i : Fin n)
    (p : Place Outside Inside) :
    (inPhase ph (Function.update f i p)).card +
        (if phase (f i) = ph then 1 else 0) =
      (inPhase ph f).card + (if phase p = ph then 1 else 0) :=
  card_filter_update (fun _ q => phase q = ph) f i p

/-- The counters count, and a writer is alone. -/
structure LockInv (l : Lock) (f : Places n) : Prop where
  readers_eq : l.readers = (inPhase .reading f).card
  waitingWriters_eq : l.waitingWriters = (inPhase .waiting f).card
  writers_eq : l.writers = (inPhase .writing f).card
  writers_le : l.writers ≤ 1
  readers_of_writer : 0 < l.writers → l.readers = 0

theorem LockInv.move {l l' : Lock} {f : Places n} {ph ph' : Phase}
    {wakes : List (Wake Cond)} {waits : Option Cond} {p : Place Outside Inside}
    (h : LockInv l f) (hi : phase (f i) = ph) (hp : phase p = ph')
    (hmove : Move l l' ph ph' wakes waits) :
    LockInv l' (Function.update f i p) := by
  have hreaders := card_inPhase_update .reading f i p
  have hwaiting := card_inPhase_update .waiting f i p
  have hwriters := card_inPhase_update .writing f i p
  obtain ⟨h₁, h₂, h₃, h₄, h₅⟩ := h
  rw [hi, hp] at hreaders hwaiting hwriters
  cases hmove <;>
    simp only [reduceCtorEq, if_true, if_false, Nat.add_zero] at hreaders hwaiting hwriters <;>
    refine ⟨?_, ?_, ?_, ?_, ?_⟩ <;> (try dsimp only) <;> intros <;> omega

theorem LockInv.frame {l : Lock} {f : Places n} {p : Place Outside Inside}
    (h : LockInv l f) (hp : phase p = phase (f i)) :
    LockInv l (Function.update f i p) := by
  have hreaders := card_inPhase_update .reading f i p
  have hwaiting := card_inPhase_update .waiting f i p
  have hwriters := card_inPhase_update .writing f i p
  rw [hp] at hreaders hwaiting hwriters
  obtain ⟨h₁, h₂, h₃, h₄, h₅⟩ := h
  exact ⟨by omega, by omega, by omega, h₄, h₅⟩

theorem lockInv_start (n : ℕ) (stale : ℕ → Char) :
    LockInv (start n stale).data.lock (start n stale).config.place := by
  have hidle (ph : Phase) (hph : ph ≠ .idle) :
      (inPhase ph (start n stale).config.place).card = 0 :=
    card_inPhase_eq_zero fun _ => hph.symm
  refine ⟨?_, ?_, ?_, ?_, fun _ => rfl⟩
  · rw [hidle .reading (by decide)]
    rfl
  · rw [hidle .waiting (by decide)]
    rfl
  · rw [hidle .writing (by decide)]
    rfl
  · exact Int.zero_le_ofNat 1

/-! ## Runs -/

abbrev LogConfig (n : ℕ) :=
  Config (Fin n) (Data n) (fun _ => Outside) (fun _ => Inside)

theorem LockInv.step {x x' : LogConfig n} (h : LockInv x.data.lock x.place)
    (hstep : AtomicStep (program clock n) x x') :
    LockInv x'.data.lock x'.place := by
  cases hstep with
  | outside hplace hout =>
      obtain ⟨hlock, hphase⟩ := outside_frame hout
      rw [hlock]
      exact h.frame (by rw [hphase, hplace])
  | inside hplace hin => exact h.move (by rw [hplace]) rfl (inside_move hin)

variable {s s' : LogState n}

theorem LoggingState.lockInv (hs : LoggingState clock s) :
    LockInv s.data.lock s.config.place := by
  obtain ⟨stale, hs⟩ := hs
  exact hs.atomic_invariant (I := fun x => LockInv x.data.lock x.place)
    (lockInv_start n stale) fun _ _ => LockInv.step

/-- Worker `i` is between `reader_lock` and `reader_unlock`. -/
def Reads (s : LogState n) (i : Fin n) : Prop :=
  phase (s.status i).place = .reading

/-- Worker `i` is between `writer_lock` and `writer_unlock`. -/
def Writes (s : LogState n) (i : Fin n) : Prop :=
  phase (s.status i).place = .writing

/-- Worker `i` has begun `writer_lock` and not got the lock. -/
def AwaitsWrite (s : LogState n) (i : Fin n) : Prop :=
  phase (s.status i).place = .waiting

instance (s : LogState n) : DecidablePred (Reads s) :=
  fun _ => inferInstanceAs (Decidable (_ = _))

instance (s : LogState n) : DecidablePred (Writes s) :=
  fun _ => inferInstanceAs (Decidable (_ = _))

instance (s : LogState n) : DecidablePred (AwaitsWrite s) :=
  fun _ => inferInstanceAs (Decidable (_ = _))

/-- A worker gets to read only past a free lock with no writer waiting. -/
theorem free_of_enters_reading {x x' : LogConfig n}
    (hstep : AtomicStep (program clock n) x x')
    (hbefore : phase (x.place i) ≠ .reading) (hafter : phase (x'.place i) = .reading) :
    x.data.writers ≤ 0 ∧ x.data.waitingWriters ≤ 0 := by
  cases hstep with
  | @outside t o d p hplace hout =>
      dsimp only at hafter
      by_cases hit : i = t
      · subst hit
        rw [Function.update_self, (outside_frame hout).2, ← hplace] at hafter
        exact absurd hafter hbefore
      · rw [Function.update_of_ne hit] at hafter
        exact absurd hafter hbefore
  | @inside t k out hplace hin =>
      dsimp only at hafter
      by_cases hit : i = t
      · subst hit
        rw [Function.update_self] at hafter
        rw [hplace] at hbefore
        exact (inside_move hin).enters_reading hbefore hafter
      · rw [Function.update_of_ne hit] at hafter
        exact absurd hafter hbefore

theorem LoggingState.card_writers_pos (hs : LoggingState clock s) {i : Fin n}
    (hi : Writes s i) : 0 < s.data.writers := by
  have hpos : 0 < (inPhase .writing s.config.place).card :=
    Finset.card_pos.mpr ⟨i, mem_inPhase.mpr hi⟩
  have heq : s.data.writers = (inPhase .writing s.config.place).card :=
    hs.lockInv.writers_eq
  omega

theorem LoggingState.card_readers_pos (hs : LoggingState clock s) {i : Fin n}
    (hi : Reads s i) : 0 < s.data.readers := by
  have hpos : 0 < (inPhase .reading s.config.place).card :=
    Finset.card_pos.mpr ⟨i, mem_inPhase.mpr hi⟩
  have heq : s.data.readers = (inPhase .reading s.config.place).card :=
    hs.lockInv.readers_eq
  omega

/-- The lock excludes, its counters count, and writers come first. -/
theorem reader_writer_exclusion (n : ℕ) (clock : ℕ → Timeval) (s : LogState n)
    (hs : LoggingState clock s) :
    (∀ i j, Writes s i → Writes s j → i = j) ∧
    (∀ i j, Writes s i → ¬ Reads s j) ∧
    s.data.readers = (Finset.univ.filter (Reads s)).card ∧
    s.data.writers = (Finset.univ.filter (Writes s)).card ∧
    s.data.waitingWriters = (Finset.univ.filter (AwaitsWrite s)).card ∧
    ∀ s' i, Step (program clock n) s s' → ¬ Reads s i → Reads s' i →
      s.data.waitingWriters = 0 ∧ s.data.writers = 0 ∧ ∀ j, ¬ Writes s j := by
  have hinv := hs.lockInv
  have hwriters : s.data.writers = (inPhase .writing s.config.place).card :=
    hinv.writers_eq
  have hwaiting : s.data.waitingWriters = (inPhase .waiting s.config.place).card :=
    hinv.waitingWriters_eq
  have hle : s.data.writers ≤ 1 := hinv.writers_le
  refine ⟨?_, ?_, hinv.readers_eq, hwriters, hwaiting, ?_⟩
  · intro i j hi hj
    have hcard : (inPhase .writing s.config.place).card ≤ 1 := by omega
    exact Finset.card_le_one.mp hcard i
      (mem_inPhase (f := s.config.place).mpr hi) j
      (mem_inPhase (f := s.config.place).mpr hj)
  · intro i j hi hj
    have halone : s.data.readers = 0 :=
      hinv.readers_of_writer (hs.card_writers_pos hi)
    have hread := hs.card_readers_pos hj
    omega
  · intro s' i hstep hbefore hafter
    obtain ⟨hfree, hnone⟩ : s.data.writers ≤ 0 ∧ s.data.waitingWriters ≤ 0 := by
      rcases hstep.simulates with heq | hatomic
      · have hplace : s'.config.place i = s.config.place i := by rw [heq]
        refine absurd ?_ hbefore
        rw [Reads, show (s.status i).place = _ from hplace.symm]
        exact hafter
      · exact free_of_enters_reading hatomic hbefore hafter
    refine ⟨by omega, by omega, fun j hj => ?_⟩
    have hpos := hs.card_writers_pos hj
    omega

/-- A host on which every path is a regular file with these contents. -/
def fileHost (contents : Text) : Host where
  stat := fun path =>
    if path.length < pathMax then some ⟨true, true, true, contents.length⟩ else none
  stat_lt := by
    intro path info h
    by_contra hlong
    rw [if_neg hlong] at h
    cases h
  contents := fun _ => some contents
  cgi := fun _ _ => .noPipe
  stale := fun _ => 'x'
  malloc := fun size => decide (size < 2 ^ 63)
  malloc_lt := fun _ h => of_decide_eq_true h

/-- A host on which every path is an empty regular file. -/
def plainHost : Host :=
  fileHost []

def midnight : Timeval := ⟨0, 0⟩

/-- Worker 0 writes to the log; worker 1 wants to read it and sleeps. -/
theorem exists_writing : ∃ s : LogState 2, LoggingState (fun _ => midnight) s ∧
    Writes s 0 ∧ (s.status 1).AsleepOn .readersAllowed := by
  have h₀ : Reachable (program (fun _ => midnight) 2) (start 2 fun _ => 'x')
      (start 2 fun _ => 'x') :=
    Relation.ReflTransGen.refl
  have h₁ := h₀.tail (Step.run (t := (0 : Fin 2)) rfl
    ⟨plainHost, "GET".toList, "/".toList,
      ⟨midnight, midnight, midnight, midnight⟩, _, _, rfl, rfl⟩)
  have h₂ := h₁.tail (Step.acquire (t := (0 : Fin 2)) rfl rfl)
  have h₃ := h₂.tail (Step.leave (t := (0 : Fin 2)) rfl rfl rfl .nil)
  have h₄ := h₃.tail (Step.run (t := (1 : Fin 2)) rfl
    ⟨plainHost, "POST".toList, "/".toList,
      ⟨midnight, midnight, midnight, midnight⟩, _, _, rfl, rfl⟩)
  have h₅ := h₄.tail (Step.acquire (t := (1 : Fin 2)) rfl rfl)
  have h₆ := h₅.tail (Step.leave (t := (1 : Fin 2)) rfl rfl rfl .nil)
  exact ⟨_, ⟨_, h₆⟩, rfl, rfl⟩

theorem reader_writer_exclusion_writing : ∃ s : LogState 2, Writes s 0 ∧
    ¬ Reads s 1 ∧ s.data.writers = (Finset.univ.filter (Writes s)).card := by
  obtain ⟨s, hs, hwrites, -⟩ := exists_writing
  obtain ⟨-, halone, -, hcount, -⟩ := reader_writer_exclusion 2 _ s hs
  exact ⟨s, hwrites, halone 0 1 hwrites, hcount⟩

end OsCoursework.Server.Logging
