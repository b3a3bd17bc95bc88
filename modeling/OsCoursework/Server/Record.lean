import OsCoursework.Server.LogLock

/-!
# The log is a record of the successful GETs

`WorkerInv` says what holds of one worker at its place and `RecordInv` adds what
ties the workers together: the text of the log is what the calls of `add_to_log`
formatted, in the order in which they got the lock, and each worker has as many
entries in it as its counters say.  A writer is alone with the buffer, so the
stages of one `add_to_log` never meet another worker that looks at it.
-/

namespace OsCoursework.Server.Logging

open OsCoursework.Monitor

/-! ## The buffer -/

/-- The text of a sequence of entries. -/
def flat (es : List Entry) : Text :=
  es.flatMap Entry.text

theorem flat_append (es fs : List Entry) : flat (es ++ fs) = flat es ++ flat fs :=
  List.flatMap_append

theorem flat_singleton (e : Entry) : flat [e] = e.text :=
  List.append_nil _

section Buffer

variable {log log' : LogBuffer} {entry : Text}

theorem grows_frame {len : ℕ} (h : Grows log len log') :
    log'.buffer = log.buffer ∧ log'.length = log.length := by
  obtain ⟨fuel, capacity, -, rfl⟩ := h
  exact ⟨rfl, rfl⟩

theorem content_eq_of_frame
    (h : log'.buffer = log.buffer ∧ log'.length = log.length) :
    log'.content = log.content := by
  rw [LogBuffer.content, h.1, h.2]
  rfl

/-- The copy leaves the log as it is and puts the entry right after it. -/
theorem copyEntry_spec (h : copyEntry log entry = some log') :
    log'.length = log.length ∧ log'.content = log.content ∧
      (List.range (log.length.toNat + entry.length)).map log'.buffer =
        log.content ++ entry := by
  rw [copyEntry] at h
  split at h
  · cases h
    have hbefore : (List.range log.length.toNat).map (fun a =>
          if log.length.toNat ≤ a then
            entry.getD (a - log.length.toNat) (log.buffer a)
          else log.buffer a) =
        (List.range log.length.toNat).map log.buffer := by
      refine List.map_congr_left fun a ha => ?_
      rw [if_neg (Nat.not_le.mpr (List.mem_range.mp ha))]
    refine ⟨rfl, hbefore, ?_⟩
    rw [List.range_add, List.map_append, hbefore, List.map_map]
    refine congrArg (log.content ++ ·) ?_
    refine List.ext_getElem (by simp) fun j hj hj' => ?_
    rw [List.getElem_map, List.getElem_range, Function.comp_apply]
    dsimp only
    rw [if_pos (Nat.le_add_right _ _), Nat.add_sub_cancel_left]
    rw [List.getD_eq_getElem?_getD, List.getElem?_eq_getElem hj', Option.getD_some]
  · cases h

theorem advance_spec {len : ℕ} (h : advance log len = some log') :
    log'.buffer = log.buffer ∧ log'.length = log.length + len ∧
      log'.length ≤ 2147483647 := by
  obtain ⟨length, hint, h⟩ := Option.bind_eq_some_iff.mp h
  cases h
  unfold int at hint
  split at hint
  · next hrange =>
    cases hint
    exact ⟨rfl, rfl, hrange.2⟩
  · cases hint

/-- The NUL goes behind the text. -/
theorem terminate_spec (h : terminate log = some log') :
    log'.length = log.length ∧ log'.content = log.content := by
  rw [terminate] at h
  split at h
  · cases h
    refine ⟨rfl, List.map_congr_left fun a ha => ?_⟩
    exact Function.update_of_ne (Nat.ne_of_lt (List.mem_range.mp ha)) _ _
  · cases h

theorem copyOut_spec {dst : Text} (hlength : 0 ≤ log.length)
    (h : copyOut log (log.length + 1) = some dst) :
    dst.take log.length.toNat = log.content := by
  rw [copyOut] at h
  split at h
  · cases h
    have hsize : (log.length + 1).toNat = log.length.toNat + 1 := by omega
    rw [hsize, ← List.map_take, List.take_range, Nat.min_eq_left (Nat.le_succ _)]
    rfl
  · cases h

end Buffer

/-! ## Statistics -/

theorem appendStats_eq (buf : Text) (t : ThreadsStats) (tm : TimeStats) :
    appendStats buf t tm = buf ++ appendStatsInLog [] t tm := by
  simp only [appendStats, appendStatsInLog, List.append_assoc, List.nil_append]

/-- A GET that is answered counts once, and nothing else changes the sum. -/
theorem prepare_counts {host : Host} {method uri : Text} {t t' : ThreadsStats}
    {prepared : Prepared} (h : prepare host method uri t = some (t', prepared)) :
    t'.id = t.id ∧ t'.statReq + t'.dynmReq =
      t.statReq + t.dynmReq + (if prepared.isGet then 1 else 0) := by
  obtain ⟨total, -, h⟩ := Option.bind_eq_some_iff.mp h
  dsimp only at h
  split at h
  · split at h
    · cases h
      exact ⟨rfl, (Int.add_zero _).symm⟩
    · split at h
      · split at h
        · cases h
          exact ⟨rfl, (Int.add_zero _).symm⟩
        · obtain ⟨count, hcount, h⟩ := Option.bind_eq_some_iff.mp h
          obtain ⟨body, -, h⟩ := Option.bind_eq_some_iff.mp h
          cases h
          rw [int_eq_some hcount]
          exact ⟨rfl, Int.add_right_comm _ _ _⟩
      · split at h
        · cases h
          exact ⟨rfl, (Int.add_zero _).symm⟩
        · obtain ⟨count, hcount, h⟩ := Option.bind_eq_some_iff.mp h
          obtain ⟨⟨body, len⟩, -, h⟩ := Option.bind_eq_some_iff.mp h
          cases h
          rw [int_eq_some hcount]
          exact ⟨rfl, (Int.add_assoc _ _ _).symm⟩
  · split at h
    · obtain ⟨count, hcount, h⟩ := Option.bind_eq_some_iff.mp h
      cases h
      exact ⟨rfl, (Int.add_zero _).symm⟩
    · cases h
      exact ⟨rfl, (Int.add_zero _).symm⟩

/-! ## One worker -/

variable {n : ℕ} {clock : ℕ → Timeval} {d d' : Data n} {f : Places n} {i j : Fin n}

/-- The call of `add_to_log` that worker `i` makes for `r`. -/
def Data.entry (d : Data n) (i : Fin n) (r : Get) : Entry :=
  ⟨r.request, d.stats i, r.tmStats⟩

/-- The log while worker `i` is at a stage of `add_to_log`. -/
def WriteInv (d : Data n) (e : Entry) : WriteStage → Prop
  | .format => d.log.content = flat d.completed
  | .grow entry => entry = e.text ∧ d.log.content = flat d.completed
  | .copy entry => entry = e.text ∧ d.log.content = flat d.completed
  | .advance entry => entry = e.text ∧ d.log.content = flat d.completed ∧
      (List.range (d.log.length.toNat + entry.length)).map d.log.buffer =
        flat d.completed ++ entry
  | .terminate => d.log.content = flat d.acquired

/-- The copy of worker `i` at a stage of `get_log`. -/
def ReadInv (d : Data n) : ReadStage → Prop
  | .malloc => True
  | .copy _ => True
  | .length dst => dst.take d.log.length.toNat = d.log.content

/-- The first `k` entries, for a `k` that was current between call and return. -/
def Snapshot (d : Data n) (called returned : ℕ) (body : Text) : Prop :=
  ∃ k, called ≤ k ∧ k ≤ returned ∧ returned ≤ d.completed.length ∧
    body = flat (d.completed.take k)

/-- What holds of worker `i` at its place. -/
def WorkerInv (d : Data n) (i : Fin n) : Place Outside Inside → Prop
  | .inside (.writerLock r) | .inside (.writerRetest r) =>
      r.request < d.arrived ∧ ∀ e ∈ d.acquired, e.request ≠ r.request
  | .outside (.writing r stage) =>
      d.acquired = d.completed ++ [d.entry i r] ∧ WriteInv d (d.entry i r) stage
  | .inside (.writerUnlock r) =>
      d.acquired = d.completed ++ [d.entry i r] ∧
        d.log.content = flat d.acquired
  | .outside (.sendGet r) => d.entry i r ∈ d.completed
  | .inside (.readerLock r) => r.called ≤ d.completed.length
  | .outside (.reading r stage) => r.called ≤ d.completed.length ∧ ReadInv d stage
  | .inside (.readerUnlock r dst len) => r.called ≤ d.completed.length ∧
      len = d.log.length ∧ dst.take len.toNat = d.log.content
  | .outside (.sendPost r returned dst len) => 0 ≤ len ∧ len ≤ 2147483647 ∧
      Snapshot d r.called returned (dst.take len.toNat)
  | .outside .ready => True

/-- The request of a GET that is not in the log yet. -/
def pending : Place Outside Inside → Option ℕ
  | .inside (.writerLock r) => some r.request
  | .inside (.writerRetest r) => some r.request
  | _ => none

/-- The response shows what the log has. -/
def SentInv (d : Data n) : Sent → Prop
  | .refused _ => True
  | .get request respHeaders headers _ => ∃ e ∈ d.completed, e.request = request ∧
      ∃ block, headers = respHeaders ++ block ∧ e.text = block ++ "\n".toList
  | .post called returned _ body => Snapshot d called returned body

/-- The entries of worker `i`. -/
def Data.logged (d : Data n) (i : Fin n) : ℕ :=
  d.acquired.countP fun e => e.tStats.id = ((i : ℕ) : ℤ) + 1

/-- The invariant of the log. -/
structure RecordInv (d : Data n) (f : Places n) : Prop where
  worker : ∀ i, WorkerInv d i (f i)
  id_eq : ∀ i, (d.stats i).id = ((i : ℕ) : ℤ) + 1
  arrived : ∀ e ∈ d.acquired, e.request < d.arrived
  distinct : (d.acquired.map Entry.request).Nodup
  apart : ∀ i j k, pending (f i) = some k → pending (f j) = some k → i = j
  count : ∀ i, (d.logged i : ℤ) + (if (pending (f i)).isSome then 1 else 0) =
    (d.stats i).statReq + (d.stats i).dynmReq
  length_nonneg : 0 ≤ d.log.length
  length_le : d.log.length ≤ 2147483647
  free : (∀ i, phase (f i) ≠ .writing) →
    d.completed = d.acquired ∧ d.log.content = flat d.acquired
  sent : ∀ x ∈ d.sent, SentInv d x

/-! ## What one worker leaves to the others -/

theorem Snapshot.mono {called returned : ℕ} {body : Text}
    (h : Snapshot d called returned body) (hcompleted : d.completed <+: d'.completed) :
    Snapshot d' called returned body := by
  obtain ⟨k, hcalled, hk, hreturned, hbody⟩ := h
  refine ⟨k, hcalled, hk, hreturned.trans hcompleted.length_le, ?_⟩
  obtain ⟨later, hlater⟩ := hcompleted
  rw [hbody, ← hlater, List.take_append_of_le_length (hk.trans hreturned)]

theorem SentInv.mono {x : Sent} (h : SentInv d x)
    (hcompleted : d.completed <+: d'.completed) : SentInv d' x := by
  cases x with
  | refused bytes => trivial
  | get request respHeaders headers body =>
      obtain ⟨e, he, hrest⟩ := h
      exact ⟨e, hcompleted.subset he, hrest⟩
  | post called returned headers body => exact Snapshot.mono h hcompleted

/-- What is known of a worker survives the steps of the others. -/
theorem WorkerInv.frame {p : Place Outside Inside} (h : WorkerInv d j p)
    (hstats : d'.stats j = d.stats j) (harrived : d.arrived ≤ d'.arrived)
    (hcompleted : d.completed <+: d'.completed)
    (hacquired : ∀ k, pending p = some k → ∀ e ∈ d'.acquired, e ∉ d.acquired →
      e.request ≠ k)
    (hwriting : phase p = .writing → d'.acquired = d.acquired ∧
      d'.completed = d.completed ∧ d'.log = d.log)
    (hreading : phase p = .reading → d'.log = d.log) : WorkerInv d' j p := by
  have hentry (r : Get) : d'.entry j r = d.entry j r := by
    rw [Data.entry, hstats, Data.entry]
  have hpending {r : Get} (hk : pending p = some r.request)
      (hr : r.request < d.arrived ∧ ∀ e ∈ d.acquired, e.request ≠ r.request) :
      r.request < d'.arrived ∧ ∀ e ∈ d'.acquired, e.request ≠ r.request := by
    refine ⟨hr.1.trans_le harrived, fun e he => ?_⟩
    by_cases hold : e ∈ d.acquired
    · exact hr.2 e hold
    · exact hacquired _ hk e he hold
  cases p with
  | outside o =>
      cases o with
      | ready => trivial
      | writing r stage =>
          obtain ⟨hacq, hcomp, hlog⟩ := hwriting rfl
          obtain ⟨heq, hstage⟩ := h
          refine ⟨by rw [hentry, hacq, hcomp, heq], ?_⟩
          cases stage <;> simpa only [WriteInv, hentry, hacq, hcomp, hlog] using hstage
      | sendGet r =>
          change d'.entry j r ∈ d'.completed
          rw [hentry]
          exact hcompleted.subset h
      | reading r stage =>
          refine ⟨h.1.trans hcompleted.length_le, ?_⟩
          cases stage with
          | malloc => trivial
          | copy size => trivial
          | length dst => simpa only [ReadInv, hreading rfl] using h.2
      | sendPost r returned dst len => exact ⟨h.1, h.2.1, h.2.2.mono hcompleted⟩
  | inside k =>
      cases k with
      | writerLock r => exact hpending rfl h
      | writerRetest r => exact hpending rfl h
      | writerUnlock r =>
          obtain ⟨hacq, hcomp, hlog⟩ := hwriting rfl
          refine ⟨by rw [hentry, hacq, hcomp, h.1], ?_⟩
          rw [hacq, hlog]
          exact h.2
      | readerLock r => exact Nat.le_trans h hcompleted.length_le
      | readerUnlock r dst len =>
          refine ⟨h.1.trans hcompleted.length_le, ?_⟩
          rw [hreading rfl]
          exact h.2

/-- A writer is alone with the log. -/
theorem LockInv.alone {l : Lock} (h : LockInv l f) (hi : phase (f i) = .writing)
    (hji : j ≠ i) : phase (f j) ≠ .writing ∧ phase (f j) ≠ .reading := by
  have hwriters := h.writers_eq
  have hreaders := h.readers_eq
  have hle := h.writers_le
  have hpos := Finset.card_pos.mpr ⟨i, mem_inPhase.mpr hi⟩
  have hnone := h.readers_of_writer (by omega)
  constructor
  · intro hj
    have hcard : (inPhase .writing f).card ≤ 1 := by omega
    exact hji (Finset.card_le_one.mp hcard j (mem_inPhase.mpr hj) i
      (mem_inPhase.mpr hi))
  · intro hj
    have hread := Finset.card_pos.mpr ⟨j, mem_inPhase.mpr hj⟩
    omega

/-! ## Steps -/

theorem forall_worker_update {p : Place Outside Inside} (hworker : WorkerInv d' i p)
    (hothers : ∀ j, j ≠ i → WorkerInv d' j (f j)) (j : Fin n) :
    WorkerInv d' j (Function.update f i p j) :=
  (Function.forall_update_iff f (fun j q => WorkerInv d' j q)).mpr ⟨hworker, hothers⟩ j

theorem pending_update {p : Place Outside Inside} (hpending : pending p = pending (f i))
    (j : Fin n) : pending (Function.update f i p j) = pending (f j) := by
  by_cases hji : j = i
  · subst hji
    rw [Function.update_self, hpending]
  · rw [Function.update_of_ne hji]

/-- The requests on the way keep different numbers if worker `i` gets none of those of
the others. -/
theorem apart_update {p : Place Outside Inside}
    (h : ∀ i j k, pending (f i) = some k → pending (f j) = some k → i = j)
    (hnew : ∀ k, pending p = some k → ∀ j, j ≠ i → pending (f j) ≠ some k)
    (j j' : Fin n) (k : ℕ) (hj : pending (Function.update f i p j) = some k)
    (hj' : pending (Function.update f i p j') = some k) : j = j' := by
  by_cases hji : j = i
  · by_cases hji' : j' = i
    · rw [hji, hji']
    · rw [hji, Function.update_self] at hj
      rw [Function.update_of_ne hji'] at hj'
      exact absurd hj' (hnew k hj j' hji')
  · rw [Function.update_of_ne hji] at hj
    by_cases hji' : j' = i
    · rw [hji', Function.update_self] at hj'
      exact absurd hj (hnew k hj' j hji)
    · rw [Function.update_of_ne hji'] at hj'
      exact h j j' k hj hj'

/-- Nobody writes after the move of a worker that does not write before it. -/
theorem forall_not_writing_of_update {p : Place Outside Inside}
    (hi : phase (f i) ≠ .writing) (hfree : ∀ j, phase (Function.update f i p j) ≠ .writing)
    (j : Fin n) : phase (f j) ≠ .writing := by
  by_cases hji : j = i
  · rwa [hji]
  · have hj := hfree j
    rwa [Function.update_of_ne hji] at hj

/-- Worker `i` moves and touches at most the log and the responses. -/
theorem RecordInv.move {l : Lock} {p : Place Outside Inside} (h : RecordInv d f)
    (hlock : LockInv l f) (hstats : d'.stats = d.stats)
    (harrived : d'.arrived = d.arrived) (hacquired : d'.acquired = d.acquired)
    (hcompleted : d'.completed = d.completed)
    (hlog : d'.log = d.log ∨ phase (f i) = .writing ∧ 0 ≤ d'.log.length ∧
      d'.log.length ≤ 2147483647)
    (hsent : ∀ x ∈ d'.sent, x ∈ d.sent ∨ SentInv d' x)
    (hpending : pending p = pending (f i))
    (hphase : phase p = .writing ↔ phase (f i) = .writing)
    (hworker : WorkerInv d' i p) : RecordInv d' (Function.update f i p) := by
  have hpend := pending_update (f := f) hpending
  refine ⟨forall_worker_update hworker ?_, by simpa only [hstats] using h.id_eq,
    ?_, ?_, ?_, ?_, ?_, ?_, ?_, ?_⟩
  · intro j hji
    -- A log that changes belongs to a writer, and then `j` does not look at it.
    have hsame (hj : phase (f j) = .writing ∨ phase (f j) = .reading) :
        d'.log = d.log := by
      rcases hlog with hlog | ⟨hi, -⟩
      · exact hlog
      · rcases hj with hj | hj
        · exact absurd hj (hlock.alone hi hji).1
        · exact absurd hj (hlock.alone hi hji).2
    exact (h.worker j).frame (by rw [hstats]) harrived.ge
      (by rw [hcompleted]) (fun k _ e he hnot => absurd (hacquired ▸ he) hnot)
      (fun hj => ⟨hacquired, hcompleted, hsame (Or.inl hj)⟩)
      (fun hj => hsame (Or.inr hj))
  · rw [hacquired, harrived]
    exact h.arrived
  · rw [hacquired]
    exact h.distinct
  · simpa only [hpend] using h.apart
  · simpa only [hpend, Data.logged, hacquired, hstats] using h.count
  · rcases hlog with hlog | ⟨-, hlog, -⟩
    · rw [hlog]
      exact h.length_nonneg
    · exact hlog
  · rcases hlog with hlog | ⟨-, -, hlog⟩
    · rw [hlog]
      exact h.length_le
    · exact hlog
  · intro hfree
    have hi := hfree i
    rw [Function.update_self, ne_eq, hphase] at hi
    have hlog : d'.log = d.log := by
      rcases hlog with hlog | ⟨hw, -⟩
      · exact hlog
      · exact absurd hw hi
    rw [hcompleted, hacquired, hlog]
    exact h.free (forall_not_writing_of_update hi hfree)
  · intro x hx
    rcases hsent x hx with hold | hnew
    · exact (h.sent x hold).mono (by rw [hcompleted])
    · exact hnew

/-- The stages of `add_to_log` append the entry to the text. -/
theorem RecordInv.write {l : Lock} {p : Place Outside Inside} {r : Get}
    {stage : WriteStage} (h : RecordInv d f) (hlock : LockInv l f)
    (hi : f i = .outside (.writing r stage)) (hwrite : Write i r stage d d' p) :
    RecordInv d' (Function.update f i p) := by
  have hphase : phase (f i) = .writing := by rw [hi]; rfl
  have hworker := h.worker i
  rw [hi] at hworker
  obtain ⟨hacquired, hstage⟩ := hworker
  have hlength := h.length_nonneg
  -- Every stage after the first replaces the log and keeps the rest.
  have hstep {log : LogBuffer} {p : Place Outside Inside} (hpending : pending p = none)
      (hp : phase p = .writing) (hbound : 0 ≤ log.length ∧ log.length ≤ 2147483647)
      (hworker : WorkerInv { d with log := log } i p) :
      RecordInv { d with log := log } (Function.update f i p) := by
    refine h.move hlock rfl rfl rfl rfl (Or.inr ⟨hphase, hbound⟩)
      (fun x hx => Or.inl hx) ?_ ?_ hworker
    · rw [hpending, hi]
      rfl
    · rw [hp, hphase]
  cases stage with
  | format =>
      obtain ⟨rfl, rfl⟩ := hwrite
      exact hstep rfl rfl ⟨hlength, h.length_le⟩ ⟨hacquired, rfl, hstage⟩
  | grow entry =>
      obtain ⟨log, hgrows, rfl, rfl⟩ := hwrite
      have hsame := grows_frame hgrows
      refine hstep rfl rfl ?_ ⟨hacquired, hstage.1, ?_⟩
      · rw [hsame.2]
        exact ⟨hlength, h.length_le⟩
      · exact (content_eq_of_frame hsame).trans hstage.2
  | copy entry =>
      obtain ⟨log, hcopy, rfl, rfl⟩ := hwrite
      obtain ⟨hsame, hcontent, hcopied⟩ := copyEntry_spec hcopy
      refine hstep rfl rfl ?_ ⟨hacquired, hstage.1, hcontent.trans hstage.2, ?_⟩
      · rw [hsame]
        exact ⟨hlength, h.length_le⟩
      · dsimp only
        rw [hsame, hcopied, hstage.2]
  | advance entry =>
      obtain ⟨log, hadvance, rfl, rfl⟩ := hwrite
      obtain ⟨hbuffer, hlen, hle⟩ := advance_spec hadvance
      refine hstep rfl rfl ⟨by omega, hle⟩ ⟨hacquired, ?_⟩
      obtain ⟨hentry, -, hcopied⟩ := hstage
      change log.content = flat d.acquired
      have htoNat : log.length.toNat = d.log.length.toNat + entry.length := by omega
      rw [LogBuffer.content, hbuffer, htoNat, hcopied, hacquired, flat_append,
        flat_singleton, hentry]
  | terminate =>
      obtain ⟨log, hterminate, rfl, rfl⟩ := hwrite
      obtain ⟨hsame, hcontent⟩ := terminate_spec hterminate
      refine hstep rfl rfl ?_ ⟨hacquired, hcontent.trans hstage⟩
      rw [hsame]
      exact ⟨hlength, h.length_le⟩

/-- The stages of `get_log` copy the text. -/
theorem RecordInv.read {l : Lock} {p : Place Outside Inside} {r : Post}
    {stage : ReadStage} (h : RecordInv d f) (hlock : LockInv l f)
    (hi : f i = .outside (.reading r stage)) (hread : Read r stage d d' p) :
    RecordInv d' (Function.update f i p) := by
  have hworker := h.worker i
  rw [hi] at hworker
  obtain ⟨hcalled, hstage⟩ := hworker
  have hstep {p : Place Outside Inside} (hpending : pending p = none)
      (hp : phase p = .reading) (hworker : WorkerInv d i p) :
      RecordInv d (Function.update f i p) := by
    refine h.move hlock rfl rfl rfl rfl (Or.inl rfl) (fun x hx => Or.inl hx) ?_ ?_
      hworker
    · rw [hpending, hi]
      rfl
    · rw [hp, hi]
      rfl
  cases stage with
  | malloc =>
      obtain ⟨rfl, size, -, rfl⟩ := hread
      exact hstep rfl rfl ⟨hcalled, trivial⟩
  | copy size =>
      obtain ⟨rfl, bytes, dst, hint, -, hcopy, rfl⟩ := hread
      rw [int_eq_some hint] at hcopy
      exact hstep rfl rfl ⟨hcalled, copyOut_spec h.length_nonneg hcopy⟩
  | length dst =>
      obtain ⟨rfl, rfl⟩ := hread
      exact hstep rfl rfl ⟨hcalled, rfl, hstage⟩

theorem rioWriten_some {dst body : Text} {len : ℤ} (hlen : 0 ≤ len)
    (hle : len ≤ 2147483647) (h : rioWriten (some dst) len = some body) :
    body = dst.take len.toNat := by
  cases h
  have hsize : toSizeT len = len.toNat := by
    rw [toSizeT, Int.emod_eq_of_lt hlen (by omega)]
  rw [hsize]

/-- Sending a response. -/
theorem RecordInv.send {l : Lock} {x : Sent} (h : RecordInv d f) (hlock : LockInv l f)
    (hpending : pending (f i) = none) (hphase : phase (f i) = .idle)
    (hx : SentInv d x) :
    RecordInv { d with sent := d.sent ++ [x] }
      (Function.update f i (.outside .ready)) := by
  refine h.move hlock rfl rfl rfl rfl (Or.inl rfl) ?_ hpending.symm ?_ trivial
  · intro y hy
    rcases List.mem_append.mp hy with hy | hy
    · exact Or.inl hy
    · rw [List.mem_singleton.mp hy]
      exact Or.inr (hx.mono (List.prefix_refl _))
  · rw [hphase]
    exact Iff.rfl

/-- A GET that is not in the log yet has a number that is not in the log. -/
theorem RecordInv.pending_new (h : RecordInv d f) {k : ℕ}
    (hj : pending (f j) = some k) :
    k < d.arrived ∧ ∀ e ∈ d.acquired, e.request ≠ k := by
  have hworker := h.worker j
  cases hplace : f j with
  | outside o =>
      rw [hplace] at hj
      cases hj
  | inside m =>
      rw [hplace] at hj hworker
      cases m with
      | writerLock r =>
          cases hj
          exact hworker
      | writerRetest r =>
          cases hj
          exact hworker
      | _ => cases hj

/-- A request gets its number; `get` tells whether it will be logged. -/
theorem RecordInv.number {p : Place Outside Inside} {get : Bool} {t : ThreadsStats}
    {ticks : ℕ} {sent : List Sent} (h : RecordInv d f) (hi : f i = .outside .ready)
    (hid : t.id = (d.stats i).id)
    (hcount : t.statReq + t.dynmReq =
      (d.stats i).statReq + (d.stats i).dynmReq + (if get then 1 else 0))
    (hpending : pending p = if get then some d.arrived else none)
    (hsent : ∀ x ∈ sent, x ∈ d.sent ∨ ∃ bytes, x = .refused bytes)
    (hworker : WorkerInv { d with
      stats := Function.update d.stats i t
      arrived := d.arrived + 1
      ticks := ticks
      sent := sent } i p) :
    RecordInv { d with
      stats := Function.update d.stats i t
      arrived := d.arrived + 1
      ticks := ticks
      sent := sent } (Function.update f i p) := by
  -- The new number is larger than that of any other request.
  have hnew : ∀ k, pending p = some k → ∀ j, j ≠ i → pending (f j) ≠ some k := by
    intro k hk j _ hj
    have hlt := (h.pending_new hj).1
    rw [hpending] at hk
    split at hk
    · exact hlt.ne (Option.some.inj hk).symm
    · cases hk
  refine ⟨forall_worker_update hworker ?_, ?_, ?_, h.distinct, apart_update h.apart hnew,
    ?_, h.length_nonneg, h.length_le, ?_, ?_⟩
  · intro j hji
    exact (h.worker j).frame (Function.update_of_ne hji _ _) (Nat.le_succ _)
      (List.prefix_refl _) (fun k _ e he hnot => absurd he hnot)
      (fun _ => ⟨rfl, rfl, rfl⟩) (fun _ => rfl)
  · intro j
    by_cases hji : j = i
    · subst hji
      simp only [Function.update_self, hid, h.id_eq]
    · simp only [Function.update_of_ne hji, h.id_eq]
  · exact fun e he => (h.arrived e he).trans (Nat.lt_succ_self _)
  · intro j
    have hold := h.count j
    by_cases hji : j = i
    · subst hji
      have hready : pending (f j) = none := by rw [hi]; rfl
      rw [hready, Option.isSome_none, if_neg Bool.false_ne_true,
        Int.add_zero] at hold
      simp only [Function.update_self, hpending, hcount, ← hold]
      cases get <;> rfl
    · simpa only [Function.update_of_ne hji, Data.logged] using hold
  · refine fun hfree => h.free (forall_not_writing_of_update ?_ hfree)
    rw [hi]
    decide
  · intro x hx
    rcases hsent x hx with hold | ⟨bytes, rfl⟩
    · exact (h.sent x hold).mono (List.prefix_refl _)
    · trivial

/-- A request arrives at a worker that is between two requests. -/
theorem RecordInv.arrive {host : Host} {method uri : Text} {t : ThreadsStats}
    {prepared : Prepared} (h : RecordInv d f) (clock : ℕ → Timeval) (tmStats : TimeStats)
    (hi : f i = .outside .ready)
    (hprepare : prepare host method uri (d.stats i) = some (t, prepared)) :
    RecordInv (arrive clock i d tmStats t prepared).1
      (Function.update f i (arrive clock i d tmStats t prepared).2) := by
  obtain ⟨hid, hcount⟩ := prepare_counts hprepare
  cases prepared with
  | refused cause errnum shortmsg longmsg =>
      refine h.number hi hid hcount rfl ?_ trivial
      intro x hx
      rcases List.mem_append.mp hx with hx | hx
      · exact Or.inl hx
      · exact Or.inr ⟨_, List.mem_singleton.mp hx⟩
  | get headers body bodyLen =>
      exact h.number hi hid hcount rfl (fun x hx => Or.inl hx)
        ⟨Nat.lt_succ_self _, fun e he => (h.arrived e he).ne⟩
  | post =>
      exact h.number hi hid hcount rfl (fun x hx => Or.inl hx) (Nat.le_refl _)

/-- `reader_lock` and `reader_unlock` do not touch the log. -/
theorem RecordInv.readerLock {l : Lock} {r : Post}
    {out : Outcome Cond Outside Inside (Data n)} (h : RecordInv d f)
    (hlock : LockInv l f) (hi : f i = .inside (.readerLock r))
    (hrun : readerLock clock d r = some out) :
    RecordInv out.data (Function.update f i out.exit.place) := by
  have hworker := h.worker i
  rw [hi] at hworker
  unfold Logging.readerLock at hrun
  split at hrun
  · cases hrun
    refine h.move hlock rfl rfl rfl rfl (Or.inl rfl) (fun x hx => Or.inl hx) ?_ ?_
      hworker <;> rw [hi] <;> rfl
  · obtain ⟨readers, -, hrun⟩ := Option.bind_eq_some_iff.mp hrun
    cases hrun
    refine h.move hlock rfl rfl rfl rfl (Or.inl rfl)
      (fun x hx => Or.inr ((h.sent x hx).mono (List.prefix_refl _))) ?_ ?_
      ⟨hworker, trivial⟩
    · rw [hi]
      rfl
    · simp only [hi, phase, Exit.place, reduceCtorEq]

theorem RecordInv.readerUnlock {l : Lock} {r : Post} {dst : Text} {len : ℤ}
    {out : Outcome Cond Outside Inside (Data n)} (h : RecordInv d f)
    (hlock : LockInv l f) (hi : f i = .inside (.readerUnlock r dst len))
    (hrun : readerUnlock d r dst len = some out) :
    RecordInv out.data (Function.update f i out.exit.place) := by
  have hworker := h.worker i
  rw [hi] at hworker
  obtain ⟨hcalled, rfl, hcopy⟩ := hworker
  -- No writer is active, so the text that was copied is that of all entries.
  have hnone : ∀ j, phase (f j) ≠ .writing := by
    intro j hj
    by_cases hij : i = j
    · rw [← hij, hi] at hj
      cases hj
    · refine (hlock.alone hj hij).2 ?_
      rw [hi]
      rfl
  obtain ⟨hcompleted, hcontent⟩ := h.free hnone
  obtain ⟨readers, -, hrun⟩ := Option.bind_eq_some_iff.mp hrun
  cases hrun
  refine h.move hlock rfl rfl rfl rfl (Or.inl rfl)
    (fun x hx => Or.inr ((h.sent x hx).mono (List.prefix_refl _))) ?_ ?_
    ⟨h.length_nonneg, h.length_le, d.completed.length, hcalled, Nat.le_refl _,
      Nat.le_refl _, ?_⟩
  · rw [hi]
    rfl
  · simp only [hi, phase, Exit.place, reduceCtorEq]
  · dsimp only
    rw [List.take_length, hcompleted, hcopy, hcontent]

/-- An entry with the statistics of worker `i` counts for worker `i`. -/
theorem RecordInv.countP_entry (h : RecordInv d f) (i j : Fin n) (request : ℕ)
    (tmStats : TimeStats) :
    [(⟨request, d.stats i, tmStats⟩ : Entry)].countP
      (fun e => e.tStats.id = ((j : ℕ) : ℤ) + 1) = if j = i then 1 else 0 := by
  rw [List.countP_singleton]
  refine if_congr ?_ rfl rfl
  rw [decide_eq_true_eq, h.id_eq i, Fin.ext_iff]
  omega

/-- A writer gets the lock: its entry is the next one. -/
theorem RecordInv.acquire {l : Lock} {r : Get} {tmStats : TimeStats}
    {waiting : ℤ} {ticks : ℕ} (h : RecordInv d f) (hlock : LockInv l f)
    (hi : pending (f i) = some r.request)
    (hfree : l.readers ≤ 0 ∧ l.writers ≤ 0) :
    RecordInv { d with
      waitingWriters := waiting
      writers := 1
      ticks := ticks
      acquired := d.acquired ++ [⟨r.request, d.stats i, tmStats⟩] }
      (Function.update f i
        (.outside (.writing { r with tmStats := tmStats } .format))) := by
  have hnone : ∀ j, phase (f j) ≠ .writing := by
    intro j hj
    have hpos := Finset.card_pos.mpr ⟨j, mem_inPhase.mpr hj⟩
    have hwriters := hlock.writers_eq
    omega
  obtain ⟨hcompleted, hcontent⟩ := h.free hnone
  obtain ⟨hlt, hnew⟩ := h.pending_new hi
  refine ⟨forall_worker_update ⟨?_, ?_⟩ ?_, h.id_eq, ?_, ?_,
    apart_update h.apart (fun k hk => by cases hk), ?_, h.length_nonneg, h.length_le,
    ?_, ?_⟩
  · rw [hcompleted]
    rfl
  · change d.log.content = flat d.completed
    rw [hcontent, hcompleted]
  · intro j hji
    refine (h.worker j).frame rfl (Nat.le_refl _) (List.prefix_refl _) ?_
      (fun hj => absurd hj (hnone j)) (fun _ => rfl)
    intro k hk e he hnot
    rcases List.mem_append.mp he with he | he
    · exact absurd he hnot
    · rw [List.mem_singleton.mp he]
      rintro rfl
      exact hji (h.apart j i _ hk hi)
  · intro e he
    rcases List.mem_append.mp he with he | he
    · exact h.arrived e he
    · rw [List.mem_singleton.mp he]
      exact hlt
  · dsimp only
    rw [List.map_append, List.nodup_append]
    refine ⟨h.distinct, List.nodup_singleton _, ?_⟩
    intro a ha b hb
    obtain ⟨e, he, rfl⟩ := List.mem_map.mp ha
    rw [List.mem_singleton.mp hb]
    exact hnew e he
  · intro j
    have hold := h.count j
    simp only [Data.logged, List.countP_append, h.countP_entry] at hold ⊢
    by_cases hji : j = i
    · subst hji
      rw [hi] at hold
      rw [Function.update_self, ← hold]
      simp [pending]
    · simpa only [Function.update_of_ne hji, if_neg hji, Nat.add_zero] using hold
  · intro hfree
    have hi := hfree i
    rw [Function.update_self] at hi
    exact absurd rfl hi
  · exact fun x hx => (h.sent x hx).mono (List.prefix_refl _)

/-- `writer_lock` from its `while` on, for a writer that has been counted. -/
theorem RecordInv.writerRetest {l : Lock} {r : Get} {waiting : ℤ}
    {out : Outcome Cond Outside Inside (Data n)} (h : RecordInv d f)
    (hlock : LockInv l f) (hl : l.readers = d.readers ∧ l.writers = d.writers)
    (hi : pending (f i) = some r.request) (hphase : phase (f i) ≠ .writing)
    (hrun : writerRetest clock i { d with waitingWriters := waiting } r = some out) :
    RecordInv out.data (Function.update f i out.exit.place) := by
  rcases writerRetest_cases hrun with
    ⟨-, hdata, -, hexit⟩ | ⟨hreaders, hwriters, -, _, -, hdata, hexit⟩
  · rw [hdata, hexit]
    exact h.move hlock rfl rfl rfl rfl (Or.inl rfl)
      (fun x hx => Or.inr ((h.sent x hx).mono (List.prefix_refl _))) hi.symm
      (iff_of_false nofun hphase) (h.pending_new hi)
  · rw [hdata, hexit]
    exact h.acquire hlock hi ⟨hl.1 ▸ hreaders, hl.2 ▸ hwriters⟩

/-- `writer_unlock`: the entry is complete. -/
theorem RecordInv.writerUnlock {l : Lock} {r : Get} (h : RecordInv d f)
    (hlock : LockInv l f) (hi : f i = .inside (.writerUnlock r)) :
    RecordInv { d with
      writers := 0
      completed := d.completed ++ [⟨r.request, d.stats i, r.tmStats⟩] }
      (Function.update f i (.outside (.sendGet r))) := by
  have hphase : phase (f i) = .writing := by rw [hi]; rfl
  have hworker := h.worker i
  rw [hi] at hworker
  obtain ⟨hacquired, hcontent⟩ := hworker
  have hstarts : d.completed <+: d.completed ++ [d.entry i r] :=
    List.prefix_append _ _
  have hpend (j : Fin n) :
      pending (Function.update f i (.outside (.sendGet r)) j) = pending (f j) := by
    apply pending_update
    rw [hi]
    rfl
  refine ⟨forall_worker_update ?_ ?_, h.id_eq, h.arrived, h.distinct,
    by simpa only [hpend] using h.apart, ?_, h.length_nonneg, h.length_le,
    fun _ => ⟨hacquired.symm, hcontent⟩, ?_⟩
  · exact List.mem_append_right _ (List.mem_singleton_self _)
  · intro j hji
    exact (h.worker j).frame rfl (Nat.le_refl _) hstarts
      (fun k _ e he hnot => absurd he hnot)
      (fun hj => absurd hj (hlock.alone hphase hji).1) (fun _ => rfl)
  · intro j
    rw [hpend]
    exact h.count j
  · exact fun x hx => (h.sent x hx).mono hstarts

/-! ## Runs -/

/-- The lock and the log together. -/
def ConfigInv (x : LogConfig n) : Prop :=
  LockInv x.data.lock x.place ∧ RecordInv x.data x.place

theorem ConfigInv.outside {x : LogConfig n} {o : Outside} {p : Place Outside Inside}
    (h : ConfigInv x) (hplace : x.place i = .outside o)
    (hout : outside clock i o x.data d p) :
    RecordInv d (Function.update x.place i p) := by
  obtain ⟨hlock, hrecord⟩ := h
  have hworker := hrecord.worker i
  rw [hplace] at hworker
  cases o with
  | ready =>
      obtain ⟨host, method, uri, tmStats, t, prepared, hprepare, harrive⟩ := hout
      have hstep := hrecord.arrive clock tmStats hplace hprepare
      rw [← harrive] at hstep
      exact hstep
  | writing r stage => exact hrecord.write hlock hplace hout
  | reading r stage => exact hrecord.read hlock hplace hout
  | sendGet r =>
      obtain ⟨body, -, rfl, rfl⟩ := hout
      apply hrecord.send hlock (by rw [hplace]; rfl) (by rw [hplace]; rfl)
      exact ⟨_, hworker, rfl, _, appendStats_eq _ _ _, rfl⟩
  | sendPost r returned dst len =>
      obtain ⟨body, hbody, rfl, rfl⟩ := hout
      apply hrecord.send hlock (by rw [hplace]; rfl) (by rw [hplace]; rfl)
      obtain ⟨hlen, hle, hsnapshot⟩ := hworker
      rw [SentInv, rioWriten_some hlen hle hbody]
      exact hsnapshot

theorem ConfigInv.inside {x : LogConfig n} {k : Inside}
    {out : Outcome Cond Outside Inside (Data n)} (h : ConfigInv x)
    (hplace : x.place i = .inside k) (hin : inside clock i k x.data = some out) :
    RecordInv out.data (Function.update x.place i out.exit.place) := by
  obtain ⟨hlock, hrecord⟩ := h
  cases k with
  | writerLock r =>
      obtain ⟨waiting, -, hrun⟩ := Option.bind_eq_some_iff.mp hin
      exact hrecord.writerRetest hlock ⟨rfl, rfl⟩ (by rw [hplace]; rfl)
        (by rw [hplace]; nofun) hrun
  | writerRetest r =>
      exact hrecord.writerRetest hlock ⟨rfl, rfl⟩ (by rw [hplace]; rfl)
        (by rw [hplace]; nofun) hin
  | writerUnlock r =>
      cases hin
      exact hrecord.writerUnlock hlock hplace
  | readerLock r => exact hrecord.readerLock hlock hplace hin
  | readerUnlock r dst len => exact hrecord.readerUnlock hlock hplace hin

theorem ConfigInv.step {x x' : LogConfig n} (h : ConfigInv x)
    (hstep : AtomicStep (program clock n) x x') : ConfigInv x' := by
  refine ⟨h.1.step hstep, ?_⟩
  cases hstep with
  | outside hplace hout => exact h.outside hplace hout
  | inside hplace hin => exact h.inside hplace hin

theorem recordInv_start (n : ℕ) (stale : ℕ → Char) :
    RecordInv (start n stale).data (start n stale).config.place := by
  have hlength : (start n stale).data.log.length = 0 := rfl
  refine ⟨fun _ => trivial, fun _ => rfl, fun _ => List.not_mem_nil.elim,
    List.nodup_nil, ?_, fun i => rfl, hlength.ge, ?_, fun _ => ⟨rfl, rfl⟩,
    fun _ => List.not_mem_nil.elim⟩
  · intro i j k hi
    cases hi
  · rw [hlength]
    exact Int.zero_le_ofNat _

theorem LoggingState.recordInv {s : LogState n} (hs : LoggingState clock s) :
    RecordInv s.data s.config.place := by
  obtain ⟨stale, hs⟩ := hs
  exact (hs.atomic_invariant (I := ConfigInv)
    ⟨lockInv_start n stale, recordInv_start n stale⟩ fun _ _ => ConfigInv.step).2

theorem flat_take_mono (es : List Entry) {k m : ℕ} (hkm : k ≤ m) :
    flat (es.take k) <+: flat (es.take m) := by
  obtain ⟨rest, hrest⟩ := List.take_prefix_take_left (l := es) hkm
  rw [← hrest, flat_append]
  exact List.prefix_append _ _

/-- Of two snapshots one extends the other. -/
theorem Snapshot.prefix {called called' returned returned' : ℕ} {body body' : Text}
    (h : Snapshot d called returned body) (h' : Snapshot d called' returned' body') :
    body <+: body' ∨ body' <+: body := by
  obtain ⟨k, -, -, -, rfl⟩ := h
  obtain ⟨m, -, -, -, rfl⟩ := h'
  rcases Nat.le_total k m with hkm | hmk
  · exact Or.inl (flat_take_mono _ hkm)
  · exact Or.inr (flat_take_mono _ hmk)

/-- The log holds one entry for each completed call of `add_to_log`, in the order of
the lock; an entry is the statistics that its response shows; what a POST returns
is the log as it was at the end of its copy; and the counters agree with the log. -/
theorem log_records_gets (n : ℕ) (clock : ℕ → Timeval) (s : LogState n)
    (hs : LoggingState clock s) :
    ((∀ i, ¬ Writes s i) → s.data.completed = s.data.acquired ∧
      s.data.log.content = flat s.data.completed) ∧
    (s.data.acquired.map Entry.request).Nodup ∧
    (∀ request respHeaders headers body,
      Sent.get request respHeaders headers body ∈ s.data.sent →
      ∃ e ∈ s.data.completed, e.request = request ∧
        ∃ block, headers = respHeaders ++ block ∧ e.text = block ++ "\n".toList) ∧
    (∀ i r dst len, (s.status i).place = .inside (.readerUnlock r dst len) →
      dst.take len.toNat = s.data.log.content) ∧
    (∀ called returned headers body,
      Sent.post called returned headers body ∈ s.data.sent →
      ∃ k, called ≤ k ∧ k ≤ returned ∧ returned ≤ s.data.completed.length ∧
        body = flat (s.data.completed.take k)) ∧
    (∀ called returned headers body called' returned' headers' body',
      Sent.post called returned headers body ∈ s.data.sent →
      Sent.post called' returned' headers' body' ∈ s.data.sent →
      body <+: body' ∨ body' <+: body) ∧
    ((∀ i, s.status i = .running .ready) → ∀ i : Fin n,
      ((s.data.completed.countP fun e => e.tStats.id = ((i : ℕ) : ℤ) + 1 : ℕ) : ℤ) =
        (s.data.stats i).statReq + (s.data.stats i).dynmReq) := by
  have hinv := hs.recordInv
  have hfree (hnone : ∀ i, ¬ Writes s i) := hinv.free hnone
  refine ⟨?_, hinv.distinct, fun _ _ _ _ hx => hinv.sent _ hx, ?_,
    fun _ _ _ _ hx => hinv.sent _ hx, ?_, ?_⟩
  · intro hnone
    obtain ⟨hcompleted, hcontent⟩ := hfree hnone
    exact ⟨hcompleted, hcompleted ▸ hcontent⟩
  · intro i r dst len hplace
    have hworker : WorkerInv s.data i (s.status i).place := hinv.worker i
    rw [hplace] at hworker
    exact hworker.2.2
  · intro _ _ _ _ _ _ _ _ hx hx'
    exact Snapshot.prefix (hinv.sent _ hx) (hinv.sent _ hx')
  · intro hready i
    have hnone : ∀ i, ¬ Writes s i := by
      intro i hi
      rw [Writes, hready i] at hi
      cases hi
    have hpending : pending (s.status i).place = none := by
      rw [hready i]
      rfl
    have hcount : (s.data.logged i : ℤ) +
        (if (pending (s.status i).place).isSome then 1 else 0) = _ := hinv.count i
    rw [hpending, Option.isSome_none, if_neg Bool.false_ne_true,
      Int.add_zero] at hcount
    rw [(hfree hnone).1]
    exact hcount

set_option maxRecDepth 20000 in
/-- The only worker has logged one GET. -/
theorem exists_logged : ∃ s : LogState 1, LoggingState (fun _ => midnight) s ∧
    s.data.completed.length = 1 ∧ s.status 0 = .running .ready := by
  have h₀ : Reachable (program (fun _ => midnight) 1) (start 1 fun _ => 'x')
      (start 1 fun _ => 'x') :=
    Relation.ReflTransGen.refl
  have h₁ := h₀.tail (Step.run (t := (0 : Fin 1)) rfl
    ⟨plainHost, "GET".toList, "/".toList,
      ⟨midnight, midnight, midnight, midnight⟩, _, _, rfl, rfl⟩)
  have h₂ := h₁.tail (Step.acquire (t := (0 : Fin 1)) rfl rfl)
  have h₃ := h₂.tail (Step.leave (t := (0 : Fin 1)) rfl rfl rfl .nil)
  have h₄ := h₃.tail (Step.run (t := (0 : Fin 1)) rfl ⟨rfl, rfl⟩)
  have h₅ := h₄.tail (Step.run (t := (0 : Fin 1)) rfl
    ⟨_, ⟨1, 1024, rfl, rfl⟩, rfl, rfl⟩)
  have h₆ := h₅.tail (Step.run (t := (0 : Fin 1)) rfl ⟨_, rfl, rfl, rfl⟩)
  have h₇ := h₆.tail (Step.run (t := (0 : Fin 1)) rfl ⟨_, rfl, rfl, rfl⟩)
  have h₈ := h₇.tail (Step.run (t := (0 : Fin 1)) rfl ⟨_, rfl, rfl, rfl⟩)
  have h₉ := h₈.tail (Step.acquire (t := (0 : Fin 1)) rfl rfl)
  have h₁₀ := h₉.tail (Step.leave (t := (0 : Fin 1)) rfl rfl rfl
    (.cons .broadcast .nil))
  have h₁₁ := h₁₀.tail (Step.run (t := (0 : Fin 1)) rfl ⟨_, rfl, rfl, rfl⟩)
  exact ⟨_, ⟨_, h₁₁⟩, rfl, rfl⟩

theorem log_records_gets_one : ∃ s : LogState 1, s.data.completed.length = 1 ∧
    s.data.log.content = flat s.data.completed ∧
    ((s.data.completed.countP fun e => e.tStats.id = ((0 : ℕ) : ℤ) + 1 : ℕ) : ℤ) =
      (s.data.stats 0).statReq + (s.data.stats 0).dynmReq := by
  obtain ⟨s, hs, hone, hready⟩ := exists_logged
  have hall : ∀ i, s.status i = .running .ready := by
    intro i
    rw [Subsingleton.elim i 0]
    exact hready
  obtain ⟨hfree, -, -, -, -, -, hcount⟩ := log_records_gets 1 _ s hs
  have hnone : ∀ i, ¬ Writes s i := by
    intro i hi
    rw [Writes, hall i] at hi
    cases hi
  exact ⟨s, hone, (hfree hnone).2, hcount hall 0⟩

end OsCoursework.Server.Logging
