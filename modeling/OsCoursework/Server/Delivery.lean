import OsCoursework.Server.Invariant

/-!
# Admission and delivery

What the invariant says about every state of the server: accepted connections
never exceed the queue size, although the master does not test again after
`Accept`; and every connection is served once, in the order of acceptance.
-/

namespace OsCoursework.Server

open OsCoursework.Monitor
open OsCoursework.LinkedQueue

variable {args : Args}

/-- Where the workers are. -/
def workers (s : PoolState args.numThreads) : Fin args.numThreads → WorkerPlace :=
  fun i => (s.status (.worker i)).place

/-! ## A run -/

/-- One worker and room for one connection. -/
def oneWorker : Args :=
  ⟨1, 1, by decide, by decide, by decide⟩

theorem step_accept {n : ℕ} {s : PoolState n} (job : ℕ) (c : Connection)
    (hst : s.status .master = .running .accept) (hjob : job ≠ 0)
    (hfree : s.data.heap job = none) :
    Step (program n) s ⟨accept s.data job c, s.owner,
      Function.update s.status .master (.blocked (.insert job))⟩ := by
  apply Step.run (p := .inside (.insert job)) hst
  exact ⟨job, c, hjob, hfree, rfl, rfl⟩

/-- A section whose signal finds nobody asleep. -/
theorem step_signal {n : ℕ} {s : PoolState n} {t : Thread n} {l : Inside n t}
    {d : Data} {c : Cond} {p : Place (Outside n t) (Inside n t)}
    (hst : s.status t = .holding l) (howner : s.owner = some t)
    (hin : inside n t l s.data = some ⟨d, [.signal c], .unlock p⟩)
    (hnone : ∀ u, ¬ (s.status u).AsleepOn c) :
    Step (program n) s ⟨d, none, Function.update s.status t p.status⟩ := by
  have hstep := Step.leave (P := program n) hst howner hin
    (.cons (.nobody hnone) .nil)
  exact hstep

/-- A connection is accepted and dispatched to the worker. -/
theorem exists_busy : ∃ s : PoolState oneWorker.numThreads,
    ServerState oneWorker s ∧
      s.status (.worker ⟨0, by decide⟩) = .running (.handle 1) ∧
      s.data.activeJobs = 1 ∧ s.data.accepted.length = 1 := by
  have hrun : ServerState oneWorker (start oneWorker) :=
    Relation.ReflTransGen.refl
  have h₁ := hrun.tail (Step.acquire (t := .master) rfl rfl)
  have h₂ := h₁.tail (Step.leave (t := .master) rfl rfl rfl .nil)
  have h₃ := h₂.tail (step_accept 1 ⟨4, 0, 0⟩ rfl (by decide) rfl)
  have h₄ := h₃.tail (Step.acquire (t := .master) rfl rfl)
  have h₅ := h₄.tail (step_signal (t := .master) rfl rfl rfl (by decide))
  have h₆ := h₅.tail (Step.acquire (t := .worker ⟨0, by decide⟩) rfl rfl)
  have h₇ := h₆.tail (step_signal (t := .worker ⟨0, by decide⟩) rfl rfl rfl
    (by decide))
  exact ⟨_, h₇, rfl, rfl, rfl⟩

/-! ## Admission -/

/-- The bound holds in every state, and there is room whenever the master
enqueues. -/
theorem bounded_admission (args : Args) (s : PoolState args.numThreads)
    (h : ServerState args s) :
    s.data.waitingQueue.maxSize = args.queueSize ∧
    s.data.waitingQueue.currSize + s.data.activeJobs ≤
      s.data.waitingQueue.maxSize ∧
    0 ≤ s.data.activeJobs ∧ s.data.activeJobs ≤ args.numThreads ∧
    s.data.activeJobs = (activeWorkers (workers s)).card ∧
    ∀ job, s.status .master = .holding (.insert job) →
      s.data.waitingQueue.currSize + s.data.activeJobs <
        s.data.waitingQueue.maxSize := by
  obtain ⟨l, hinv⟩ := h.inv
  have hmax : s.data.waitingQueue.maxSize = args.queueSize :=
    hinv.admission.maxSize_eq
  have hactive : s.data.activeJobs = (activeWorkers (workers s)).card :=
    hinv.admission.active_eq
  have hbound := hinv.admission.bound
  change s.data.waitingQueue.currSize + s.data.activeJobs + _ ≤ _ at hbound
  have hcard := (activeWorkers (workers s)).card_le_univ
  rw [Fintype.card_fin] at hcard
  refine ⟨hmax, ?_, hinv.active_nonneg, by omega, hactive, ?_⟩
  · rw [hmax]
    split at hbound <;> omega
  · intro job hjob
    have hplace : s.config.place .master = .inside (.insert job) := by
      simp only [State.config, hjob, Status.place]
    simp only [hplace, MasterPlace.admitted, if_true] at hbound
    omega

theorem bounded_admission_busy : ∃ s : PoolState oneWorker.numThreads,
    s.data.activeJobs = 1 ∧
      s.data.waitingQueue.currSize + s.data.activeJobs ≤
        s.data.waitingQueue.maxSize := by
  obtain ⟨s, hs, -, hactive, -⟩ := exists_busy
  exact ⟨s, hactive, (bounded_admission oneWorker s hs).2.1⟩

/-! ## Delivery -/

/-- Where a job can be. -/
inductive JobPlace (n : ℕ) where
  | master
  | queue
  | worker (i : Fin n)
  | finished

/-- The job with number `k` is at the given place; `l` are the queued jobs. -/
def At (s : PoolState args.numThreads) (l : List ℕ) (k : ℕ) :
    JobPlace args.numThreads → Prop
  | .master => ∃ job, (s.status .master).place = .inside (.insert job) ∧
      s.data.number job = k
  | .queue => ∃ job ∈ l, s.data.number job = k
  | .worker i => ∃ job, workers s i = .outside (.handle job) ∧
      s.data.number job = k
  | .finished => k ∈ s.data.served.map Prod.fst

section Places

variable {s : PoolState args.numThreads} {l : List ℕ} {k : ℕ}

theorem mem_held_iff {m : MasterPlace} {job : ℕ} :
    job ∈ m.held ↔ m = .inside (.insert job) := by
  cases m with
  | outside o => simp [MasterPlace.held]
  | inside i =>
      cases i with
      | test => simp [MasterPlace.held]
      | insert a =>
          simp only [MasterPlace.held, List.mem_singleton, Place.inside.injEq,
            MasterInside.insert.injEq]
          exact eq_comm

/-- A job that was not dequeued is not with a worker and not finished. -/
theorem Service.not_at (h : Service s.data (workers s))
    (hk : k ∉ s.data.dequeued) :
    (∀ i, ¬ At s l k (.worker i)) ∧ ¬ At s l k .finished := by
  refine ⟨?_, fun hserved => hk (h.served_dequeued k hserved)⟩
  rintro i ⟨job, hi, rfl⟩
  exact hk (h.handled i job hi).1

/-- Every job that was created is at exactly one place. -/
theorem existsUnique_place
    (horder : Order s.data (s.status .master).place l)
    (hservice : Service s.data (workers s)) (hk : k < s.data.accepted.length) :
    ∃! p, At s l k p := by
  have hmem : k ∈ s.data.dequeued ++
      (l ++ MasterPlace.held (s.status .master).place).map s.data.number := by
    rw [horder.order_eq]
    exact List.mem_range.mpr hk
  have hnodup := horder.nodup
  rw [List.map_append] at hmem hnodup
  obtain ⟨-, hrest, hdisjoint⟩ := List.nodup_append'.mp hnodup
  have hdisjoint' := List.disjoint_of_nodup_append hrest
  have hqueue : At s l k .queue → k ∈ l.map s.data.number :=
    fun ⟨job, hjob, hnum⟩ => List.mem_map.mpr ⟨job, hjob, hnum⟩
  have hmaster : At s l k .master →
      k ∈ (MasterPlace.held (s.status .master).place).map s.data.number :=
    fun ⟨job, hjob, hnum⟩ =>
      List.mem_map.mpr ⟨job, mem_held_iff.mpr hjob, hnum⟩
  rcases List.mem_append.mp hmem with hdeq | hnew
  · have hnotQueue : ¬ At s l k .queue := fun hat =>
      hdisjoint hdeq (List.mem_append_left _ (hqueue hat))
    have hnotMaster : ¬ At s l k .master := fun hat =>
      hdisjoint hdeq (List.mem_append_right _ (hmaster hat))
    rcases hservice.complete k hdeq with hdone | ⟨i, job, hi, hnum⟩
    · refine ⟨.finished, hdone, ?_⟩
      intro p hp
      cases p with
      | master => exact absurd hp hnotMaster
      | queue => exact absurd hp hnotQueue
      | worker j =>
          obtain ⟨a, hj, rfl⟩ := hp
          exact absurd hdone (hservice.handled j a hj).2
      | finished => rfl
    · refine ⟨.worker i, ⟨job, hi, hnum⟩, ?_⟩
      intro p hp
      cases p with
      | master => exact absurd hp hnotMaster
      | queue => exact absurd hp hnotQueue
      | worker j =>
          obtain ⟨a, hj, hnum'⟩ := hp
          rw [hservice.inj j i a job hj hi (hnum'.trans hnum.symm)]
      | finished => exact absurd (hnum ▸ hp) (hservice.handled i job hi).2
  · have hnotDeq : k ∉ s.data.dequeued := fun hdeq => hdisjoint hdeq hnew
    obtain ⟨hnotWorker, hnotFinished⟩ := hservice.not_at (l := l) hnotDeq
    rcases List.mem_append.mp hnew with hq | hm
    · obtain ⟨job, hjob, hnum⟩ := List.mem_map.mp hq
      refine ⟨.queue, ⟨job, hjob, hnum⟩, ?_⟩
      intro p hp
      cases p with
      | master => exact absurd (hmaster hp) fun hm => hdisjoint' hq hm
      | queue => rfl
      | worker j => exact absurd hp (hnotWorker j)
      | finished => exact absurd hp hnotFinished
    · obtain ⟨job, hjob, hnum⟩ := List.mem_map.mp hm
      refine ⟨.master, ⟨job, mem_held_iff.mp hjob, hnum⟩, ?_⟩
      intro p hp
      cases p with
      | master => rfl
      | queue => exact absurd hm fun hm => hdisjoint' (hqueue hp) hm
      | worker j => exact absurd hp (hnotWorker j)
      | finished => exact absurd hp hnotFinished

end Places

/-- Every accepted connection is at one place, jobs are dequeued in the order of
acceptance, and the linked queue is the sequence in between. -/
theorem delivery_in_order (args : Args) (s : PoolState args.numThreads)
    (h : ServerState args s) :
    ∃ l, Holds s.data.heap s.data.waitingQueue l ∧
      (s.data.waitingQueue.tail = 0 ↔ s.data.waitingQueue.head = 0) ∧
      (s.data.waitingQueue.head = 0 ↔ s.data.waitingQueue.currSize = 0) ∧
      (∀ k < s.data.accepted.length, ∃! p, At s l k p) ∧
      s.data.dequeued ++ (l ++ MasterPlace.held (s.status .master).place).map
        s.data.number = List.range s.data.accepted.length ∧
      (s.data.served.map Prod.fst).Nodup ∧
      (∀ x ∈ s.data.served, s.data.accepted[x.1]? = some x.2) ∧
      (∀ i job, workers s i = .outside (.handle job) →
        ∃ cell, s.data.heap job = some cell ∧
          s.data.accepted[s.data.number job]? = some cell.connection) ∧
      ∀ i, s.status (.worker i) = .holding .take →
        isEmpty s.data.waitingQueue = false →
        ∃ heap queue job, dequeue s.data.heap s.data.waitingQueue =
          some (heap, queue, job) ∧ job ≠ 0 ∧ l.head? = some job := by
  obtain ⟨l, hadmission, horder, hservice⟩ := h.inv
  have hholds : Holds s.data.heap s.data.waitingQueue l := horder.holds
  have hfifo := hholds.fifo
  refine ⟨l, hholds, ?_, ?_, fun k hk => existsUnique_place horder hservice hk,
    horder.order_eq, hservice.served_nodup, hservice.served_connection, ?_, ?_⟩
  · rw [hfifo.tail_eq_null_iff, hfifo.head_eq_null_iff]
  · rw [hfifo.head_eq_null_iff, hholds.currSize_eq_zero_iff]
  · intro i job hi
    obtain ⟨cell, hcell⟩ :=
      Option.isSome_iff_exists.mp (hservice.isSome i job hi)
    have hcell' : s.data.heap job = some cell := hcell
    exact ⟨cell, hcell', horder.connection job _ (by rw [hcell]; rfl)⟩
  · intro i _ hempty
    cases l with
    | nil =>
        rw [hholds.isEmpty_iff.mpr rfl] at hempty
        cases hempty
    | cons job l =>
        have htotal := (PoolInv.mk hadmission horder hservice).total_le
        have hactive := (PoolInv.mk hadmission horder hservice).active_nonneg
        change s.data.waitingQueue.currSize + s.data.activeJobs + _ ≤ _ at htotal
        change 0 ≤ s.data.activeJobs at hactive
        obtain ⟨heap, queue, hrun, -, -, -, -, hjob⟩ := hholds.dequeue (by
          split at htotal <;> omega)
        exact ⟨heap, queue, job, hrun, hjob, rfl⟩

theorem delivery_in_order_busy : ∃ s : PoolState oneWorker.numThreads,
    s.status (.worker ⟨0, by decide⟩) = .running (.handle 1) ∧
      ∃ l, Holds s.data.heap s.data.waitingQueue l ∧ ∃! p, At s l 0 p := by
  obtain ⟨s, hs, hworker, -, hlength⟩ := exists_busy
  obtain ⟨l, hholds, -, -, hplaces, -⟩ := delivery_in_order oneWorker s hs
  exact ⟨s, hworker, l, hholds, hplaces 0 (by omega)⟩

end OsCoursework.Server
