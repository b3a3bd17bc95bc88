import OsCoursework.Server.Delivery

/-!
# No lost wakeups

Signals are sent once per event and reach one sleeper, who may be overtaken by a
thread that was about to lock anyway.  `Wakeful` is the balance that makes up for
it: as long as some worker sleeps, every queued job has a worker of its own that
is awake and on its way to the queue; and the master sleeps only while there is
no room.
-/

namespace OsCoursework.Server

open OsCoursework.Monitor

variable {args : Args} {s s' : PoolState args.numThreads}

/-! ## Sleepers -/

abbrev Statuses (n : ℕ) :=
  (t : Thread n) → Status Cond (Outside n t) (Inside n t)

/-- What the bound of the master counts: queued and active jobs. -/
def Data.load (d : Data) : ℤ :=
  d.waitingQueue.currSize + d.activeJobs

/-- Where threads may sleep, and on which condition. -/
def SleepsAt {n : ℕ} : (t : Thread n) → Cond → Inside n t → Prop
  | .master, c, l => c = .queueNotFull ∧ l = .test
  | .worker _, c, l => c = .queueNotEmpty ∧ l = .take

theorem ServerState.sleepsAt (h : ServerState args s) :
    ∀ t c l, s.status t = .asleep c l → SleepsAt t c l := by
  refine Reachable.asleep h ?_ ?_
  · intro t c l hst
    cases t <;> cases hst
  · intro t l d out c k hin hexit
    cases t with
    | master =>
        cases l with
        | test =>
            obtain ⟨total, -, hout⟩ := Option.bind_eq_some_iff.mp hin
            split at hout <;> cases hout <;> cases hexit
            exact ⟨rfl, rfl⟩
        | insert job =>
            obtain ⟨r, -, hout⟩ := Option.bind_eq_some_iff.mp hin
            cases hout
            cases hexit
    | worker i =>
        cases l with
        | take =>
            change take d = some out at hin
            rw [take] at hin
            split at hin
            · cases hin
              cases hexit
              exact ⟨rfl, rfl⟩
            · obtain ⟨r, -, hin⟩ := Option.bind_eq_some_iff.mp hin
              obtain ⟨a, -, hout⟩ := Option.bind_eq_some_iff.mp hin
              cases hout
              cases hexit
        | finish =>
            obtain ⟨r, -, hout⟩ := Option.bind_eq_some_iff.mp hin
            cases hout
            cases hexit

/-- The workers in the wait set of `queue_not_empty`. -/
def sleepingWorkers (s : PoolState args.numThreads) :
    Finset (Fin args.numThreads) :=
  Finset.univ.filter fun i => (s.status (.worker i)).AsleepOn .queueNotEmpty

/-- The workers outside that wait set that handle no request. -/
def readyWorkers (s : PoolState args.numThreads) :
    Finset (Fin args.numThreads) :=
  Finset.univ.filter fun i =>
    ¬ (s.status (.worker i)).AsleepOn .queueNotEmpty ∧
      ¬ (workers s i).active = true

/-- Only workers wait for `queue_not_empty`. -/
theorem ServerState.card_sleepers (h : ServerState args s) :
    (sleepers .queueNotEmpty s.status).card = (sleepingWorkers s).card := by
  refine (Finset.card_bij (fun i _ => .worker i) ?_ ?_ ?_).symm
  · intro i hi
    exact mem_sleepers.mpr (Finset.mem_filter.mp hi).2
  · intro i _ j _ heq
    exact Thread.worker.inj heq
  · intro t ht
    obtain ⟨l, hl⟩ := Status.asleepOn_iff.mp (mem_sleepers.mp ht)
    cases t with
    | master => cases (h.sleepsAt _ _ _ hl).1
    | worker i =>
        exact ⟨i, Finset.mem_filter.mpr ⟨Finset.mem_univ i,
          mem_sleepers.mp ht⟩, rfl⟩

/-- A sleeping worker is not active. -/
theorem ServerState.not_active (h : ServerState args s) {i : Fin args.numThreads}
    (hi : (s.status (.worker i)).AsleepOn .queueNotEmpty) :
    (workers s i).active = false := by
  obtain ⟨l, hl⟩ := Status.asleepOn_iff.mp hi
  obtain ⟨-, rfl⟩ := h.sleepsAt _ _ _ hl
  simp only [workers, hl, Status.place, WorkerPlace.active]

/-- Every worker is asleep, active or ready. -/
theorem ServerState.card_workers (h : ServerState args s) :
    (sleepers .queueNotEmpty s.status).card +
      (activeWorkers (workers s)).card + (readyWorkers s).card =
      args.numThreads := by
  have hsplit := Finset.card_filter_add_card_filter_not (s := Finset.univ)
    fun i => (s.status (.worker i)).AsleepOn .queueNotEmpty
  have hrest := Finset.card_filter_add_card_filter_not
    (s := Finset.univ.filter fun i =>
      ¬ (s.status (.worker i)).AsleepOn .queueNotEmpty)
    fun i => (workers s i).active = true
  have hactive : (Finset.univ.filter fun i =>
      ¬ (s.status (.worker i)).AsleepOn .queueNotEmpty).filter
        (fun i => (workers s i).active = true) = activeWorkers (workers s) := by
    ext i
    simp only [activeWorkers, Finset.mem_filter, Finset.mem_univ, true_and,
      and_iff_right_iff_imp]
    intro hi hasleep
    rw [h.not_active hasleep] at hi
    cases hi
  have hready : (Finset.univ.filter fun i =>
      ¬ (s.status (.worker i)).AsleepOn .queueNotEmpty).filter
        (fun i => ¬ (workers s i).active = true) = readyWorkers s := by
    rw [Finset.filter_filter]
    rfl
  rw [hactive, hready] at hrest
  rw [Finset.card_univ, Fintype.card_fin] at hsplit
  rw [h.card_sleepers, sleepingWorkers]
  omega

/-- A signal to `queue_not_full` reaches the master, who alone waits for it. -/
theorem ServerState.master_awake (h : ServerState args s)
    {f : Statuses args.numThreads}
    (hwoken : WokenAll [.signal .queueNotFull] s.status f) :
    ¬ (f .master).AsleepOn .queueNotFull := by
  cases hwoken with
  | cons hw hnil =>
      cases hnil
      cases hw with
      | @signal c f t ht =>
          obtain ⟨l, hl⟩ := Status.asleepOn_iff.mp ht
          cases t with
          | master => simp [Status.wakeOn_asleepOn_iff]
          | worker i => cases (h.sleepsAt _ _ _ hl).1
      | nobody hnone => exact hnone .master

/-! ## The balance -/

/-- No wakeup is lost. -/
structure Wakeful (args : Args) (d : Data) (f : Statuses args.numThreads) :
    Prop where
  workers : 0 < (sleepers .queueNotEmpty f).card →
    d.load + (sleepers .queueNotEmpty f).card ≤ args.numThreads
  master : (f .master).AsleepOn .queueNotFull → args.queueSize ≤ d.load

theorem wakeful_start (args : Args) :
    Wakeful args (start args).data (start args).status := by
  refine ⟨?_, False.elim⟩
  intro hpos
  obtain ⟨t, ht⟩ := Finset.card_pos.mp hpos
  cases t <;> exact absurd (mem_sleepers.mp ht) id

section Steps

variable {d d' : Data} {f g : Statuses args.numThreads}

/-- A thread moves without going to sleep, and the load stays. -/
theorem Wakeful.move (h : Wakeful args d f) {t : Thread args.numThreads}
    {st : Status Cond (Outside args.numThreads t) (Inside args.numThreads t)}
    (hload : d'.load = d.load) (hawake : ∀ c, ¬ st.AsleepOn c) :
    Wakeful args d' (Function.update f t st) := by
  have hcount := card_sleepers_update .queueNotEmpty f t st
  rw [if_neg (hawake _)] at hcount
  refine ⟨?_, ?_⟩
  · intro hpos
    have hold := h.workers (by omega)
    omega
  · intro hmaster
    rw [hload]
    by_cases ht : t = .master
    · subst ht
      rw [Function.update_self] at hmaster
      exact absurd hmaster (hawake _)
    · rw [Function.update_of_ne (Ne.symm ht)] at hmaster
      exact h.master hmaster

/-- The master goes to sleep when there is no room. -/
theorem Wakeful.wait_master (h : Wakeful args d f) {l : MasterInside}
    (hst : f .master = .holding l) (hfull : args.queueSize ≤ d.load)
    (k : MasterInside) :
    Wakeful args d (Function.update f .master (.asleep .queueNotFull k)) := by
  have hother : ¬ (Status.asleep .queueNotFull k :
      Status Cond MasterOutside MasterInside).AsleepOn .queueNotEmpty := by
    intro hasleep
    cases hasleep
  have hcount := WokenAll.nil.card_sleepers_awake hst hother
  refine ⟨?_, fun _ => hfull⟩
  rw [hcount]
  exact h.workers

/-- Enqueuing a job: one sleeper fewer makes up for one job more. -/
theorem Wakeful.signal_worker (h : Wakeful args d f) {l : MasterInside}
    (hst : f .master = .holding l)
    (hwoken : WokenAll [.signal .queueNotEmpty] f g)
    (hload : d'.load = d.load + 1) (p : MasterPlace) :
    Wakeful args d' (Function.update g .master p.status) := by
  have hcount := hwoken.card_sleepers_awake hst (p.not_asleepOn .queueNotEmpty)
  simp only [List.foldl_cons, List.foldl_nil, Wake.remaining, if_true] at hcount
  refine ⟨?_, ?_⟩
  · intro hpos
    have hold := h.workers (by omega)
    omega
  · intro hmaster
    rw [Function.update_self] at hmaster
    exact absurd hmaster (p.not_asleepOn _)

/-- A worker goes to sleep when there is more than its own share of workers. -/
theorem Wakeful.wait_worker (h : Wakeful args d f) {i : Fin args.numThreads}
    {l : WorkerInside} (hst : f (.worker i) = .holding l)
    (hshare : d.load + (sleepers .queueNotEmpty f).card < args.numThreads)
    (k : WorkerInside) :
    Wakeful args d (Function.update f (.worker i) (.asleep .queueNotEmpty k)) := by
  have hcount := WokenAll.nil.card_sleepers_asleep hst
    (Status.asleepOn_self .queueNotEmpty k)
  rw [List.foldl_nil] at hcount
  refine ⟨fun _ => by omega, h.master⟩

/-- A worker signals the master while the load does not grow. -/
theorem Wakeful.signal_master (h : Wakeful args d f) {i : Fin args.numThreads}
    {l : WorkerInside} (hst : f (.worker i) = .holding l)
    (hwoken : WokenAll [.signal .queueNotFull] f g)
    (hmaster : ¬ (g .master).AsleepOn .queueNotFull)
    (hload : d'.load ≤ d.load) (p : WorkerPlace) :
    Wakeful args d' (Function.update g (.worker i) p.status) := by
  have hcount := hwoken.card_sleepers_awake hst (p.not_asleepOn .queueNotEmpty)
  simp only [List.foldl_cons, List.foldl_nil, Wake.remaining,
    reduceCtorEq, if_false] at hcount
  refine ⟨?_, fun hasleep => absurd hasleep hmaster⟩
  intro hpos
  have hold := h.workers (by omega)
  omega

end Steps

/-- The queue is empty and worker `i` is about to find out: it is not needed. -/
theorem ServerState.share_of_empty (hs : ServerState args s)
    {i : Fin args.numThreads} (hst : s.status (.worker i) = .holding .take)
    (hempty : s.data.waitingQueue.currSize = 0) :
    s.data.load + (sleepers .queueNotEmpty s.status).card <
      args.numThreads := by
  obtain ⟨l, hinv⟩ := hs.inv
  have hactive : s.data.activeJobs = (activeWorkers (workers s)).card :=
    hinv.admission.active_eq
  have hready : i ∈ readyWorkers s := by
    refine Finset.mem_filter.mpr ⟨Finset.mem_univ i, ?_, ?_⟩
    · rw [hst]
      exact id
    · simp [workers, hst, Status.place, WorkerPlace.active]
  have hpos := Finset.card_pos.mpr ⟨i, hready⟩
  have hall := hs.card_workers
  rw [Data.load, hempty, hactive]
  omega

theorem Wakeful.step (h : Wakeful args s.data s.status) (hs : ServerState args s)
    (hstep : Step (program args.numThreads) s s') :
    Wakeful args s'.data s'.status := by
  obtain ⟨k, hinv⟩ := hs.inv
  cases hstep with
  | @run t o d p hst hout =>
      refine h.move ?_ (p.not_asleepOn ·)
      cases t with
      | master =>
          cases o with
          | accept =>
              obtain ⟨job, c, -, -, rfl, -⟩ := hout
              rfl
      | worker i =>
          cases o with
          | handle job =>
              obtain ⟨cell, -, rfl⟩ := Option.map_eq_some_iff.mp hout.1
              rfl
  | acquire hst _ => exact h.move rfl fun _ => id
  | wakeup hst => exact h.move rfl fun _ => id
  | @leave t l out f hst _ hin hwoken =>
      have hplace : s.config.place t = .inside l := by
        simp only [State.config, hst, Status.place]
      cases t with
      | master =>
          rw [hplace] at hinv
          cases l with
          | test =>
              rcases hinv.test with ⟨hfull, hrun⟩ | ⟨hrun, -⟩
              · cases hrun.symm.trans hin
                cases hwoken
                exact h.wait_master hst hfull .test
              · cases hrun.symm.trans hin
                cases hwoken
                exact h.move rfl fun _ => id
          | insert job =>
              obtain ⟨d', hrun, -, hsize, hactive⟩ := hinv.insert
              cases hrun.symm.trans hin
              refine h.signal_worker hst hwoken ?_ (.inside .test)
              rw [Data.load, hsize, hactive, Data.load]
              exact Int.add_right_comm _ _ _
      | worker i =>
          cases l with
          | take =>
              cases k with
              | nil =>
                  cases hinv.take_nil.symm.trans hin
                  cases hwoken
                  exact h.wait_worker hst
                    (hs.share_of_empty hst hinv.order.holds.currSize_eq) .take
              | cons job k =>
                  obtain ⟨d', hrun, -, hsize, hactive, -⟩ :=
                    hinv.take_cons hplace
                  cases hrun.symm.trans hin
                  refine h.signal_master hst hwoken (hs.master_awake hwoken) ?_
                    (.outside (.handle job))
                  rw [Data.load, hsize, hactive, Data.load]
                  change s.data.waitingQueue.currSize - 1 +
                    (s.data.activeJobs + 1) ≤ _
                  omega
          | finish =>
              obtain ⟨d', hrun, -, hqueue, hactive⟩ := hinv.finish hplace
              cases hrun.symm.trans hin
              refine h.signal_master hst hwoken (hs.master_awake hwoken) ?_
                (.inside .take)
              rw [Data.load, hqueue, hactive, Data.load]
              change s.data.waitingQueue.currSize + (s.data.activeJobs - 1) ≤ _
              omega

/-- The balance holds in every state of the server. -/
theorem ServerState.wakeful (hs : ServerState args s) :
    Wakeful args s.data s.status := by
  induction hs with
  | refl => exact wakeful_start args
  | tail hrun hstep ih => exact ih.step hrun hstep

/-! ## Nobody is stuck -/

/-- The queued jobs are at most the ready workers, unless no worker sleeps. -/
theorem ServerState.currSize_le (hs : ServerState args s)
    (hasleep : ∃ i, (s.status (.worker i)).AsleepOn .queueNotEmpty) :
    s.data.waitingQueue.currSize ≤ (readyWorkers s).card := by
  obtain ⟨i, hi⟩ := hasleep
  obtain ⟨l, hinv⟩ := hs.inv
  have hactive : s.data.activeJobs = (activeWorkers (workers s)).card :=
    hinv.admission.active_eq
  have hmem : Thread.worker i ∈ sleepers .queueNotEmpty s.status :=
    mem_sleepers.mpr hi
  have hbalance := hs.wakeful.workers (Finset.card_pos.mpr ⟨_, hmem⟩)
  have hall := hs.card_workers
  rw [Data.load] at hbalance
  omega

/-- Not all threads sleep. -/
theorem ServerState.exists_awake (hs : ServerState args s) :
    ¬ ((s.status .master).AsleepOn .queueNotFull ∧
      ∀ i, (s.status (.worker i)).AsleepOn .queueNotEmpty) := by
  rintro ⟨hmaster, hworkers⟩
  obtain ⟨l, hinv⟩ := hs.inv
  have hfull := hs.wakeful.master hmaster
  have hpos := args.queueSize_pos
  have hcurr := hs.currSize_le ⟨⟨0, args.numThreads_pos⟩, hworkers _⟩
  have hready : readyWorkers s = ∅ :=
    Finset.filter_eq_empty_iff.mpr fun i _ hi => hi.1 (hworkers i)
  have hidle : activeWorkers (workers s) = ∅ := by
    refine Finset.filter_eq_empty_iff.mpr fun i _ hi => ?_
    rw [hs.not_active (hworkers i)] at hi
    cases hi
  have hactive : s.data.activeJobs = (activeWorkers (workers s)).card :=
    hinv.admission.active_eq
  rw [hready, Finset.card_empty] at hcurr
  rw [hidle, Finset.card_empty] at hactive
  rw [Data.load] at hfull
  omega

/-- A sleeping worker is not needed, the master sleeps only when there is no
room, and they never all sleep at once. -/
theorem no_lost_wakeup (args : Args) (s : PoolState args.numThreads)
    (hs : ServerState args s) :
    ((∃ i, (s.status (.worker i)).AsleepOn .queueNotEmpty) →
      s.data.waitingQueue.currSize ≤ (readyWorkers s).card) ∧
    ((s.status .master).AsleepOn .queueNotFull →
      s.data.waitingQueue.maxSize ≤
        s.data.waitingQueue.currSize + s.data.activeJobs) ∧
    ¬ ((s.status .master).AsleepOn .queueNotFull ∧
      ∀ i, (s.status (.worker i)).AsleepOn .queueNotEmpty) := by
  refine ⟨hs.currSize_le, ?_, hs.exists_awake⟩
  intro hmaster
  obtain ⟨l, hinv⟩ := hs.inv
  have hmax : s.data.waitingQueue.maxSize = args.queueSize :=
    hinv.admission.maxSize_eq
  rw [hmax]
  exact hs.wakeful.master hmaster

/-- The worker finds the queue empty and goes to sleep. -/
theorem exists_sleeping : ∃ s : PoolState oneWorker.numThreads,
    ServerState oneWorker s ∧
      (s.status (.worker ⟨0, by decide⟩)).AsleepOn .queueNotEmpty := by
  have hrun : ServerState oneWorker (start oneWorker) :=
    Relation.ReflTransGen.refl
  have h₁ := hrun.tail (Step.acquire (t := .worker ⟨0, by decide⟩) rfl rfl)
  have h₂ := h₁.tail (Step.leave (t := .worker ⟨0, by decide⟩) rfl rfl rfl .nil)
  exact ⟨_, h₂, rfl⟩

theorem no_lost_wakeup_sleeping : ∃ s : PoolState oneWorker.numThreads,
    (s.status (.worker ⟨0, by decide⟩)).AsleepOn .queueNotEmpty ∧
      s.data.waitingQueue.currSize ≤ (readyWorkers s).card ∧
      ¬ (s.status .master).AsleepOn .queueNotFull := by
  obtain ⟨s, hs, hasleep⟩ := exists_sleeping
  obtain ⟨hqueue, -, hawake⟩ := no_lost_wakeup oneWorker s hs
  refine ⟨s, hasleep, hqueue ⟨_, hasleep⟩, fun hmaster => hawake ⟨hmaster, ?_⟩⟩
  intro i
  have hi : i = ⟨0, by decide⟩ := Subsingleton.elim (α := Fin 1) _ _
  rwa [hi]

/-- The section of the thread that holds the mutex is defined. -/
theorem ServerState.inside_isSome (hs : ServerState args s)
    {t : Thread args.numThreads} {l : Inside args.numThreads t}
    (hst : s.status t = .holding l) :
    ∃ out, inside args.numThreads t l s.data = some out := by
  obtain ⟨k, hinv⟩ := hs.inv
  have hplace : s.config.place t = .inside l := by
    simp only [State.config, hst, Status.place]
  cases t with
  | master =>
      rw [hplace] at hinv
      cases l with
      | test =>
          rcases hinv.test with ⟨-, hrun⟩ | ⟨hrun, -⟩
          · exact ⟨_, hrun⟩
          · exact ⟨_, hrun⟩
      | insert job =>
          obtain ⟨d', hrun, -⟩ := hinv.insert
          exact ⟨_, hrun⟩
  | worker i =>
      cases l with
      | take =>
          cases k with
          | nil => exact ⟨_, hinv.take_nil⟩
          | cons job k =>
              obtain ⟨d', hrun, -⟩ := hinv.take_cons hplace
              exact ⟨_, hrun⟩
      | finish =>
          obtain ⟨d', hrun, -⟩ := hinv.finish hplace
          exact ⟨_, hrun⟩

/-- In every state some thread can go on: outside the mutex, by taking the mutex
that is free, or by running the section it holds the mutex for. -/
theorem ServerState.progress (hs : ServerState args s) :
    ∃ t, (∃ o, s.status t = .running o) ∨
      (∃ l, s.status t = .blocked l ∧ s.owner = none) ∨
      ∃ l out, s.status t = .holding l ∧ s.owner = some t ∧
        inside args.numThreads t l s.data = some out := by
  have hexclusive : Exclusive s := Reachable.exclusive hs (by
    intro t
    cases t <;> simp [start])
  cases howner : s.owner with
  | some t =>
      obtain ⟨l, hl⟩ := (hexclusive t).mp howner
      obtain ⟨out, hout⟩ := hs.inside_isSome hl
      exact ⟨t, Or.inr (Or.inr ⟨l, out, hl, rfl, hout⟩)⟩
  | none =>
      obtain ⟨t, ht⟩ : ∃ t, ∀ c l, s.status t ≠ .asleep c l := by
        by_contra hall
        push Not at hall
        refine hs.exists_awake ⟨?_, fun i => ?_⟩
        · obtain ⟨c, l, hl⟩ := hall .master
          obtain ⟨rfl, -⟩ := hs.sleepsAt _ _ _ hl
          exact Status.asleepOn_iff.mpr ⟨l, hl⟩
        · obtain ⟨c, l, hl⟩ := hall (.worker i)
          obtain ⟨rfl, -⟩ := hs.sleepsAt _ _ _ hl
          exact Status.asleepOn_iff.mpr ⟨l, hl⟩
      refine ⟨t, ?_⟩
      cases hst : s.status t with
      | running o => exact Or.inl ⟨o, rfl⟩
      | blocked l => exact Or.inr (Or.inl ⟨l, rfl, rfl⟩)
      | holding l =>
          have hsome := (hexclusive t).mpr ⟨l, hst⟩
          rw [howner] at hsome
          cases hsome
      | asleep c l => exact absurd hst (ht c l)

end OsCoursework.Server
