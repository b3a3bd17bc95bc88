import OsCoursework.Server.Pool

/-!
# The invariant of the thread pool

Three facts about the data and the places of the threads, each preserved by every
action.  `Admission` counts: what is queued, what is being handled and the
connection the master is about to accept fit the queue size.  `Order` says that
the jobs, read off in the order dequeued, queued and held by the master, are
numbered as the connections were accepted.  `Service` says that each dequeued job
is with one worker or has been served.
-/

namespace OsCoursework.Server

open OsCoursework.Monitor

abbrev MasterPlace := Place MasterOutside MasterInside

abbrev WorkerPlace := Place WorkerOutside WorkerInside

variable {n : ℕ} {args : Args} {d : Data} {m : MasterPlace}
  {ws : Fin n → WorkerPlace} {l : List ℕ} {i : Fin n} {job : ℕ}

/-! ## Places -/

/-- The worker is between its `dequeue` and its `active_jobs--`. -/
def WorkerPlace.active : WorkerPlace → Bool
  | .outside (.handle _) => true
  | .inside .finish => true
  | .inside .take => false

/-- The master is between its test and its `enqueue`. -/
def MasterPlace.admitted : MasterPlace → Bool
  | .outside .accept => true
  | .inside (.insert _) => true
  | .inside .test => false

/-- The job the master has created and not yet enqueued. -/
def MasterPlace.held : MasterPlace → List ℕ
  | .inside (.insert job) => [job]
  | _ => []

def activeWorkers (ws : Fin n → WorkerPlace) : Finset (Fin n) :=
  Finset.univ.filter fun i => (ws i).active = true

/-- How the number of active workers changes when a worker moves. -/
theorem card_activeWorkers_update (ws : Fin n → WorkerPlace) (i : Fin n)
    (p : WorkerPlace) :
    (activeWorkers (Function.update ws i p)).card +
        (if (ws i).active = true then 1 else 0) =
      (activeWorkers ws).card + (if p.active = true then 1 else 0) :=
  card_filter_update (fun _ q => WorkerPlace.active q = true) ws i p

/-! ## Admission -/

/-- Everything admitted fits the queue size. -/
structure Admission (args : Args) (d : Data) (m : MasterPlace)
    (ws : Fin n → WorkerPlace) : Prop where
  maxSize_eq : d.waitingQueue.maxSize = args.queueSize
  active_eq : d.activeJobs = (activeWorkers ws).card
  bound : d.waitingQueue.currSize + d.activeJobs +
    (if m.admitted then 1 else 0) ≤ args.queueSize

/-! ## Order -/

/-- Jobs pass through the queue in the order of their connections. -/
structure Order (d : Data) (m : MasterPlace) (l : List ℕ) : Prop where
  holds : Holds d.heap d.waitingQueue l
  order_eq : d.dequeued ++ (l ++ m.held).map d.number =
    List.range d.accepted.length
  held : ∀ job ∈ m.held, job ≠ 0 ∧ nextOf d.heap job = some 0
  connection : ∀ a c, (d.heap a).map Job.connection = some c →
    d.accepted[d.number a]? = some c

namespace Order

theorem nodup (h : Order d m l) :
    (d.dequeued ++ (l ++ m.held).map d.number).Nodup := by
  rw [h.order_eq]
  exact List.nodup_range

/-- Queued and held jobs are distinct cells. -/
theorem nodup_jobs (h : Order d m l) : (l ++ m.held).Nodup :=
  (List.Nodup.of_append_right h.nodup).of_map _

/-- A job that has been dequeued is neither queued nor held. -/
theorem not_mem (h : Order d m l) (hjob : d.number job ∈ d.dequeued) :
    job ∉ l ++ m.held := by
  intro hmem
  exact List.disjoint_of_nodup_append h.nodup hjob (List.mem_map_of_mem hmem)

theorem isSome_of_mem (h : Order d m l) {a : ℕ} (ha : a ∈ l ++ m.held) :
    (d.heap a).isSome := by
  have hnext : (nextOf d.heap a).isSome := by
    rcases List.mem_append.mp ha with ha | ha
    · exact h.holds.fifo.chained.next_isSome a ha
    · rw [(h.held a ha).2]
      rfl
  rwa [nextOf, Option.isSome_map] at hnext

/-- The currSize of a queue is not negative. -/
theorem currSize_nonneg (h : Order d m l) : 0 ≤ d.waitingQueue.currSize := by
  rw [h.holds.currSize_eq]
  exact Int.natCast_nonneg _

end Order

/-! ## Service -/

/-- Each dequeued job is with one worker or has been served. -/
structure Service (d : Data) (ws : Fin n → WorkerPlace) : Prop where
  isSome : ∀ i job, ws i = .outside (.handle job) → (d.heap job).isSome
  handled : ∀ i job, ws i = .outside (.handle job) →
    d.number job ∈ d.dequeued ∧ d.number job ∉ d.served.map Prod.fst
  inj : ∀ i j job job', ws i = .outside (.handle job) →
    ws j = .outside (.handle job') → d.number job = d.number job' → i = j
  served_nodup : (d.served.map Prod.fst).Nodup
  served_dequeued : ∀ k ∈ d.served.map Prod.fst, k ∈ d.dequeued
  served_connection : ∀ x ∈ d.served, d.accepted[x.1]? = some x.2
  complete : ∀ k ∈ d.dequeued, k ∈ d.served.map Prod.fst ∨
    ∃ i job, ws i = .outside (.handle job) ∧ d.number job = k

/-- Moving a worker that handles nothing before or after. -/
theorem Service.move (h : Service d ws) {p : WorkerPlace}
    (hbefore : ∀ job, ws i ≠ .outside (.handle job))
    (hafter : ∀ job, p ≠ .outside (.handle job)) :
    Service d (Function.update ws i p) := by
  have hiff (j : Fin n) (job : ℕ) :
      Function.update ws i p j = .outside (.handle job) ↔
        ws j = .outside (.handle job) := by
    by_cases hji : j = i
    · subst hji
      simp only [Function.update_self, hbefore, hafter]
    · rw [Function.update_of_ne hji]
  refine ⟨?_, ?_, ?_, h.served_nodup, h.served_dequeued, h.served_connection, ?_⟩
  · simpa only [hiff] using h.isSome
  · simpa only [hiff] using h.handled
  · simpa only [hiff] using h.inj
  · simpa only [hiff] using h.complete

/-- The invariant, with `l` the jobs in the queue. -/
structure PoolInv (args : Args) (d : Data) (m : MasterPlace)
    (ws : Fin n → WorkerPlace) (l : List ℕ) : Prop where
  admission : Admission args d m ws
  order : Order d m l
  service : Service d ws

theorem PoolInv.active_nonneg (h : PoolInv args d m ws l) : 0 ≤ d.activeJobs := by
  rw [h.admission.active_eq]
  exact Int.natCast_nonneg _

/-- Everything the program adds up stays in the range of `int`. -/
theorem PoolInv.total_le (h : PoolInv args d m ws l) :
    d.waitingQueue.currSize + d.activeJobs + (if m.admitted then 1 else 0) ≤
      2147483647 :=
  h.admission.bound.trans args.queueSize_le

theorem poolInv_initial (args : Args) :
    PoolInv args (initialData args) (.inside .test)
      (fun _ : Fin args.numThreads => .inside .take) [] := by
  refine ⟨⟨rfl, ?_, ?_⟩, ⟨holds_createQueue _ _, rfl, ?_, ?_⟩,
    ⟨?_, ?_, ?_, List.nodup_nil, ?_, ?_, ?_⟩⟩
  · simp [activeWorkers, WorkerPlace.active, initialData]
  · have hpos := args.queueSize_pos
    simp only [initialData, createQueue, MasterPlace.admitted]
    omega
  all_goals simp [initialData, MasterPlace.held]

/-! ## The master -/

theorem PoolInv.test (h : PoolInv args d (.inside .test) ws l) :
    (args.queueSize ≤ d.waitingQueue.currSize + d.activeJobs ∧
      test d = some ⟨d, [], .wait .queueNotFull .test⟩) ∨
    (test d = some ⟨d, [], .unlock (.outside .accept)⟩ ∧
      PoolInv args d (.outside .accept) ws l) := by
  have hactive := h.active_nonneg
  have hcurr := h.order.currSize_nonneg
  have htotal := h.total_le
  have hint : int (d.waitingQueue.currSize + d.activeJobs) =
      some (d.waitingQueue.currSize + d.activeJobs) :=
    int_eq (by omega) (by
      simp only [MasterPlace.admitted] at htotal
      omega)
  by_cases hfull : args.queueSize ≤ d.waitingQueue.currSize + d.activeJobs
  · refine Or.inl ⟨hfull, ?_⟩
    simp only [Server.test, hint, h.admission.maxSize_eq, if_pos hfull,
      Option.bind_eq_bind, Option.bind_some]
  · refine Or.inr ⟨?_, ⟨h.admission.maxSize_eq, h.admission.active_eq, ?_⟩,
      ⟨h.order.holds, h.order.order_eq, by simp [MasterPlace.held],
        h.order.connection⟩, h.service⟩
    · simp only [Server.test, hint, h.admission.maxSize_eq, if_neg hfull,
        Option.bind_eq_bind, Option.bind_some]
    · simp only [MasterPlace.admitted, if_true]
      omega

section Accept

variable {c : Connection}

theorem accept_of_ne {a : ℕ} (hne : a ≠ job) :
    (accept d job c).heap a = d.heap a ∧
      (accept d job c).number a = d.number a :=
  ⟨Function.update_of_ne hne _ _, Function.update_of_ne hne _ _⟩

variable (hfree : d.heap job = none)

include hfree

/-- Allocated cells keep their contents and their numbers. -/
theorem accept_of_isSome {a : ℕ} (ha : (d.heap a).isSome) :
    (accept d job c).heap a = d.heap a ∧
      (accept d job c).number a = d.number a := by
  apply accept_of_ne
  rintro rfl
  rw [hfree] at ha
  cases ha

theorem Order.accept (h : Order d (.outside .accept) l) (hjob : job ≠ 0) :
    Order (accept d job c) (.inside (.insert job)) l := by
  have hkeep {a : ℕ} (ha : a ∈ l) :=
    accept_of_isSome (c := c) hfree (h.isSome_of_mem (List.mem_append_left _ ha))
  have hheap : (Server.accept d job c).heap job =
      some ⟨c.fd, c.arrivalTime, 0⟩ := Function.update_self _ _ _
  have hnumber : (Server.accept d job c).number job = d.accepted.length :=
    Function.update_self _ _ _
  refine ⟨h.holds.congr fun a ha => (hkeep ha).1, ?_, ?_, ?_⟩
  · have hmap : l.map (Server.accept d job c).number = l.map d.number :=
      List.map_congr_left fun a ha => (hkeep ha).2
    have horder := h.order_eq
    simp only [MasterPlace.held, List.append_nil] at horder
    simp only [MasterPlace.held, List.map_append, hmap, List.map_singleton,
      hnumber, ← List.append_assoc]
    change d.dequeued ++ l.map d.number ++ _ =
      List.range (d.accepted ++ [c]).length
    rw [horder, List.length_append, List.length_singleton, List.range_succ]
  · intro a ha
    simp only [MasterPlace.held, List.mem_singleton] at ha
    subst ha
    exact ⟨hjob, by rw [nextOf, hheap]; rfl⟩
  · intro a x ha
    change (d.accepted ++ [c])[_]? = _
    by_cases haj : a = job
    · subst haj
      rw [hheap] at ha
      cases ha
      rw [hnumber, List.getElem?_append_right (Nat.le_refl _), Nat.sub_self]
      rfl
    · obtain ⟨hcell, hnum⟩ := accept_of_ne (d := d) (c := c) haj
      rw [hcell] at ha
      have hold := h.connection a x ha
      rw [hnum, List.getElem?_append_left (List.getElem?_eq_some_iff.mp hold).1,
        hold]

theorem Service.accept (h : Service d ws) : Service (accept d job c) ws := by
  have hnumber {j : Fin n} {a : ℕ} (hj : ws j = .outside (.handle a)) :
      (Server.accept d job c).number a = d.number a :=
    (accept_of_isSome hfree (h.isSome j a hj)).2
  refine ⟨?_, ?_, ?_, h.served_nodup, h.served_dequeued, ?_, ?_⟩
  · intro j a hj
    have hsome := h.isSome j a hj
    rwa [(accept_of_isSome hfree hsome).1]
  · intro j a hj
    rw [hnumber hj]
    exact h.handled j a hj
  · intro j k a b hj hk heq
    rw [hnumber hj, hnumber hk] at heq
    exact h.inj j k a b hj hk heq
  · intro x hx
    have hold := h.served_connection x hx
    change (d.accepted ++ [c])[_]? = _
    rw [List.getElem?_append_left (List.getElem?_eq_some_iff.mp hold).1, hold]
  · intro k hk
    rcases h.complete k hk with hserved | ⟨j, a, hj, hnum⟩
    · exact Or.inl hserved
    · exact Or.inr ⟨j, a, hj, (hnumber hj).trans hnum⟩

theorem PoolInv.accept (h : PoolInv args d (.outside .accept) ws l)
    (hjob : job ≠ 0) :
    PoolInv args (accept d job c) (.inside (.insert job)) ws l :=
  ⟨⟨h.admission.maxSize_eq, h.admission.active_eq, h.admission.bound⟩,
    h.order.accept hfree hjob, h.service.accept hfree⟩

end Accept

/-- What depends on the cells' connections only survives a change of links. -/
theorem Service.keeps (h : Service d ws) {heap : Heap} {queue : Queue}
    (hkeeps : Keeps d.heap heap) :
    Service { d with heap := heap, waitingQueue := queue } ws := by
  refine ⟨?_, h.handled, h.inj, h.served_nodup, h.served_dequeued,
    h.served_connection, h.complete⟩
  intro j a hj
  exact hkeeps.isSome (h.isSome j a hj)

theorem PoolInv.insert (h : PoolInv args d (.inside (.insert job)) ws l) :
    ∃ d', insert d job =
        some ⟨d', [.signal .queueNotEmpty], .unlock (.inside .test)⟩ ∧
      PoolInv args d' (.inside .test) ws (l ++ [job]) ∧
      d'.waitingQueue.currSize = d.waitingQueue.currSize + 1 ∧
      d'.activeJobs = d.activeJobs := by
  have hactive := h.active_nonneg
  have htotal := h.total_le
  have hbound := h.admission.bound
  simp only [MasterPlace.admitted, if_true] at htotal hbound
  obtain ⟨hjob, hnext⟩ := h.order.held job (by simp [MasterPlace.held])
  have hnot : job ∉ l := by
    have hnodup := h.order.nodup_jobs
    intro hmem
    exact List.disjoint_of_nodup_append hnodup hmem (by simp [MasterPlace.held])
  obtain ⟨heap, queue, hrun, hholds, hmax, hkeeps⟩ :=
    h.order.holds.enqueue hjob hnot hnext (by omega)
  have hsize : queue.currSize = d.waitingQueue.currSize + 1 := by
    rw [hholds.currSize_eq, h.order.holds.currSize_eq, List.length_append]
    rfl
  refine ⟨{ d with heap := heap, waitingQueue := queue }, ?_,
    ⟨⟨hmax.trans h.admission.maxSize_eq, h.admission.active_eq, ?_⟩,
      ⟨hholds, ?_, by simp [MasterPlace.held], ?_⟩, h.service.keeps hkeeps⟩,
    hsize, rfl⟩
  · simp only [Server.insert, hrun, Option.bind_eq_bind, Option.bind_some]
  · change queue.currSize + d.activeJobs + _ ≤ _
    simp only [MasterPlace.admitted, Bool.false_eq_true, if_false]
    omega
  · simpa [MasterPlace.held] using h.order.order_eq
  · intro a x ha
    change (heap a).map Job.connection = some x at ha
    rw [hkeeps a] at ha
    exact h.order.connection a x ha

/-! ## The workers -/

theorem PoolInv.take_nil (h : PoolInv args d m ws []) :
    take d = some ⟨d, [], .wait .queueNotEmpty .take⟩ := by
  rw [take, if_pos (h.order.holds.isEmpty_iff.mpr rfl)]

/-- The first job leaves the queue. -/
theorem Order.take (h : Order d m (job :: l)) {d' : Data}
    (hholds : Holds d'.heap d'.waitingQueue l) (hkeeps : Keeps d.heap d'.heap)
    (hother : ∀ a, a ≠ job → d'.heap a = d.heap a)
    (hnumber : d'.number = d.number) (haccepted : d'.accepted = d.accepted)
    (hdequeued : d'.dequeued = d.dequeued ++ [d.number job]) : Order d' m l := by
  refine ⟨hholds, ?_, ?_, ?_⟩
  · rw [hdequeued, hnumber, haccepted, ← h.order_eq]
    simp
  · intro a ha
    have hne : a ≠ job := by
      rintro rfl
      exact List.disjoint_of_nodup_append h.nodup_jobs (by simp) ha
    obtain ⟨ha0, hnext⟩ := h.held a ha
    refine ⟨ha0, ?_⟩
    rw [nextOf, hother a hne]
    exact hnext
  · intro a x ha
    rw [hkeeps a] at ha
    rw [hnumber, haccepted]
    exact h.connection a x ha

/-- A worker that takes the first job of the queue. -/
theorem Service.take (h : Service d ws) (hi : ws i = .inside .take) {d' : Data}
    (hsome : (d'.heap job).isSome)
    (hkeep : ∀ a, (d.heap a).isSome → (d'.heap a).isSome)
    (hnew : d.number job ∉ d.dequeued) (hnumber : d'.number = d.number)
    (haccepted : d'.accepted = d.accepted)
    (hdequeued : d'.dequeued = d.dequeued ++ [d.number job])
    (hserved : d'.served = d.served) :
    Service d' (Function.update ws i (.outside (.handle job))) := by
  have hcases {j : Fin n} {a : ℕ}
      (hj : Function.update ws i (.outside (.handle job)) j =
        .outside (.handle a)) :
      (j = i ∧ a = job) ∨ (j ≠ i ∧ ws j = .outside (.handle a)) := by
    by_cases hji : j = i
    · subst hji
      rw [Function.update_self] at hj
      cases hj
      exact Or.inl ⟨rfl, rfl⟩
    · rw [Function.update_of_ne hji] at hj
      exact Or.inr ⟨hji, hj⟩
  refine ⟨?_, ?_, ?_, ?_, ?_, ?_, ?_⟩
  · intro j a hj
    rcases hcases hj with ⟨-, rfl⟩ | ⟨-, hj⟩
    · exact hsome
    · exact hkeep a (h.isSome j a hj)
  · intro j a hj
    rw [hnumber, hdequeued, hserved]
    rcases hcases hj with ⟨-, rfl⟩ | ⟨-, hj⟩
    · exact ⟨by simp, fun hmem => hnew (h.served_dequeued _ hmem)⟩
    · obtain ⟨hmem, hnot⟩ := h.handled j a hj
      exact ⟨List.mem_append_left _ hmem, hnot⟩
  · intro j k a b hj hk heq
    rw [hnumber] at heq
    rcases hcases hj with ⟨hji, rfl⟩ | ⟨-, hj'⟩
    · rcases hcases hk with ⟨hki, -⟩ | ⟨-, hk'⟩
      · rw [hji, hki]
      · exact absurd (heq ▸ (h.handled k b hk').1) hnew
    · rcases hcases hk with ⟨-, rfl⟩ | ⟨-, hk'⟩
      · exact absurd (heq ▸ (h.handled j a hj').1) hnew
      · exact h.inj j k a b hj' hk' heq
  · rw [hserved]
    exact h.served_nodup
  · intro k hk
    rw [hserved] at hk
    rw [hdequeued]
    exact List.mem_append_left _ (h.served_dequeued k hk)
  · rw [hserved, haccepted]
    exact h.served_connection
  · intro k hk
    rw [hdequeued, List.mem_append, List.mem_singleton] at hk
    rw [hserved, hnumber]
    rcases hk with hk | rfl
    · rcases h.complete k hk with hdone | ⟨j, a, hj, hnum⟩
      · exact Or.inl hdone
      · refine Or.inr ⟨j, a, ?_, hnum⟩
        rw [Function.update_of_ne, hj]
        rintro rfl
        rw [hi] at hj
        cases hj
    · exact Or.inr ⟨i, job, Function.update_self _ _ _, rfl⟩

theorem PoolInv.take_cons (h : PoolInv args d m ws (job :: l))
    (hi : ws i = .inside .take) :
    ∃ d', take d = some ⟨d', [.signal .queueNotFull],
        .unlock (.outside (.handle job))⟩ ∧
      PoolInv args d' m (Function.update ws i (.outside (.handle job))) l ∧
      d'.waitingQueue.currSize = d.waitingQueue.currSize - 1 ∧
      d'.activeJobs = d.activeJobs + 1 ∧ job ≠ 0 := by
  have hactive := h.active_nonneg
  have htotal := h.total_le
  have hbound := h.admission.bound
  have hlength : d.waitingQueue.currSize = (l.length : ℤ) + 1 := by
    rw [h.order.holds.currSize_eq]
    rfl
  have hpos := Int.natCast_nonneg l.length
  have hle : (0 : ℤ) ≤ if m.admitted then 1 else 0 := by
    split <;> omega
  obtain ⟨heap, queue, hrun, hholds, hmax, hkeeps, hother, hjob⟩ :=
    h.order.holds.dequeue (by omega)
  have hsize : queue.currSize = d.waitingQueue.currSize - 1 := by
    rw [hholds.currSize_eq, hlength]
    omega
  have hint : int (d.activeJobs + 1) = some (d.activeJobs + 1) :=
    int_eq (by omega) (by omega)
  have hempty : isEmpty d.waitingQueue = false := by
    rw [← Bool.not_eq_true, h.order.holds.isEmpty_iff]
    exact List.cons_ne_nil job l
  have hnew : d.number job ∉ d.dequeued := by
    intro hmem
    exact h.order.not_mem hmem (by simp)
  have hcount := card_activeWorkers_update ws i (.outside (.handle job))
  simp only [hi, WorkerPlace.active, Bool.false_eq_true, if_false,
    if_true] at hcount
  refine ⟨{ d with
      heap := heap
      waitingQueue := queue
      activeJobs := d.activeJobs + 1
      dequeued := d.dequeued ++ [d.number job] }, ?_,
    ⟨⟨hmax.trans h.admission.maxSize_eq, ?_, ?_⟩,
      h.order.take hholds hkeeps hother rfl rfl rfl, ?_⟩,
    hsize, rfl, hjob⟩
  · simp only [Server.take, hempty, hrun, hint, Option.bind_eq_bind,
      Option.bind_some, Bool.false_eq_true, if_false]
  · change d.activeJobs + 1 = _
    rw [h.admission.active_eq]
    omega
  · change queue.currSize + (d.activeJobs + 1) + _ ≤ _
    omega
  · exact h.service.take hi (hkeeps.isSome (h.order.isSome_of_mem (by simp)))
      (fun _ => hkeeps.isSome) hnew rfl rfl rfl rfl

section Handle

variable (hi : ws i = .outside (.handle job))

include hi

theorem Service.handle (h : Service d ws) {cell : Job}
    (hcell : d.heap job = some cell)
    (hconnection : d.accepted[d.number job]? = some cell.connection) :
    Service { d with
        heap := Function.update d.heap job none
        served := d.served ++ [(d.number job, cell.connection)] }
      (Function.update ws i (.inside .finish)) := by
  obtain ⟨hmem, hnot⟩ := h.handled i job hi
  have hcases {j : Fin n} {a : ℕ}
      (hj : Function.update ws i (.inside .finish) j = .outside (.handle a)) :
      ws j = .outside (.handle a) ∧ d.number a ≠ d.number job := by
    have hji : j ≠ i := by
      rintro rfl
      rw [Function.update_self] at hj
      cases hj
    rw [Function.update_of_ne hji] at hj
    exact ⟨hj, fun heq => hji (h.inj j i a job hj hi heq)⟩
  have hserved : (d.served ++ [(d.number job, cell.connection)]).map Prod.fst =
      d.served.map Prod.fst ++ [d.number job] := by
    simp
  refine ⟨?_, ?_, ?_, ?_, ?_, ?_, ?_⟩
  · intro j a hj
    obtain ⟨hj, hne⟩ := hcases hj
    have haj : a ≠ job := by
      rintro rfl
      exact hne rfl
    change (Function.update d.heap job none a).isSome
    rw [Function.update_of_ne haj]
    exact h.isSome j a hj
  · intro j a hj
    obtain ⟨hj, hne⟩ := hcases hj
    obtain ⟨hdeq, hserv⟩ := h.handled j a hj
    refine ⟨hdeq, ?_⟩
    rw [hserved, List.mem_append, List.mem_singleton, not_or]
    exact ⟨hserv, hne⟩
  · intro j k a b hj hk
    exact h.inj j k a b (hcases hj).1 (hcases hk).1
  · rw [hserved, List.nodup_append]
    refine ⟨h.served_nodup, List.nodup_singleton _, ?_⟩
    rintro x hx y hy rfl
    rw [List.mem_singleton] at hy
    exact hnot (hy ▸ hx)
  · intro k hk
    rw [hserved, List.mem_append, List.mem_singleton] at hk
    rcases hk with hk | rfl
    · exact h.served_dequeued k hk
    · exact hmem
  · intro x hx
    rcases List.mem_append.mp hx with hx | hx
    · exact h.served_connection x hx
    · rw [List.mem_singleton.mp hx]
      exact hconnection
  · intro k hk
    rw [hserved, List.mem_append, List.mem_singleton]
    rcases h.complete k hk with hdone | ⟨j, a, hj, hnum⟩
    · exact Or.inl (Or.inl hdone)
    · by_cases hji : j = i
      · subst hji
        rw [hi] at hj
        cases hj
        exact Or.inl (Or.inr hnum.symm)
      · exact Or.inr ⟨j, a, by rw [Function.update_of_ne hji, hj], hnum⟩

theorem PoolInv.handle (h : PoolInv args d m ws l) :
    ∃ d', handle d job = some d' ∧
      PoolInv args d' m (Function.update ws i (.inside .finish)) l ∧
      d'.waitingQueue = d.waitingQueue ∧ d'.activeJobs = d.activeJobs := by
  obtain ⟨cell, hcell⟩ :=
    Option.isSome_iff_exists.mp (h.service.isSome i job hi)
  have hconnection : d.accepted[d.number job]? = some cell.connection :=
    h.order.connection job _ (by rw [hcell]; rfl)
  have hnot := h.order.not_mem (h.service.handled i job hi).1
  have hother {a : ℕ} (ha : a ∈ l ++ m.held) :
      Function.update d.heap job none a = d.heap a := by
    refine Function.update_of_ne ?_ _ _
    rintro rfl
    exact hnot ha
  have hcount := card_activeWorkers_update ws i (.inside .finish)
  simp only [hi, WorkerPlace.active, if_true, Nat.add_right_cancel_iff] at hcount
  refine ⟨{ d with
      heap := Function.update d.heap job none
      served := d.served ++ [(d.number job, cell.connection)] }, ?_,
    ⟨⟨h.admission.maxSize_eq, ?_, h.admission.bound⟩, ⟨?_, h.order.order_eq, ?_,
      ?_⟩, h.service.handle hi hcell hconnection⟩, rfl, rfl⟩
  · rw [Server.handle, hcell]
    rfl
  · rw [hcount]
    exact h.admission.active_eq
  · exact h.order.holds.congr fun a ha => hother (List.mem_append_left _ ha)
  · intro a ha
    obtain ⟨ha0, hnext⟩ := h.order.held a ha
    refine ⟨ha0, ?_⟩
    change (Function.update d.heap job none a).map Job.next = some 0
    rw [hother (List.mem_append_right _ ha)]
    exact hnext
  · intro a x ha
    apply h.order.connection a x
    change (Function.update d.heap job none a).map Job.connection = some x at ha
    by_cases haj : a = job
    · subst haj
      simp at ha
    · rwa [Function.update_of_ne haj] at ha

end Handle

theorem PoolInv.finish (h : PoolInv args d m ws l) (hi : ws i = .inside .finish) :
    ∃ d', finish d =
        some ⟨d', [.signal .queueNotFull], .unlock (.inside .take)⟩ ∧
      PoolInv args d' m (Function.update ws i (.inside .take)) l ∧
      d'.waitingQueue = d.waitingQueue ∧ d'.activeJobs = d.activeJobs - 1 := by
  have hcurr := h.order.currSize_nonneg
  have htotal := h.total_le
  have hbound := h.admission.bound
  have hle : (0 : ℤ) ≤ if m.admitted then 1 else 0 := by
    split <;> omega
  have hcount := card_activeWorkers_update ws i (.inside .take)
  simp only [hi, WorkerPlace.active, Bool.false_eq_true, if_false,
    if_true] at hcount
  have hactive := h.admission.active_eq
  have hint : int (d.activeJobs - 1) = some (d.activeJobs - 1) :=
    int_eq (by omega) (by omega)
  refine ⟨{ d with activeJobs := d.activeJobs - 1 }, ?_,
    ⟨⟨h.admission.maxSize_eq, ?_, ?_⟩, ⟨h.order.holds, h.order.order_eq,
      h.order.held, h.order.connection⟩, ?_⟩, rfl, rfl⟩
  · simp only [Server.finish, hint, Option.bind_eq_bind, Option.bind_some]
  · change d.activeJobs - 1 = _
    omega
  · change d.waitingQueue.currSize + (d.activeJobs - 1) + _ ≤ _
    omega
  · have hmove := h.service.move (i := i) (p := .inside .take) (by simp [hi])
      (by simp)
    exact ⟨hmove.isSome, hmove.handled, hmove.inj, hmove.served_nodup,
      hmove.served_dequeued, hmove.served_connection, hmove.complete⟩

/-! ## Runs -/

section Runs

variable {f : (t : Thread n) → Place (Outside n t) (Inside n t)}

theorem update_worker_worker (i : Fin n) (p : WorkerPlace) :
    (fun j => Function.update f (.worker i) p (.worker j)) =
      Function.update (fun j => f (.worker j)) i p := by
  funext j
  by_cases hji : j = i
  · subst hji
    rw [Function.update_self, Function.update_self]
  · have hne : Thread.worker j ≠ .worker i := by
      simpa using hji
    rw [Function.update_of_ne hji, Function.update_of_ne hne]

/-- The invariant of a configuration. -/
def ConfigInv (args : Args) (x : Config (Thread n) Data (Outside n) (Inside n)) :
    Prop :=
  ∃ l, PoolInv args x.data (x.place .master) (fun i => x.place (.worker i)) l

/-- The configuration after a worker moved. -/
theorem PoolInv.config_worker {p : WorkerPlace}
    (h : PoolInv args d (f .master) (Function.update (fun j => f (.worker j)) i p)
      l) :
    ConfigInv args ⟨d, Function.update f (.worker i) p⟩ := by
  rw [← update_worker_worker] at h
  exact ⟨l, h⟩

theorem ConfigInv.step {x x' : Config (Thread n) Data (Outside n) (Inside n)}
    (hinv : ConfigInv args x) (hstep : AtomicStep (program n) x x') :
    ConfigInv args x' := by
  obtain ⟨l, h⟩ := hinv
  cases hstep with
  | @outside t o d p hplace hout =>
      cases t with
      | master =>
          cases o with
          | accept =>
              obtain ⟨job, c, hjob, hfree, rfl, rfl⟩ := hout
              rw [hplace] at h
              exact ⟨l, h.accept hfree hjob⟩
      | worker i =>
          cases o with
          | handle job =>
              obtain ⟨hrun, rfl⟩ := hout
              obtain ⟨d', hrun', hpost, -⟩ := h.handle hplace
              rw [hrun] at hrun'
              cases hrun'
              exact hpost.config_worker
  | @inside t k out hplace hin =>
      cases t with
      | master =>
          rw [hplace] at h
          cases k with
          | test =>
              rcases h.test with ⟨-, hrun⟩ | ⟨hrun, hpost⟩
              · cases hrun.symm.trans hin
                exact ⟨l, h⟩
              · cases hrun.symm.trans hin
                exact ⟨l, hpost⟩
          | insert job =>
              obtain ⟨d', hrun, hpost, -⟩ := h.insert
              cases hrun.symm.trans hin
              exact ⟨_, hpost⟩
      | worker i =>
          cases k with
          | take =>
              cases l with
              | nil =>
                  cases h.take_nil.symm.trans hin
                  refine ⟨[], ?_⟩
                  simp only [Exit.place, ← hplace, Function.update_eq_self]
                  exact h
              | cons job l =>
                  obtain ⟨d', hrun, hpost, -⟩ := h.take_cons hplace
                  cases hrun.symm.trans hin
                  exact hpost.config_worker
          | finish =>
              obtain ⟨d', hrun, hpost, -⟩ := h.finish hplace
              cases hrun.symm.trans hin
              exact hpost.config_worker

/-- The invariant holds in every state of the server. -/
theorem ServerState.inv {s : PoolState args.numThreads}
    (h : ServerState args s) : ConfigInv args s.config :=
  h.atomic_invariant ⟨[], poolInv_initial args⟩ fun _ _ => ConfigInv.step

end Runs

end OsCoursework.Server
