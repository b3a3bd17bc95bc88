import Mathlib.Data.Set.Card
import OsCoursework.Server.Wakeups
import OsCoursework.Support.Schedule

/-!
# The server drains

Between accepting and spurious wakeups, the threads only work off what is there:
each section, each handled request and each turn of the mutex lowers a potential
that counts the steps still ahead of every thread and of every queued job.  So the
work for one connection is bounded whatever the order of the threads, and a server
that gets no more connections comes to a rest.  At rest, everything accepted has
been served and every job has been freed.
-/

namespace OsCoursework.Server

open OsCoursework.Monitor
open OsCoursework.Transition

variable {args : Args} {s s' : PoolState args.numThreads}

/-! ## Memory -/

/-- The addresses of the jobs that were created and not yet freed. -/
def allocated (d : Data) : Set ℕ :=
  {a | (d.heap a).isSome}

theorem Keeps.isSome_iff {h h' : Heap} (hkeeps : Keeps h h') (a : ℕ) :
    (h' a).isSome ↔ (h a).isSome := by
  rw [← Option.isSome_map (f := Job.connection), hkeeps a, Option.isSome_map]

theorem enqueue_keeps {h h' : Heap} {queue queue' : Queue} {job : ℕ}
    (hrun : enqueue h queue job = some (h', queue')) : Keeps h h' := by
  rw [enqueue] at hrun
  split at hrun
  · obtain ⟨⟨heap, q⟩, hlink, hrun⟩ := Option.bind_eq_some_iff.mp hrun
    cases hlink
    obtain ⟨size, -, heq⟩ := Option.bind_eq_some_iff.mp hrun
    cases heq
    exact fun _ => rfl
  · obtain ⟨⟨heap, q⟩, hlink, hrun⟩ := Option.bind_eq_some_iff.mp hrun
    obtain ⟨heap', hset, heq⟩ := Option.map_eq_some_iff.mp hlink
    cases heq
    obtain ⟨size, -, heq⟩ := Option.bind_eq_some_iff.mp hrun
    cases heq
    exact keeps_setNext hset

theorem dequeue_keeps {h h' : Heap} {queue queue' : Queue} {job : ℕ}
    (hrun : dequeue h queue = some (h', queue', job)) : Keeps h h' := by
  rw [dequeue] at hrun
  split at hrun
  · cases hrun
    exact fun _ => rfl
  · split at hrun
    · cases hrun
      exact fun _ => rfl
    · obtain ⟨cell, -, hrun⟩ := Option.bind_eq_some_iff.mp hrun
      obtain ⟨size, -, hrun⟩ := Option.bind_eq_some_iff.mp hrun
      obtain ⟨heap, hset, hrun⟩ := Option.bind_eq_some_iff.mp hrun
      cases hrun
      exact keeps_setNext hset

/-- There is a job for each connection that was accepted and not yet served. -/
def Balanced (d : Data) : Prop :=
  (allocated d).encard + d.served.length = d.accepted.length

theorem Balanced.keeps {d : Data} (h : Balanced d) {d' : Data}
    (hkeeps : Keeps d.heap d'.heap) (hserved : d'.served = d.served)
    (haccepted : d'.accepted = d.accepted) : Balanced d' := by
  have hsame : allocated d' = allocated d :=
    Set.ext fun a => hkeeps.isSome_iff a
  rwa [Balanced, hsame, hserved, haccepted]

theorem Balanced.accept {d : Data} (h : Balanced d) {job : ℕ} (c : Connection)
    (hfree : d.heap job = none) : Balanced (accept d job c) := by
  have hnew : allocated (Server.accept d job c) =
      {job} ∪ allocated d := by
    ext a
    by_cases ha : a = job
    · subst ha
      simp [allocated, Server.accept, createJob]
    · simp [allocated, Server.accept, createJob, ha]
  have hnot : job ∉ allocated d := by simp [allocated, hfree]
  have hserved : (Server.accept d job c).served = d.served := rfl
  have haccepted : (Server.accept d job c).accepted.length =
      d.accepted.length + 1 := by simp [Server.accept]
  rw [Balanced, hnew, Set.singleton_union, Set.encard_insert_of_notMem hnot,
    hserved, haccepted,
    add_right_comm, h]
  push_cast
  rfl

theorem Balanced.handle {d d' : Data} (h : Balanced d) {job : ℕ}
    (hrun : handle d job = some d') : Balanced d' := by
  obtain ⟨cell, hcell, rfl⟩ := Option.map_eq_some_iff.mp hrun
  have hmem : job ∈ allocated d := by simp [allocated, hcell]
  have hold : allocated { d with
      heap := Function.update d.heap job none
      served := d.served ++ [(d.number job, cell.connection)] } =
        allocated d \ {job} := by
    ext a
    by_cases ha : a = job
    · subst ha
      simp [allocated]
    · simp [allocated, ha]
  rw [Balanced, hold, List.length_append, List.length_singleton, Nat.cast_add,
    Nat.cast_one, add_comm (d.served.length : ℕ∞), ← add_assoc,
    Set.encard_sdiff_singleton_add_one hmem]
  exact h

theorem Balanced.step {n : ℕ}
    {x x' : Config (Thread n) Data (Outside n) (Inside n)} (h : Balanced x.data)
    (hstep : AtomicStep (program n) x x') : Balanced x'.data := by
  cases hstep with
  | @outside t o d p _ hout =>
      cases t with
      | master =>
          cases o with
          | accept =>
              obtain ⟨job, c, -, hfree, rfl, -⟩ := hout
              exact h.accept c hfree
      | worker i =>
          cases o with
          | handle job => exact h.handle hout.1
  | @inside t l out _ hin =>
      cases t with
      | master =>
          cases l with
          | test =>
              obtain ⟨total, -, hout⟩ := Option.bind_eq_some_iff.mp hin
              split at hout <;> cases hout <;> exact h
          | insert job =>
              obtain ⟨⟨heap, queue⟩, hrun, hout⟩ :=
                Option.bind_eq_some_iff.mp hin
              cases hout
              exact h.keeps (enqueue_keeps hrun) rfl rfl
      | worker i =>
          cases l with
          | take =>
              change take x.data = some out at hin
              rw [take] at hin
              split at hin
              · cases hin
                exact h
              · obtain ⟨⟨heap, queue, job⟩, hrun, hin⟩ :=
                  Option.bind_eq_some_iff.mp hin
                obtain ⟨active, -, hout⟩ := Option.bind_eq_some_iff.mp hin
                cases hout
                exact h.keeps (dequeue_keeps hrun) rfl rfl
          | finish =>
              obtain ⟨active, -, hout⟩ := Option.bind_eq_some_iff.mp hin
              cases hout
              exact h.keeps (fun _ => rfl) rfl rfl

theorem ServerState.balanced (hs : ServerState args s) : Balanced s.data := by
  refine Reachable.atomic_invariant (I := fun x => Balanced x.data) hs ?_
    fun _ _ => Balanced.step
  have hnone : allocated (initialData args) = ∅ := by
    ext a
    simp [allocated, initialData]
  change (allocated (initialData args)).encard + 0 = 0
  rw [hnone, Set.encard_empty, zero_add]

/-! ## The potential -/

/-- How many steps a thread has ahead of it, signals included: waking up another
thread counts two. -/
def rank (n : ℕ) : (t : Thread n) → Status Cond (Outside n t) (Inside n t) → ℕ
  | .master, .running .accept => 0
  | .master, .blocked .test => 2
  | .master, .holding .test => 1
  | .master, .asleep _ .test => 0
  | .master, .blocked (.insert _) => 15
  | .master, .holding (.insert _) => 14
  | .master, .asleep _ (.insert _) => 13
  | .worker _, .running (.handle _) => 7
  | .worker _, .blocked .finish => 6
  | .worker _, .holding .finish => 5
  | .worker _, .asleep _ .finish => 4
  | .worker _, .blocked .take => 2
  | .worker _, .holding .take => 1
  | .worker _, .asleep _ .take => 0

theorem rank_blocked_le {n : ℕ} (t : Thread n) (c : Cond) (l : Inside n t) :
    rank n t (.blocked l) ≤ rank n t (.asleep c l) + 2 := by
  cases t with
  | master => cases l <;> simp [rank]
  | worker i => cases l <;> simp [rank]

/-- The work of the threads, and nine steps for each queued job. -/
def potential (s : PoolState args.numThreads) : ℕ :=
  work (rank args.numThreads) s.status + 9 * s.data.waitingQueue.currSize.toNat

/-- What an event may add to the potential: a connection is accepted, or a thread
wakes up by itself. -/
def credit {n : ℕ} : Event (Thread n) → ℕ
  | .run .master => 16
  | .wakeup _ => 3
  | _ => 0

/-- A section lowers the potential. -/
theorem ServerState.potential_leave (hs : ServerState args s)
    {t : Thread args.numThreads} {l : Inside args.numThreads t}
    {out : Outcome Cond (Outside args.numThreads t) (Inside args.numThreads t)
      Data} {f : Statuses args.numThreads}
    (hst : s.status t = .holding l)
    (hin : inside args.numThreads t l s.data = some out)
    (hwoken : WokenAll out.wakes s.status f) :
    potential (⟨out.data, none, Function.update f t out.exit.status⟩ :
      PoolState args.numThreads) + 1 ≤ potential s := by
  obtain ⟨k, hinv⟩ := hs.inv
  have hplace : s.config.place t = .inside l := by
    simp only [State.config, hst, Status.place]
  have hcurr := hinv.order.currSize_nonneg
  change 0 ≤ s.data.waitingQueue.currSize at hcurr
  -- Every section sends at most one signal.
  have hle := hwoken.work_update_le (rank args.numThreads) rank_blocked_le hst
    out.exit.status
  rw [potential, potential]
  cases t with
  | master =>
      rw [hplace] at hinv
      cases l with
      | test =>
          rcases hinv.test with ⟨-, hrun⟩ | ⟨hrun, -⟩
          · cases hrun.symm.trans hin
            simp only [Exit.status, rank, List.map_nil, List.sum_nil] at hle ⊢
            change _ + 9 * s.data.waitingQueue.currSize.toNat + 1 ≤ _
            omega
          · cases hrun.symm.trans hin
            simp only [Exit.status, Place.status, rank, List.map_nil, List.sum_nil] at hle ⊢
            change _ + 9 * s.data.waitingQueue.currSize.toNat + 1 ≤ _
            omega
      | insert job =>
          obtain ⟨d', hrun, -, hsize, -⟩ := hinv.insert
          cases hrun.symm.trans hin
          simp only [Exit.status, Place.status, rank, List.map_cons, List.map_nil,
            List.sum_singleton, Wake.reach] at hle ⊢
          rw [hsize]
          change _ + 9 * (s.data.waitingQueue.currSize + 1).toNat + 1 ≤ _
          omega
  | worker i =>
      cases l with
      | take =>
          cases k with
          | nil =>
              cases hinv.take_nil.symm.trans hin
              simp only [Exit.status, rank, List.map_nil, List.sum_nil] at hle ⊢
              change _ + 9 * s.data.waitingQueue.currSize.toNat + 1 ≤ _
              omega
          | cons job k =>
              obtain ⟨d', hrun, hpost, hsize, -⟩ := hinv.take_cons hplace
              cases hrun.symm.trans hin
              have hcurr' := hpost.order.currSize_nonneg
              simp only [Exit.status, Place.status, rank, List.map_cons, List.map_nil,
                List.sum_singleton, Wake.reach] at hle ⊢
              rw [hsize] at hcurr' ⊢
              change 0 ≤ s.data.waitingQueue.currSize - 1 at hcurr'
              change _ + 9 * (s.data.waitingQueue.currSize - 1).toNat + 1 ≤ _
              omega
      | finish =>
          obtain ⟨d', hrun, -, hqueue, -⟩ := hinv.finish hplace
          cases hrun.symm.trans hin
          simp only [Exit.status, Place.status, rank, List.map_cons, List.map_nil,
            List.sum_singleton, Wake.reach] at hle ⊢
          rw [hqueue]
          change _ + 9 * s.data.waitingQueue.currSize.toNat + 1 ≤ _
          omega

/-- Every event lowers the potential, up to its credit. -/
theorem ServerState.potential_occurs (hs : ServerState args s)
    {e : Event (Thread args.numThreads)}
    (hocc : Occurs (program args.numThreads) e s s') :
    potential s' + 1 ≤ potential s + credit e := by
  cases hocc with
  | @run s t o d p hst hout =>
      have hmove := work_update (rank args.numThreads) s.status t p.status
      rw [hst] at hmove
      rw [potential, potential]
      cases t with
      | master =>
          cases o with
          | accept =>
              obtain ⟨job, c, -, -, rfl, rfl⟩ := hout
              simp only [rank, Place.status] at hmove
              simp only [credit, Place.status]
              change _ + 9 * s.data.waitingQueue.currSize.toNat + 1 ≤ _
              omega
      | worker i =>
          cases o with
          | handle job =>
              obtain ⟨hrun, rfl⟩ := hout
              obtain ⟨cell, -, rfl⟩ := Option.map_eq_some_iff.mp hrun
              simp only [rank, Place.status] at hmove
              simp only [credit, Place.status]
              change _ + 9 * s.data.waitingQueue.currSize.toNat + 1 ≤ _
              omega
  | @acquire s t l hst _ =>
      have hmove := work_update (rank args.numThreads) s.status t (.holding l)
      have hlower : rank args.numThreads t (.holding l) + 1 =
          rank args.numThreads t (.blocked l) := by
        cases t with
        | master => cases l <;> rfl
        | worker i => cases l <;> rfl
      rw [hst] at hmove
      simp only [potential, credit]
      omega
  | leave hst _ hin hwoken => exact hs.potential_leave hst hin hwoken
  | @wakeup s t c l hst =>
      have hmove := work_update (rank args.numThreads) s.status t (.blocked l)
      have hgain := rank_blocked_le t c l
      rw [hst] at hmove
      simp only [potential, credit]
      omega

/-! ## Runs -/

section Data

variable {n : ℕ} {d d' : Data}

theorem test_accepted
    {out : Outcome Cond MasterOutside MasterInside Data}
    (h : test d = some out) : out.data.accepted = d.accepted := by
  obtain ⟨total, -, hout⟩ := Option.bind_eq_some_iff.mp h
  split at hout <;> cases hout <;> rfl

theorem insert_accepted {job : ℕ}
    {out : Outcome Cond MasterOutside MasterInside Data}
    (h : insert d job = some out) : out.data.accepted = d.accepted := by
  obtain ⟨r, -, hout⟩ := Option.bind_eq_some_iff.mp h
  cases hout
  rfl

theorem take_accepted {out : Outcome Cond WorkerOutside WorkerInside Data}
    (h : take d = some out) : out.data.accepted = d.accepted := by
  rw [take] at h
  split at h
  · cases h
    rfl
  · obtain ⟨r, -, h⟩ := Option.bind_eq_some_iff.mp h
    obtain ⟨active, -, hout⟩ := Option.bind_eq_some_iff.mp h
    cases hout
    rfl

theorem finish_accepted {out : Outcome Cond WorkerOutside WorkerInside Data}
    (h : finish d = some out) : out.data.accepted = d.accepted := by
  obtain ⟨active, -, hout⟩ := Option.bind_eq_some_iff.mp h
  cases hout
  rfl

/-- No locked section accepts a connection. -/
theorem inside_accepted {t : Thread n} {l : Inside n t}
    {out : Outcome Cond (Outside n t) (Inside n t) Data}
    (h : inside n t l d = some out) : out.data.accepted = d.accepted := by
  cases t with
  | master =>
      cases l with
      | test => exact test_accepted h
      | insert job => exact insert_accepted h
  | worker i =>
      cases l with
      | take => exact take_accepted h
      | finish => exact finish_accepted h

end Data

/-- One event accepts at most one connection, and only the master accepts. -/
theorem accepted_occurs {n : ℕ} {s s' : PoolState n} {e : Event (Thread n)}
    (hocc : Occurs (program n) e s s') :
    ∃ cs, s'.data.accepted = s.data.accepted ++ cs ∧
      cs.length = if e = .run .master then 1 else 0 := by
  cases hocc with
  | @run s t o d p _ hout =>
      cases t with
      | master =>
          cases o with
          | accept =>
              obtain ⟨job, c, -, -, rfl, -⟩ := hout
              exact ⟨[c], rfl, rfl⟩
      | worker i =>
          cases o with
          | handle job =>
              obtain ⟨cell, -, rfl⟩ := Option.map_eq_some_iff.mp hout.1
              exact ⟨[], (List.append_nil _).symm, rfl⟩
  | acquire _ _ => exact ⟨[], (List.append_nil _).symm, rfl⟩
  | leave _ _ hin _ =>
      exact ⟨[], (inside_accepted hin).trans (List.append_nil _).symm, rfl⟩
  | wakeup _ => exact ⟨[], (List.append_nil _).symm, rfl⟩

/-- A run accepts as many connections as the master returns from `Accept`. -/
theorem accepted_run {n : ℕ} {s s' : PoolState n} {es : List (Event (Thread n))}
    (hrun : Run (Occurs (program n)) es s s') :
    ∃ cs, s'.data.accepted = s.data.accepted ++ cs ∧
      cs.length = es.count (.run .master) := by
  induction hrun with
  | nil => exact ⟨[], (List.append_nil _).symm, rfl⟩
  | cons hocc _ ih =>
      obtain ⟨cs, hcs, hlength⟩ := accepted_occurs hocc
      obtain ⟨ds, hds, hlength'⟩ := ih
      refine ⟨cs ++ ds, by rw [hds, hcs, List.append_assoc], ?_⟩
      rw [List.length_append, hlength, hlength', List.count_cons, add_comm]
      simp only [beq_iff_eq]

/-- A thread wakes up without being signalled. -/
def Spurious {n : ℕ} : Event (Thread n) → Bool
  | .wakeup _ => true
  | _ => false

theorem sum_credit {n : ℕ} (es : List (Event (Thread n))) :
    (es.map credit).sum =
      16 * es.count (.run .master) + 3 * es.countP Spurious := by
  induction es with
  | nil => rfl
  | cons e es ih =>
      rw [List.map_cons, List.sum_cons, ih, List.count_cons, List.countP_cons]
      cases e with
      | run t =>
          cases t with
          | master => simp [credit, Spurious]; omega
          | worker i => simp [credit, Spurious]
      | wakeup t => simp [credit, Spurious]; omega
      | _ => simp [credit, Spurious]

/-- The potential pays for every run from a state of the server. -/
theorem ServerState.potential_run (hs : ServerState args s)
    {es : List (Event (Thread args.numThreads))}
    (hrun : Run (Occurs (program args.numThreads)) es s s') :
    potential s' + es.length ≤
      potential s + 16 * es.count (.run .master) + 3 * es.countP Spurious := by
  have hpaid := hrun.amortised (fun _ => 0) (I := ServerState args)
    (fun _ _ _ h hocc => h.tail hocc.step)
    (fun _ _ _ h hocc => h.potential_occurs hocc) hs
  rw [sum_credit] at hpaid
  omega

/-- The master and the workers. -/
def Thread.equivOption (n : ℕ) : Thread n ≃ Option (Fin n) where
  toFun
    | .master => none
    | .worker i => some i
  invFun
    | none => .master
    | some i => .worker i
  left_inv t := by cases t <;> rfl
  right_inv o := by cases o <;> rfl

theorem work_eq {n : ℕ} (f : Statuses n) :
    work (rank n) f = rank n .master (f .master) +
      ∑ i, rank n (.worker i) (f (.worker i)) := by
  rw [work, Fintype.sum_equiv (Thread.equivOption n) _
    (fun o => rank n ((Thread.equivOption n).symm o)
      (f ((Thread.equivOption n).symm o))) (fun t => ?_), Fintype.sum_option]
  · rfl
  · cases t <;> rfl

theorem work_start (args : Args) :
    work (rank args.numThreads) (start args).status =
      2 * (args.numThreads + 1) := by
  rw [work_eq]
  simp only [start, rank, Finset.sum_const, Finset.card_univ, Fintype.card_fin]
  rw [nsmul_eq_mul, Nat.cast_id]
  omega

theorem work_le {n : ℕ} (f : Statuses n) : work (rank n) f ≤ 7 * n + 15 := by
  have hmaster (st : Status Cond MasterOutside MasterInside) :
      rank n .master st ≤ 15 := by
    rcases st with (_ | _) | (_ | _) | (_ | _) | ⟨_, _ | _⟩ <;> simp [rank]
  have hworker (i : Fin n) (st : Status Cond WorkerOutside WorkerInside) :
      rank n (.worker i) st ≤ 7 := by
    rcases st with (_ | _) | (_ | _) | (_ | _) | ⟨_, _ | _⟩ <;> simp [rank]
  have hsum : ∑ i, rank n (.worker i) (f (.worker i)) ≤ 7 * n := by
    refine (Finset.sum_le_sum fun i _ => hworker i _).trans ?_
    simp only [Finset.sum_const, Finset.card_univ, Fintype.card_fin,
      nsmul_eq_mul, Nat.cast_id]
    omega
  rw [work_eq]
  have hfirst := hmaster (f .master)
  omega

/-- However the threads are scheduled, a connection costs at most 16 steps, and a
spurious wakeup at most 3. -/
theorem steps_le (args : Args) (es : List (Event (Thread args.numThreads)))
    (s : PoolState args.numThreads)
    (hrun : Run (Occurs (program args.numThreads)) es (start args) s) :
    es.length ≤ 2 * (args.numThreads + 1) + 16 * s.data.accepted.length +
      3 * es.countP Spurious := by
  have hpaid := ServerState.potential_run Relation.ReflTransGen.refl hrun
  have hstart : potential (start args) = 2 * (args.numThreads + 1) := by
    rw [potential, work_start]
    rfl
  obtain ⟨cs, hcs, hlength⟩ := accepted_run hrun
  have haccepted : s.data.accepted = cs := hcs
  rw [haccepted, hlength]
  omega

theorem steps_le_busy : ∃ es s,
    Run (Occurs (program oneWorker.numThreads)) es (start oneWorker) s ∧
      s.status (.worker ⟨0, by decide⟩) = .running (.handle 1) ∧
      es.length ≤ 4 + 16 * 1 + 3 * es.countP Spurious := by
  obtain ⟨s, hs, hworker, -, hlength⟩ := exists_busy
  obtain ⟨es, hrun⟩ := Reachable.exists_run hs
  have hle := steps_le oneWorker es s hrun
  rw [hlength] at hle
  exact ⟨es, s, hrun, hworker, hle⟩

/-! ## Rest -/

/-- Neither a new connection nor a spurious wakeup. -/
def Quiet {n : ℕ} : Event (Thread n) → Prop
  | .run .master => False
  | .wakeup _ => False
  | _ => True

/-- Everything is done: the workers sleep, the master waits for a connection, and
each accepted connection has been served and its job freed. -/
structure AtRest (s : PoolState args.numThreads) : Prop where
  master : s.status .master = .running .accept
  workers : ∀ i, ∃ l, s.status (.worker i) = .asleep .queueNotEmpty l
  idle : s.data.activeJobs = 0
  empty : isEmpty s.data.waitingQueue = true
  served : (s.data.served.map Prod.fst).Perm (List.range s.data.accepted.length)
  connection : ∀ x ∈ s.data.served, s.data.accepted[x.1]? = some x.2
  freed : ∀ a, s.data.heap a = none

/-- Where only a connection or a spurious wakeup could change anything, the
workers sleep and the master accepts. -/
theorem ServerState.status_of_stuck (hs : ServerState args s)
    (hstuck : ∀ e s', Quiet e → ¬ Occurs (program args.numThreads) e s s') :
    s.status .master = .running .accept ∧
      ∀ i, (s.status (.worker i)).AsleepOn .queueNotEmpty := by
  have hexclusive : Exclusive s := Reachable.exclusive hs (by
    intro t
    cases t <;> simp [start])
  have hstatus := hexclusive.running_or_asleep (P := program args.numThreads)
    (fun t l hst => hs.inside_isSome hst)
    (fun t s' => hstuck (.acquire t) s' trivial)
    (fun t s' => hstuck (.leave t) s' trivial)
  have hworkers (i : Fin args.numThreads) :
      (s.status (.worker i)).AsleepOn .queueNotEmpty := by
    rcases hstatus (.worker i) with ⟨o, hst⟩ | ⟨c, l, hst⟩
    · cases o with
      | handle job =>
          obtain ⟨k, hinv⟩ := hs.inv
          have hplace : s.config.place (.worker i) = .outside (.handle job) := by
            simp only [State.config, hst, Status.place]
          obtain ⟨d', hrun, -⟩ := hinv.handle hplace
          exact absurd (.run hst ⟨hrun, rfl⟩)
            (hstuck (.run (.worker i)) _ trivial)
    · obtain ⟨rfl, -⟩ := hs.sleepsAt _ _ _ hst
      exact Status.asleepOn_iff.mpr ⟨l, hst⟩
  refine ⟨?_, hworkers⟩
  rcases hstatus .master with ⟨o, hst⟩ | ⟨c, l, hst⟩
  · cases o with
    | accept => exact hst
  · obtain ⟨rfl, -⟩ := hs.sleepsAt _ _ _ hst
    exact absurd ⟨Status.asleepOn_iff.mpr ⟨l, hst⟩, hworkers⟩ hs.exists_awake

theorem ServerState.atRest (hs : ServerState args s)
    (hstuck : ∀ e s', Quiet e → ¬ Occurs (program args.numThreads) e s s') :
    AtRest s := by
  obtain ⟨hmaster, hworkers⟩ := hs.status_of_stuck hstuck
  obtain ⟨l, hinv⟩ := hs.inv
  have hplace : s.config.place .master = .outside .accept := by
    simp only [State.config, hmaster, Status.place]
  rw [hplace] at hinv
  have hready : readyWorkers s = ∅ :=
    Finset.filter_eq_empty_iff.mpr fun i _ hi => hi.1 (hworkers i)
  have hactive : s.data.activeJobs = (activeWorkers (workers s)).card :=
    hinv.admission.active_eq
  have hidle : activeWorkers (workers s) = ∅ := by
    refine Finset.filter_eq_empty_iff.mpr fun i _ hi => ?_
    rw [hs.not_active (hworkers i)] at hi
    cases hi
  -- A sleeping worker means that the queue is as short as there are ready ones.
  have hcurr := hs.currSize_le ⟨⟨0, args.numThreads_pos⟩, hworkers _⟩
  rw [hready, Finset.card_empty] at hcurr
  have hlength : s.data.waitingQueue.currSize = (l.length : ℤ) :=
    hinv.order.holds.currSize_eq
  have hl : l = [] := List.eq_nil_of_length_eq_zero (by omega)
  subst hl
  have hdequeued : s.data.dequeued = List.range s.data.accepted.length := by
    have horder : s.data.dequeued ++ [] = List.range s.data.accepted.length :=
      hinv.order.order_eq
    rwa [List.append_nil] at horder
  have hserved : (s.data.served.map Prod.fst).Perm
      (List.range s.data.accepted.length) := by
    refine (List.perm_ext_iff_of_nodup hinv.service.served_nodup
      List.nodup_range).mpr fun k => ?_
    rw [← hdequeued]
    refine ⟨hinv.service.served_dequeued k, fun hk => ?_⟩
    rcases hinv.service.complete k hk with hdone | ⟨i, job, hi, -⟩
    · exact hdone
    · obtain ⟨l, hst⟩ := Status.asleepOn_iff.mp (hworkers i)
      simp [State.config, hst, Status.place] at hi
  have hfreed : allocated s.data = ∅ := by
    have hbalance := hs.balanced
    have hsame : s.data.served.length = s.data.accepted.length := by
      simpa using hserved.length_eq
    rw [Balanced, hsame] at hbalance
    rw [← Set.encard_eq_zero]
    exact (ENat.add_left_injective_of_ne_top (ENat.natCast_ne_top _))
      (hbalance.trans (zero_add _).symm)
  refine ⟨hmaster, fun i => Status.asleepOn_iff.mp (hworkers i), ?_,
    hinv.order.holds.isEmpty_iff.mpr rfl, hserved, hinv.service.served_connection,
    fun a => ?_⟩
  · rw [hactive, hidle]
    rfl
  · have hnot : a ∉ allocated s.data := by
      rw [hfreed]
      exact Set.notMem_empty a
    simpa [allocated] using hnot

/-- Quiet events have no credit. -/
theorem credit_of_quiet {n : ℕ} {e : Event (Thread n)} (h : Quiet e) :
    credit e = 0 := by
  cases e with
  | run t =>
      cases t with
      | master => exact h.elim
      | worker i => rfl
  | wakeup t => exact h.elim
  | _ => rfl

/-- Once no more connections come in, and without spurious wakeups, the server
comes to a rest after a bounded number of steps, in whatever order the threads
take them. -/
theorem drains (args : Args) (s : PoolState args.numThreads)
    (hs : ServerState args s) :
    (∃ es s', Run (Occurs (program args.numThreads)) es s s' ∧
      (∀ e ∈ es, Quiet e) ∧ AtRest s') ∧
    ∀ es s', Run (Occurs (program args.numThreads)) es s s' →
      (∀ e ∈ es, Quiet e) →
      es.length ≤ 7 * args.numThreads + 15 + 9 * args.queueSize.toNat ∧
      s'.data.accepted = s.data.accepted ∧
      ((∀ e s'', Quiet e → ¬ Occurs (program args.numThreads) e s' s'') →
        AtRest s') := by
  refine ⟨?_, ?_⟩
  · have hreach (e : Event (Thread args.numThreads)) (s s' : PoolState args.numThreads)
        (h : ServerState args s) (hocc : Occurs (program args.numThreads) e s s') :
        ServerState args s' := h.tail hocc.step
    obtain ⟨es, s', hrun, hquiet, hstuck⟩ := Run.exists_stuck Quiet potential hreach
      (fun e s s' h hquiet hocc => by
        have hpaid := h.potential_occurs hocc
        rw [credit_of_quiet hquiet] at hpaid
        omega) hs
    exact ⟨es, s', hrun, hquiet,
      ServerState.atRest (Reachable.run hs hrun) hstuck⟩
  · intro es s' hrun hquiet
    have hpaid := hs.potential_run hrun
    have hmaster : es.count (.run .master) = 0 :=
      List.count_eq_zero.mpr fun hmem => hquiet _ hmem
    have hspurious : es.countP Spurious = 0 := by
      refine List.countP_eq_zero.mpr fun e hmem hspurious => ?_
      cases e with
      | wakeup t => exact hquiet _ hmem
      | _ => cases hspurious
    have hwork := work_le s.status
    obtain ⟨l, hinv⟩ := hs.inv
    have hbound := hinv.admission.bound
    have hactive := hinv.active_nonneg
    change 0 ≤ s.data.activeJobs at hactive
    change s.data.waitingQueue.currSize + s.data.activeJobs + _ ≤ _ at hbound
    have hadmitted : (0 : ℤ) ≤
        if MasterPlace.admitted (s.config.place .master) then 1 else 0 := by
      split <;> decide
    obtain ⟨cs, hcs, hlength⟩ := accepted_run hrun
    rw [hmaster] at hlength
    rw [List.eq_nil_of_length_eq_zero hlength, List.append_nil] at hcs
    refine ⟨?_, hcs, ServerState.atRest (Reachable.run hs hrun)⟩
    rw [hmaster, hspurious, potential, potential] at hpaid
    omega

theorem drains_busy : ∃ s : PoolState oneWorker.numThreads,
    s.status (.worker ⟨0, by decide⟩) = .running (.handle 1) ∧
      ∃ es s', Run (Occurs (program oneWorker.numThreads)) es s s' ∧
        AtRest s' ∧ es.length ≤ 31 ∧ s'.data.served.length = 1 := by
  obtain ⟨s, hs, hworker, -, hlength⟩ := exists_busy
  obtain ⟨⟨es, s', hrun, hquiet, hrest⟩, hall⟩ := drains oneWorker s hs
  obtain ⟨hle, hsame, -⟩ := hall es s' hrun hquiet
  refine ⟨s, hworker, es, s', hrun, hrest, hle, ?_⟩
  have hserved := hrest.served.length_eq
  rwa [List.length_map, List.length_range, hsame, hlength] at hserved

end OsCoursework.Server
