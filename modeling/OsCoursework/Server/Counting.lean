import OsCoursework.Server.Record

/-!
# Counting requests

`Change` says what a step of a worker does to the statistics, the responses, the
clock and the calls that got the lock.  From it: the counters of all workers together
count the responses of each kind and the requests that are still in hand, each worker
numbers its entries in the log, and the entries follow each other in the order of the
times they show.
-/

namespace OsCoursework.Server.Logging

open OsCoursework.Monitor

/-! ## Kinds of requests -/

inductive Kind where
  | refused
  | get
  | post
  deriving DecidableEq

/-- How often the counters of a worker count a request of this kind. -/
def counted (t : ThreadsStats) : Kind → ℤ
  | .refused => t.totalReq - t.statReq - t.dynmReq - t.postReq
  | .get => t.statReq + t.dynmReq
  | .post => t.postReq

def Sent.kind : Sent → Kind
  | .refused _ => .refused
  | .get _ _ _ _ => .get
  | .post _ _ _ _ => .post

/-- The request that a worker has in hand. -/
def inHand : Place Outside Inside → Option Kind
  | .outside .ready => none
  | .outside (.writing _ _) | .outside (.sendGet _) => some .get
  | .outside (.reading _ _) | .outside (.sendPost _ _ _ _) => some .post
  | .inside (.writerLock _) | .inside (.writerRetest _) | .inside (.writerUnlock _) => some .get
  | .inside (.readerLock _) | .inside (.readerUnlock _ _ _) => some .post

/-- The GET of a worker that has not got the lock yet. -/
def awaiting : Place Outside Inside → Option Get
  | .inside (.writerLock r) => some r
  | .inside (.writerRetest r) => some r
  | _ => none

def preparedKind : Prepared → Kind
  | .refused _ _ _ _ => .refused
  | .get _ _ _ => .get
  | .post => .post

theorem prepare_total {host : Host} {method uri : Text} {t t' : ThreadsStats}
    {prepared : Prepared} (h : prepare host method uri t = some (t', prepared)) :
    t'.totalReq = t.totalReq + 1 ∧
      t'.postReq = t.postReq + if preparedKind prepared = .post then 1 else 0 := by
  obtain ⟨total, htotal, h⟩ := Option.bind_eq_some_iff.mp h
  cases int_eq_some htotal
  dsimp only at h
  split at h
  · split at h
    · cases h
      exact ⟨rfl, (Int.add_zero _).symm⟩
    · split at h
      · split at h
        · cases h
          exact ⟨rfl, (Int.add_zero _).symm⟩
        · obtain ⟨count, -, h⟩ := Option.bind_eq_some_iff.mp h
          obtain ⟨body, -, h⟩ := Option.bind_eq_some_iff.mp h
          cases h
          exact ⟨rfl, (Int.add_zero _).symm⟩
      · split at h
        · cases h
          exact ⟨rfl, (Int.add_zero _).symm⟩
        · obtain ⟨count, -, h⟩ := Option.bind_eq_some_iff.mp h
          obtain ⟨⟨body, len⟩, -, h⟩ := Option.bind_eq_some_iff.mp h
          cases h
          exact ⟨rfl, (Int.add_zero _).symm⟩
  · split at h
    · obtain ⟨count, hcount, h⟩ := Option.bind_eq_some_iff.mp h
      cases h
      exact ⟨rfl, int_eq_some hcount⟩
    · cases h
      exact ⟨rfl, (Int.add_zero _).symm⟩

/-- A request counts once, for its kind. -/
theorem prepare_counted {host : Host} {method uri : Text} {t t' : ThreadsStats}
    {prepared : Prepared} (h : prepare host method uri t = some (t', prepared)) (k : Kind) :
    counted t' k = counted t k + if preparedKind prepared = k then 1 else 0 := by
  obtain ⟨-, hget⟩ := prepare_counts h
  obtain ⟨htotal, hpost⟩ := prepare_total h
  cases prepared <;> cases k <;>
    simp only [Prepared.isGet, preparedKind, counted, reduceCtorEq, if_true, if_false,
      Bool.false_eq_true] at hget hpost ⊢ <;> omega

/-! ## Steps -/

variable {n : ℕ} {clock : ℕ → Timeval} {d d' : Data n} {i : Fin n}
  {p p' : Place Outside Inside}

/-- The requests of kind `k` that were answered or are in the hand of this worker. -/
def served (d : Data n) (p : Place Outside Inside) (k : Kind) : ℕ :=
  (d.sent.countP fun x => x.kind = k) + if inHand p = some k then 1 else 0

/-- What a worker that goes from `p` to `p'` does. -/
inductive Change (clock : ℕ → Timeval) (d d' : Data n) (i : Fin n)
    (p p' : Place Outside Inside) : Prop where
  | quiet (hstats : d'.stats = d.stats) (harrived : d'.arrived = d.arrived)
      (hacquired : d'.acquired = d.acquired) (hticks : d.ticks ≤ d'.ticks)
      (hserved : served d' p' = served d p) (hawaiting : awaiting p' = awaiting p)
  | arrive {host : Host} {method uri : Text} {t : ThreadsStats} {prepared : Prepared}
      (hprepare : prepare host method uri (d.stats i) = some (t, prepared))
      (hstats : d'.stats = Function.update d.stats i t)
      (harrived : d'.arrived = d.arrived + 1) (hacquired : d'.acquired = d.acquired)
      (hticks : d.ticks ≤ d'.ticks)
      (hserved : ∀ k, served d' p' k =
        served d p k + if preparedKind prepared = k then 1 else 0)
      (hready : awaiting p = none)
      (hawaiting : ∀ r, awaiting p' = some r →
        r.tmStats.logEnter = clock d.ticks ∧ d.ticks < d'.ticks)
  | acquire {r : Get} (hstats : d'.stats = d.stats) (harrived : d'.arrived = d.arrived)
      (hacquired : d'.acquired = d.acquired ++
        [⟨r.request, d.stats i, { r.tmStats with logExit := clock d.ticks }⟩])
      (hticks : d'.ticks = d.ticks + 1) (hserved : served d' p' = served d p)
      (hawaiting : awaiting p = some r) (hafter : awaiting p' = none)

theorem arrive_change (clock : ℕ → Timeval) (tmStats : TimeStats) {host : Host}
    {method uri : Text} {t : ThreadsStats} {prepared : Prepared}
    (hprepare : prepare host method uri (d.stats i) = some (t, prepared)) :
    Change clock d (arrive clock i d tmStats t prepared).1 i (.outside .ready)
      (arrive clock i d tmStats t prepared).2 := by
  cases prepared with
  | refused cause errnum shortmsg longmsg =>
      refine .arrive hprepare rfl rfl rfl (Nat.le_refl _) (fun k => ?_) rfl ?_
      · simp only [served, arrive, List.countP_append, List.countP_singleton, inHand,
          Sent.kind, preparedKind]
        cases k <;> simp
      · rintro r ⟨⟩
  | get headers body bodyLen =>
      refine .arrive hprepare rfl rfl rfl (Nat.le_succ _) (fun k => ?_) rfl ?_
      · cases k <;> simp [served, arrive, inHand, preparedKind]
      · rintro r ⟨⟩
        exact ⟨rfl, Nat.lt_succ_self _⟩
  | post =>
      refine .arrive hprepare rfl rfl rfl (Nat.le_succ _) (fun k => ?_) rfl ?_
      · cases k <;> simp [served, arrive, inHand, preparedKind]
      · rintro r ⟨⟩

theorem outside_change {o : Outside} (h : outside clock i o d d' p') :
    Change clock d d' i (.outside o) p' := by
  cases o with
  | ready =>
      obtain ⟨host, method, uri, tmStats, t, prepared, hprepare, harrive⟩ := h
      have hchange := arrive_change clock tmStats hprepare
      rw [← harrive] at hchange
      exact hchange
  | writing r stage =>
      cases stage with
      | format =>
          obtain ⟨rfl, rfl⟩ := h
          exact .quiet rfl rfl rfl (Nat.le_refl _) rfl rfl
      | _ =>
          obtain ⟨log, -, rfl, rfl⟩ := h
          exact .quiet rfl rfl rfl (Nat.le_refl _) rfl rfl
  | sendGet r =>
      obtain ⟨body, -, rfl, rfl⟩ := h
      refine .quiet rfl rfl rfl (Nat.le_refl _) (funext fun k => ?_) rfl
      cases k <;> simp [served, inHand, Sent.kind]
  | reading r stage =>
      cases stage with
      | malloc =>
          obtain ⟨rfl, size, -, rfl⟩ := h
          exact .quiet rfl rfl rfl (Nat.le_refl _) rfl rfl
      | copy size =>
          obtain ⟨rfl, bytes, dst, -, -, -, rfl⟩ := h
          exact .quiet rfl rfl rfl (Nat.le_refl _) rfl rfl
      | length dst =>
          obtain ⟨rfl, rfl⟩ := h
          exact .quiet rfl rfl rfl (Nat.le_refl _) rfl rfl
  | sendPost r returned dst len =>
      obtain ⟨body, -, rfl, rfl⟩ := h
      refine .quiet rfl rfl rfl (Nat.le_refl _) (funext fun k => ?_) rfl
      cases k <;> simp [served, inHand, Sent.kind]

theorem writerRetest_change {r : Get} (waiting : ℤ)
    {out : Outcome Cond Outside Inside (Data n)}
    (h : writerRetest clock i { d with waitingWriters := waiting } r = some out)
    (hp : inHand p = some .get) (hawaiting : awaiting p = some r) :
    Change clock d out.data i p out.exit.place := by
  rcases writerRetest_cases h with
    ⟨-, hdata, -, hexit⟩ | ⟨-, -, -, tmStats, rfl, hdata, hexit⟩
  · rw [hdata, hexit]
    refine .quiet rfl rfl rfl (Nat.le_refl _) (funext fun k => ?_) hawaiting.symm
    simp only [served, hp]
    rfl
  · rw [hdata, hexit]
    refine .acquire (r := r) rfl rfl rfl rfl (funext fun k => ?_) hawaiting rfl
    simp only [served, hp]
    rfl

theorem inside_change {l : Inside} {out : Outcome Cond Outside Inside (Data n)}
    (h : inside clock i l d = some out) :
    Change clock d out.data i (.inside l) out.exit.place := by
  cases l with
  | writerLock r =>
      obtain ⟨waiting, -, hrun⟩ := Option.bind_eq_some_iff.mp h
      exact writerRetest_change waiting hrun rfl rfl
  | writerRetest r => exact writerRetest_change d.waitingWriters h rfl rfl
  | writerUnlock r =>
      cases h
      exact .quiet rfl rfl rfl (Nat.le_refl _) rfl rfl
  | readerLock r =>
      change readerLock clock d r = some out at h
      rw [readerLock] at h
      split at h
      · cases h
        exact .quiet rfl rfl rfl (Nat.le_refl _) rfl rfl
      · obtain ⟨readers, -, h⟩ := Option.bind_eq_some_iff.mp h
        cases h
        exact .quiet rfl rfl rfl (Nat.le_succ _) rfl rfl
  | readerUnlock r dst len =>
      obtain ⟨readers, -, h⟩ := Option.bind_eq_some_iff.mp h
      cases h
      exact .quiet rfl rfl rfl (Nat.le_refl _) rfl rfl

/-! ## The invariant -/

/-- The times of these entries are readings of the clock: each entry was begun before it
got the lock, and the entries got it one after the other, before the reading `ticks`. -/
def Timed (clock : ℕ → Timeval) (ticks : ℕ) (es : List Entry) : Prop :=
  ∃ entered left : List ℕ, es.map (·.tmStats.logEnter) = entered.map clock ∧
    es.map (·.tmStats.logExit) = left.map clock ∧ List.Forall₂ (· < ·) entered left ∧
    left.Pairwise (· < ·) ∧ ∀ k ∈ left, k < ticks

/-- The numbers of the entries of worker `i`. -/
def numbers (d : Data n) (i : Fin n) : List ℤ :=
  (d.acquired.filter fun e => e.tStats.id = ((i : ℕ) : ℤ) + 1).map fun e => counted e.tStats .get

structure CountInv (clock : ℕ → Timeval) (d : Data n) (f : Places n) : Prop where
  total : ∑ i, (d.stats i).totalReq = d.arrived
  kinds : ∀ k, ∑ i, counted (d.stats i) k = (d.sent.countP fun x => x.kind = k) +
    (Finset.univ.filter fun i => inHand (f i) = some k).card
  numbered : ∀ i, numbers d i = (List.range (d.logged i)).map fun m : ℕ => (m : ℤ) + 1
  increasing : d.acquired.Pairwise fun e e' =>
    e.tStats.id = e'.tStats.id → e.tStats.totalReq < e'.tStats.totalReq
  last : ∀ i, ∀ e ∈ d.acquired, e.tStats.id = (d.stats i).id →
    e.tStats.totalReq + (if (awaiting (f i)).isSome then 1 else 0) ≤ (d.stats i).totalReq
  entered : ∀ i r, awaiting (f i) = some r → ∃ k < d.ticks, r.tmStats.logEnter = clock k
  timed : Timed clock d.ticks d.acquired

/-- A sum over the workers, when the statistics of one of them change. -/
theorem sum_stats_update (g : ThreadsStats → ℤ) (stats : Fin n → ThreadsStats) (i : Fin n)
    (t : ThreadsStats) :
    ∑ j, g (Function.update stats i t j) = ∑ j, g (stats j) + (g t - g (stats i)) := by
  have hrest : ∑ j ∈ Finset.univ.erase i, g (Function.update stats i t j) =
      ∑ j ∈ Finset.univ.erase i, g (stats j) := by
    refine Finset.sum_congr rfl fun j hj => ?_
    rw [Function.update_of_ne (Finset.ne_of_mem_erase hj)]
  rw [← Finset.sum_erase_add _ _ (Finset.mem_univ i),
    ← Finset.sum_erase_add Finset.univ (fun j => g (stats j)) (Finset.mem_univ i), hrest,
    Function.update_self]
  omega

theorem Timed.mono {ticks ticks' : ℕ} {es : List Entry} (h : Timed clock ticks es)
    (hle : ticks ≤ ticks') : Timed clock ticks' es := by
  obtain ⟨entered, left, henter, hexit, hbefore, hsorted, hlast⟩ := h
  exact ⟨entered, left, henter, hexit, hbefore, hsorted, fun k hk => (hlast k hk).trans_le hle⟩

/-- The next entry. -/
theorem Timed.append {ticks k : ℕ} {es : List Entry} {e : Entry} (h : Timed clock ticks es)
    (hk : k < ticks) (henter : e.tmStats.logEnter = clock k)
    (hexit : e.tmStats.logExit = clock ticks) : Timed clock (ticks + 1) (es ++ [e]) := by
  obtain ⟨entered, left, henters, hexits, hbefore, hsorted, hlast⟩ := h
  refine ⟨entered ++ [k], left ++ [ticks], ?_, ?_, ?_, ?_, ?_⟩
  · simp [henters, henter]
  · simp [hexits, hexit]
  · exact List.rel_append hbefore (.cons hk .nil)
  · rw [List.pairwise_append]
    exact ⟨hsorted, List.pairwise_singleton _ _, by simpa using hlast⟩
  · intro m hm
    rcases List.mem_append.mp hm with hm | hm
    · exact (hlast m hm).trans (Nat.lt_succ_self _)
    · rw [List.mem_singleton.mp hm]
      exact Nat.lt_succ_self _

theorem pending_eq (p : Place Outside Inside) : pending p = (awaiting p).map Get.request := by
  rcases p with o | l
  · cases o <;> rfl
  · cases l <;> rfl

/-! ## Preservation -/

section Preservation

variable {f : Places n}

theorem awaiting_update (hp : awaiting p = awaiting (f i)) (j : Fin n) :
    awaiting (Function.update f i p j) = awaiting (f j) := by
  by_cases hji : j = i
  · subst hji
    rw [Function.update_self, hp]
  · rw [Function.update_of_ne hji]

/-- The counts of the requests, when the counters and the requests grow alike. -/
theorem CountInv.kinds_update (h : CountInv clock d f) {k : Kind} (extra : ℕ)
    (hstats : ∑ j, counted (d'.stats j) k =
      ∑ j, counted (d.stats j) k + extra)
    (hserved : served d' p k = served d (f i) k + extra) :
    ∑ j, counted (d'.stats j) k = (d'.sent.countP fun x => x.kind = k) +
      (Finset.univ.filter fun j => inHand (Function.update f i p j) = some k).card := by
  have hcard := card_filter_update (fun _ q => inHand q = some k) f i p
  have hold := h.kinds k
  rw [served, served] at hserved
  omega

theorem CountInv.quiet (h : CountInv clock d f) (hstats : d'.stats = d.stats)
    (harrived : d'.arrived = d.arrived) (hacquired : d'.acquired = d.acquired)
    (hticks : d.ticks ≤ d'.ticks) (hserved : served d' p = served d (f i))
    (hawaiting : awaiting p = awaiting (f i)) : CountInv clock d' (Function.update f i p) where
  total := by rw [hstats, harrived, h.total]
  kinds k := by
    refine h.kinds_update 0 ?_ (congrFun hserved k)
    rw [hstats]
    exact (Int.add_zero _).symm
  numbered j := by
    rw [numbers, Data.logged, hacquired]
    exact h.numbered j
  increasing := hacquired ▸ h.increasing
  last j e he hid := by
    rw [hacquired] at he
    rw [hstats] at hid ⊢
    rw [awaiting_update hawaiting]
    exact h.last j e he hid
  entered j r hr := by
    rw [awaiting_update hawaiting] at hr
    obtain ⟨k, hk, henter⟩ := h.entered j r hr
    exact ⟨k, hk.trans_le hticks, henter⟩
  timed := by
    rw [hacquired]
    exact h.timed.mono hticks

theorem CountInv.arrive (h : CountInv clock d f) {host : Host} {method uri : Text}
    {t : ThreadsStats} {prepared : Prepared}
    (hprepare : prepare host method uri (d.stats i) = some (t, prepared))
    (hstats : d'.stats = Function.update d.stats i t) (harrived : d'.arrived = d.arrived + 1)
    (hacquired : d'.acquired = d.acquired) (hticks : d.ticks ≤ d'.ticks)
    (hserved : ∀ k, served d' p k =
      served d (f i) k + if preparedKind prepared = k then 1 else 0)
    (hawaiting : ∀ r, awaiting p = some r →
      r.tmStats.logEnter = clock d.ticks ∧ d.ticks < d'.ticks) :
    CountInv clock d' (Function.update f i p) where
  total := by
    rw [hstats, sum_stats_update, h.total, harrived, (prepare_total hprepare).1]
    push_cast
    omega
  kinds k := by
    refine h.kinds_update _ ?_ (hserved k)
    rw [hstats, sum_stats_update (counted · k), prepare_counted hprepare,
      add_sub_cancel_left]
    split <;> rfl
  numbered j := by
    rw [numbers, Data.logged, hacquired]
    exact h.numbered j
  increasing := hacquired ▸ h.increasing
  last j e he hid := by
    rw [hacquired] at he
    rw [hstats] at hid ⊢
    by_cases hji : j = i
    · subst hji
      simp only [Function.update_self] at hid ⊢
      rw [(prepare_counts hprepare).1] at hid
      have hlast := h.last j e he hid
      have htotal := (prepare_total hprepare).1
      split at hlast <;> split <;> omega
    · simp only [Function.update_of_ne hji] at hid ⊢
      exact h.last j e he hid
  entered j r hr := by
    by_cases hji : j = i
    · subst hji
      rw [Function.update_self] at hr
      exact ⟨d.ticks, (hawaiting r hr).2, (hawaiting r hr).1⟩
    · rw [Function.update_of_ne hji] at hr
      obtain ⟨k, hk, henter⟩ := h.entered j r hr
      exact ⟨k, hk.trans_le hticks, henter⟩
  timed := by
    rw [hacquired]
    exact h.timed.mono hticks

/-- The number of the next entry. -/
theorem numbers_append {e : Entry} (hacquired : d'.acquired = d.acquired ++ [e]) (j : Fin n) :
    numbers d' j = numbers d j ++
      if e.tStats.id = ((j : ℕ) : ℤ) + 1 then [counted e.tStats .get] else [] := by
  rw [numbers, hacquired, List.filter_append, List.map_append, numbers]
  split
  · next hid => simp [hid]
  · next hid => simp [hid]

theorem CountInv.acquire (h : CountInv clock d f) (hrecord : RecordInv d f) {r : Get}
    (hstats : d'.stats = d.stats) (harrived : d'.arrived = d.arrived)
    (hacquired : d'.acquired = d.acquired ++
      [⟨r.request, d.stats i, { r.tmStats with logExit := clock d.ticks }⟩])
    (hticks : d'.ticks = d.ticks + 1) (hserved : served d' p = served d (f i))
    (hawaiting : awaiting (f i) = some r) (hafter : awaiting p = none) :
    CountInv clock d' (Function.update f i p) where
  total := by rw [hstats, harrived, h.total]
  kinds k := by
    refine h.kinds_update 0 ?_ (congrFun hserved k)
    rw [hstats]
    exact (Int.add_zero _).symm
  numbered j := by
    have hcount := hrecord.count i
    rw [pending_eq, hawaiting, Option.map_some, Option.isSome_some, if_pos rfl] at hcount
    rw [numbers_append hacquired, Data.logged, hacquired, List.countP_append,
      List.countP_singleton, h.numbered]
    by_cases hji : j = i
    · subst hji
      simp only [hrecord.id_eq, decide_true, if_true, List.range_succ, List.map_append,
        List.map_singleton]
      rw [Data.logged] at hcount ⊢
      rw [hcount]
      rfl
    · have hid : (d.stats i).id ≠ ((j : ℕ) : ℤ) + 1 := by
        rw [hrecord.id_eq]
        intro hid
        exact hji (Fin.ext (by omega))
      simp only [hid, decide_false, if_false, Bool.false_eq_true, List.append_nil,
        Nat.add_zero]
      rfl
  increasing := by
    rw [hacquired, List.pairwise_append]
    refine ⟨h.increasing, List.pairwise_singleton _ _, fun e he e' he' hid => ?_⟩
    obtain rfl := List.mem_singleton.mp he'
    have hlast := h.last i e he hid
    rw [hawaiting, Option.isSome_some, if_pos rfl] at hlast
    exact Int.lt_of_add_one_le hlast
  last j e he hid := by
    rw [hstats] at hid ⊢
    rw [hacquired] at he
    by_cases hji : j = i
    · subst hji
      rw [Function.update_self, hafter, Option.isSome_none, if_neg Bool.false_ne_true,
        Int.add_zero]
      rcases List.mem_append.mp he with he | he
      · have hlast := h.last j e he hid
        split at hlast <;> omega
      · rw [List.mem_singleton.mp he]
    · rw [Function.update_of_ne hji]
      rcases List.mem_append.mp he with he | he
      · exact h.last j e he hid
      · rw [List.mem_singleton.mp he] at hid
        have hids : (d.stats i).id = (d.stats j).id := hid
        rw [hrecord.id_eq, hrecord.id_eq] at hids
        exact absurd (Fin.ext (by omega)) hji
  entered j r' hr := by
    by_cases hji : j = i
    · subst hji
      rw [Function.update_self, hafter] at hr
      cases hr
    · rw [Function.update_of_ne hji] at hr
      obtain ⟨k, hk, henter⟩ := h.entered j r' hr
      exact ⟨k, by omega, henter⟩
  timed := by
    obtain ⟨k, hk, henter⟩ := h.entered i r hawaiting
    rw [hacquired, hticks]
    exact h.timed.append hk henter rfl

theorem CountInv.change (h : CountInv clock d f) (hrecord : RecordInv d f)
    (hchange : Change clock d d' i (f i) p) : CountInv clock d' (Function.update f i p) := by
  cases hchange with
  | quiet hstats harrived hacquired hticks hserved hawaiting =>
      exact h.quiet hstats harrived hacquired hticks hserved hawaiting
  | arrive hprepare hstats harrived hacquired hticks hserved hready hawaiting =>
      exact h.arrive hprepare hstats harrived hacquired hticks hserved hawaiting
  | acquire hstats harrived hacquired hticks hserved hawaiting hafter =>
      exact h.acquire hrecord hstats harrived hacquired hticks hserved hawaiting hafter

end Preservation

/-! ## Runs -/

theorem CountInv.step {x x' : LogConfig n} (h : CountInv clock x.data x.place)
    (hrecord : RecordInv x.data x.place) (hstep : AtomicStep (program clock n) x x') :
    CountInv clock x'.data x'.place := by
  cases hstep with
  | outside hplace hout =>
      refine h.change hrecord ?_
      rw [hplace]
      exact outside_change hout
  | inside hplace hin =>
      refine h.change hrecord ?_
      rw [hplace]
      exact inside_change hin

theorem countInv_start (n : ℕ) (stale : ℕ → Char) :
    CountInv clock (start n stale).data (start n stale).config.place where
  total := by simp [start, initialStats]
  kinds k := by cases k <;> simp [start, initialStats, counted, inHand, State.config, Status.place]
  numbered _ := rfl
  increasing := List.Pairwise.nil
  last _ _ he := nomatch he
  entered _ _ hr := nomatch hr
  timed := ⟨[], [], rfl, rfl, .nil, .nil, nofun⟩

theorem LoggingState.countInv {s : LogState n} (hs : LoggingState clock s) :
    CountInv clock s.data s.config.place := by
  obtain ⟨stale, hs⟩ := hs
  exact (hs.atomic_invariant
    (I := fun x => ConfigInv x ∧ CountInv clock x.data x.place)
    ⟨⟨lockInv_start n stale, recordInv_start n stale⟩, countInv_start n stale⟩
    fun _ _ hx hstep => ⟨hx.1.step hstep, hx.2.step hx.1.2 hstep⟩).2

theorem length_eq_countP (xs : List Sent) : xs.length =
    (xs.countP fun x => x.kind = .refused) + (xs.countP fun x => x.kind = .get) +
      (xs.countP fun x => x.kind = .post) := by
  induction xs with
  | nil => rfl
  | cons x xs ih =>
      rw [List.length_cons, ih]
      cases x <;> simp only [List.countP_cons, Sent.kind, reduceCtorEq, decide_true,
        decide_false, if_true, Bool.false_eq_true, if_false] <;> omega

/-- Where no worker has a request in its hand, all have been answered. -/
theorem LoggingState.sent_length_eq {s : LogState n} (hs : LoggingState clock s)
    (hready : ∀ i, s.status i = .running .ready) : s.data.sent.length = s.data.arrived := by
  have hinv := hs.countInv
  have hkind (k : Kind) : ∑ i, counted (s.data.stats i) k =
      (s.data.sent.countP fun x => x.kind = k) := by
    have hnone : (Finset.univ.filter fun i => inHand (s.config.place i) = some k) = ∅ := by
      refine Finset.filter_eq_empty_iff.mpr fun i _ h => ?_
      have hplace : s.config.place i = .outside .ready := congrArg Status.place (hready i)
      rw [hplace] at h
      cases h
    rw [hinv.kinds k, hnone, Finset.card_empty]
    exact Int.add_zero _
  have htotal : ∑ i, counted (s.data.stats i) .refused + ∑ i, counted (s.data.stats i) .get +
      ∑ i, counted (s.data.stats i) .post = ∑ i, (s.data.stats i).totalReq := by
    rw [← Finset.sum_add_distrib, ← Finset.sum_add_distrib]
    refine Finset.sum_congr rfl fun i _ => ?_
    simp only [counted]
    omega
  have hlength := length_eq_countP s.data.sent
  rw [hkind, hkind, hkind, hinv.total] at htotal
  omega

/-- The workers' counters together count every request once, for its kind, and each
request is answered or in the hand of one worker. -/
theorem requests_counted (n : ℕ) (clock : ℕ → Timeval) (s : LogState n)
    (hs : LoggingState clock s) :
    (∀ k, ∑ i, counted (s.data.stats i) k = (s.data.sent.countP fun x => x.kind = k) +
      (Finset.univ.filter fun i => inHand (s.status i).place = some k).card) ∧
    ∑ i, (s.data.stats i).totalReq = s.data.arrived ∧
    ((∀ i, s.status i = .running .ready) → s.data.sent.length = s.data.arrived) :=
  ⟨hs.countInv.kinds, hs.countInv.total, hs.sent_length_eq⟩

theorem requests_counted_one : ∃ s : LogState 1, s.data.completed.length = 1 ∧
    s.data.sent.length = s.data.arrived := by
  obtain ⟨s, hs, hone, hready⟩ := exists_logged
  obtain ⟨-, -, hall⟩ := requests_counted 1 _ s hs
  refine ⟨s, hone, hall fun i => ?_⟩
  rw [Subsingleton.elim i 0]
  exact hready

/-- Each worker numbers its entries 1, 2, and so on, and counts more requests from one
to the next; the entries show times that were read one after the other. -/
theorem log_in_order (n : ℕ) (clock : ℕ → Timeval) (s : LogState n)
    (hs : LoggingState clock s) :
    (∀ i : Fin n, numbers s.data i =
      (List.range (s.data.logged i)).map fun m : ℕ => (m : ℤ) + 1) ∧
    (s.data.acquired.Pairwise fun e e' =>
      e.tStats.id = e'.tStats.id → e.tStats.totalReq < e'.tStats.totalReq) ∧
    Timed clock s.data.ticks s.data.acquired :=
  ⟨hs.countInv.numbered, hs.countInv.increasing, hs.countInv.timed⟩

theorem log_in_order_one : ∃ s : LogState 1, s.data.completed.length = 1 ∧
    numbers s.data 0 = (List.range (s.data.logged 0)).map fun m : ℕ => (m : ℤ) + 1 := by
  obtain ⟨s, hs, hone, -⟩ := exists_logged
  exact ⟨s, hone, (log_in_order 1 _ s hs).1 0⟩

end OsCoursework.Server.Logging
