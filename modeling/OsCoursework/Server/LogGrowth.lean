import OsCoursework.Server.Record

/-!
# How far the log can grow

`add_to_log` doubles an `int` until the new text fits.  The capacities are
`1024 * 2 ^ k`; the last of them that an `int` holds is `2 ^ 30`, its double
wraps to `-2 ^ 31`, the double of that to `0`, and `0` stays `0`.  So the loop
ends exactly as long as the text and its NUL stay below `2 ^ 30`.
-/

namespace OsCoursework.Server

open Logging (grows_frame copyEntry_spec advance_spec terminate_spec)

/-! ## Calls of `add_to_log` -/

/-- `add_to_log` between `writer_lock` and `writer_unlock`. -/
def AddsToLog (log : LogBuffer) (entry : Text) (log' : LogBuffer) : Prop :=
  ∃ grown copied advanced, Grows log entry.length grown ∧
    copyEntry grown entry = some copied ∧
    advance copied entry.length = some advanced ∧
    terminate advanced = some log'

/-- Calls of `add_to_log`, one after the other. -/
inductive AddAllToLog : LogBuffer → List Text → LogBuffer → Prop where
  | nil (log : LogBuffer) : AddAllToLog log [] log
  | cons {log log₁ log' : LogBuffer} {entry : Text} {entries : List Text}
      (head : AddsToLog log entry log₁)
      (tail : AddAllToLog log₁ entries log') :
      AddAllToLog log (entry :: entries) log'

/-- The doubling loop ends, and the text, the new entry and the NUL fit the
capacity it ends with. -/
def MakesRoom (log : LogBuffer) (len : ℕ) : Prop :=
  ∃ grown, Grows log len grown ∧ 0 ≤ grown.length + len + 1 ∧
    grown.length + len + 1 < grown.capacity

/-- Each of these calls makes room for its entry. -/
def GrowthSafe (log : LogBuffer) (entries : List Text) : Prop :=
  ∀ done entry rest, entries = done ++ entry :: rest →
    ∀ log', AddAllToLog log done log' → MakesRoom log' entry.length

/-- The entries that calls with these statistics add. -/
def logEntries (calls : List (ThreadsStats × TimeStats)) : List Text :=
  calls.map fun c => logEntry c.1 c.2

/-! ## The loop -/

/-- A capacity the loop can reach without overflow. -/
def IsCapacity (c : ℤ) : Prop :=
  ∃ k ≤ 20, c = 1024 * 2 ^ k

theorem pow_le_pow_two {j k : ℕ} (h : j ≤ k) : (2 : ℤ) ^ j ≤ 2 ^ k := by
  exact_mod_cast Nat.pow_le_pow_right (by decide) h

theorem IsCapacity.bounds {c : ℤ} (h : IsCapacity c) :
    1024 ≤ c ∧ c ≤ 1073741824 := by
  obtain ⟨k, hk, rfl⟩ := h
  have hlow := pow_le_pow_two (Nat.zero_le k)
  have hhigh := pow_le_pow_two hk
  constructor
  · omega
  · omega

/-- A double is a capacity again, or the first negative value. -/
theorem IsCapacity.wrap_double {c : ℤ} (h : IsCapacity c) :
    (c < 1073741824 ∧ wrap (c * 2) = c * 2 ∧ IsCapacity (c * 2)) ∨
      (c = 1073741824 ∧ wrap (c * 2) = -2147483648) := by
  have hbounds := h.bounds
  obtain ⟨k, hk, rfl⟩ := h
  rcases Nat.eq_or_lt_of_le hk with rfl | hlt
  · right
    decide
  · left
    have hpow := pow_le_pow_two (Nat.succ_le_of_lt hlt)
    rw [Int.pow_succ] at hpow
    refine ⟨by omega, wrap_of_lt (by omega) (by omega), k + 1, hlt, ?_⟩
    rw [Int.pow_succ]
    omega

/-- Below `2 ^ 30` the loop ends with a capacity that is large enough. -/
theorem growLoop_of_lt {need : ℤ} (hneed : need < 1073741824) {k : ℕ}
    (hk : k ≤ 20) :
    ∃ fuel c, growLoop need fuel (1024 * 2 ^ (20 - k)) = some c ∧
      IsCapacity c ∧ need < c := by
  induction k with
  | zero =>
      have hlast : (1024 * 2 ^ (20 - 0) : ℤ) = 1073741824 := by decide
      rw [hlast]
      exact ⟨1, _, by rw [growLoop, if_neg (by omega)],
        ⟨20, Nat.le_refl _, by decide⟩, hneed⟩
  | succ k ih =>
      have hcap : IsCapacity (1024 * 2 ^ (20 - (k + 1))) :=
        ⟨20 - (k + 1), Nat.sub_le _ _, rfl⟩
      rcases lt_or_ge need (1024 * 2 ^ (20 - (k + 1))) with hlt | hge
      · exact ⟨1, _, by rw [growLoop, if_neg (by omega)], hcap, hlt⟩
      · obtain ⟨fuel, c, hrun, hpost⟩ := ih (by omega)
        have hdouble : (1024 * 2 ^ (20 - (k + 1)) : ℤ) * 2 =
            1024 * 2 ^ (20 - k) := by
          have hsucc : 20 - k = 20 - (k + 1) + 1 := by omega
          rw [hsucc, Int.pow_succ]
          omega
        have hwrap : wrap (1024 * 2 ^ (20 - (k + 1)) * 2) =
            1024 * 2 ^ (20 - k) := by
          rcases hcap.wrap_double with ⟨-, heq, -⟩ | ⟨heq, -⟩
          · rw [heq, hdouble]
          · omega
        exact ⟨fuel + 1, c, by rw [growLoop, if_pos hge, hwrap, hrun], hpost⟩

/-- The values the loop runs through: the capacities, a negative one, `0`. -/
def OnChain (c : ℤ) : Prop :=
  IsCapacity c ∨ c = -2147483648 ∨ c = 0

theorem OnChain.le {c : ℤ} (h : OnChain c) : c ≤ 1073741824 := by
  rcases h with hcap | rfl | rfl
  · exact hcap.bounds.2
  · decide
  · decide

theorem OnChain.wrap_double {c : ℤ} (h : OnChain c) : OnChain (wrap (c * 2)) := by
  rcases h with hcap | rfl | rfl
  · rcases hcap.wrap_double with ⟨-, heq, hdouble⟩ | ⟨-, heq⟩
    · rw [heq]
      exact Or.inl hdouble
    · exact Or.inr (Or.inl heq)
  · exact Or.inr (Or.inr rfl)
  · exact Or.inr (Or.inr rfl)

/-- From `2 ^ 30` on the loop never ends. -/
theorem growLoop_of_ge {need : ℤ} (hneed : 1073741824 ≤ need) (fuel : ℕ) {c : ℤ}
    (hc : OnChain c) : growLoop need fuel c = none := by
  induction fuel generalizing c with
  | zero => rfl
  | succ fuel ih =>
      rw [growLoop, if_pos (hc.le.trans hneed)]
      exact ih hc.wrap_double

/-- When the loop ends, it ends on the chain and above what is needed. -/
theorem growLoop_spec {need : ℤ} {fuel : ℕ} {c c' : ℤ} (hc : OnChain c)
    (h : growLoop need fuel c = some c') : OnChain c' ∧ need < c' := by
  induction fuel generalizing c with
  | zero => cases h
  | succ fuel ih =>
      rw [growLoop] at h
      split at h
      · exact ih hc.wrap_double h
      · next hlt =>
        cases h
        exact ⟨hc, not_le.mp hlt⟩

/-! ## One call -/

section Buffer

variable {log log' : LogBuffer} {entry : Text}

theorem copyEntry_le (h : copyEntry log entry = some log') :
    log.length + entry.length ≤ log.capacity := by
  rw [copyEntry] at h
  split at h
  · next hfits => exact hfits.2
  · cases h

theorem copyEntry_capacity (h : copyEntry log entry = some log') :
    log'.capacity = log.capacity := by
  rw [copyEntry] at h
  split at h
  · cases h
    rfl
  · cases h

theorem advance_capacity {len : ℕ} (h : advance log len = some log') :
    log'.capacity = log.capacity := by
  obtain ⟨length, -, h⟩ := Option.bind_eq_some_iff.mp h
  cases h
  rfl

theorem terminate_capacity (h : terminate log = some log') :
    log'.capacity = log.capacity := by
  rw [terminate] at h
  split at h
  · cases h
    rfl
  · cases h

theorem exists_copyEntry (hnonneg : 0 ≤ log.length)
    (hle : log.length + entry.length ≤ log.capacity) :
    ∃ log', copyEntry log entry = some log' :=
  ⟨_, if_pos ⟨hnonneg, hle⟩⟩

theorem exists_advance {len : ℕ} (hnonneg : 0 ≤ log.length)
    (hle : log.length + len ≤ 2147483647) : ∃ log', advance log len = some log' := by
  refine ⟨{ log with length := log.length + len }, ?_⟩
  rw [advance, int, if_pos ⟨by omega, hle⟩]
  rfl

theorem exists_terminate (hnonneg : 0 ≤ log.length)
    (hlt : log.length < log.capacity) : ∃ log', terminate log = some log' :=
  ⟨_, if_pos ⟨hnonneg, hlt⟩⟩

end Buffer

/-- The state of the buffer between two calls. -/
structure LogInv (log : LogBuffer) : Prop where
  capacity : IsCapacity log.capacity
  length_nonneg : 0 ≤ log.length
  room : log.length + 1 < log.capacity

theorem createLog_inv (stale : ℕ → Char) : LogInv (createLog stale) :=
  ⟨⟨0, Nat.zero_le _, rfl⟩, Int.le_refl 0,
    show (0 : ℤ) + 1 < initialCapacity by decide⟩

namespace LogInv

variable {log log' : LogBuffer} {len : ℕ} {entry : Text}

theorem length_lt (h : LogInv log) : log.length + 1 < 1073741824 :=
  h.room.trans_le h.capacity.bounds.2

theorem wrap_need (h : LogInv log) (hlt : log.length + len + 1 < 2147483648) :
    wrap (log.length + len + 1) = log.length + len + 1 := by
  have hlength := h.length_nonneg
  exact wrap_of_lt (by omega) hlt

/-- When the text stays below `2 ^ 30`, the loop ends with room for it. -/
theorem grows (h : LogInv log) (hlt : log.length + len + 1 < 1073741824) :
    ∃ grown, Grows log len grown ∧ IsCapacity grown.capacity ∧
      log.length + len + 1 < grown.capacity := by
  obtain ⟨k, hk, hcapacity⟩ := h.capacity
  obtain ⟨fuel, c, hrun, hcap, hroom⟩ := growLoop_of_lt hlt (Nat.sub_le 20 k)
  rw [Nat.sub_sub_self hk, ← hcapacity] at hrun
  refine ⟨{ log with capacity := c }, ⟨fuel, c, ?_, rfl⟩, hcap, hroom⟩
  rw [h.wrap_need (by omega), hrun]

/-- Otherwise it does not end. -/
theorem not_grows (h : LogInv log) (hge : 1073741824 ≤ log.length + len + 1)
    (hlt : log.length + len + 1 < 2147483648) : ¬ Grows log len log' := by
  rintro ⟨fuel, c, hrun, -⟩
  rw [h.wrap_need hlt, growLoop_of_ge hge fuel (Or.inl h.capacity)] at hrun
  cases hrun

/-- A call makes room exactly when the text stays below `2 ^ 30`. -/
theorem makesRoom_iff (h : LogInv log) :
    MakesRoom log len ↔ log.length + len + 1 < 1073741824 := by
  constructor
  · rintro ⟨grown, ⟨fuel, c, hrun, rfl⟩, -, hroom⟩
    obtain ⟨hc, -⟩ := growLoop_spec (Or.inl h.capacity) hrun
    exact hroom.trans_le hc.le
  · intro hlt
    obtain ⟨grown, hgrows, -, hroom⟩ := h.grows hlt
    obtain ⟨-, hlength⟩ := grows_frame hgrows
    have hnonneg := h.length_nonneg
    rw [← hlength] at hroom hnonneg
    exact ⟨grown, hgrows, by omega, hroom⟩

/-- A call that returns has appended its entry, and the text is still below
`2 ^ 30`. -/
theorem addsToLog (h : LogInv log) (hadds : AddsToLog log entry log') :
    LogInv log' ∧ log'.length = log.length + entry.length ∧
      log'.content = log.content ++ entry := by
  obtain ⟨grown, copied, advanced, hgrows, hcopy, hadvance, hterm⟩ := hadds
  have hnonneg := h.length_nonneg
  obtain ⟨fuel, c, hrun, rfl⟩ := hgrows
  obtain ⟨hc, hneed⟩ := growLoop_spec (Or.inl h.capacity) hrun
  obtain ⟨hlength₂, -, hcopied⟩ := copyEntry_spec hcopy
  obtain ⟨hbuffer, hlength₃, -⟩ := advance_spec hadvance
  obtain ⟨hlength₄, hcontent⟩ := terminate_spec hterm
  have hfits : log.length + entry.length ≤ c := copyEntry_le hcopy
  have hcapacity : log'.capacity = c := by
    rw [terminate_capacity hterm, advance_capacity hadvance,
      copyEntry_capacity hcopy]
  have hle := hc.le
  rw [h.wrap_need (by omega)] at hneed
  dsimp only at hlength₂ hcopied
  have hlength : log'.length = log.length + entry.length := by omega
  refine ⟨⟨?_, by omega, by omega⟩, hlength, ?_⟩
  · rw [hcapacity]
    rcases hc with hcap | rfl | rfl
    · exact hcap
    · omega
    · omega
  · have htoNat : advanced.length.toNat = log.length.toNat + entry.length := by
      omega
    rw [hcontent, LogBuffer.content, hbuffer, htoNat]
    exact hcopied

/-- A call that keeps the text below `2 ^ 30` returns. -/
theorem exists_addsToLog (h : LogInv log)
    (hlt : log.length + entry.length + 1 < 1073741824) :
    ∃ log', AddsToLog log entry log' := by
  have hnonneg := h.length_nonneg
  obtain ⟨grown, hgrows, hc, hroom⟩ := h.grows hlt
  obtain ⟨-, hlength⟩ := grows_frame hgrows
  have hle := hc.bounds.2
  have hfits : grown.length + entry.length ≤ grown.capacity := by omega
  obtain ⟨copied, hcopy⟩ := exists_copyEntry (by omega) hfits
  have hlength₂ := (copyEntry_spec hcopy).1
  have hcapacity₂ := copyEntry_capacity hcopy
  have hint : copied.length + entry.length ≤ 2147483647 := by omega
  obtain ⟨advanced, hadvance⟩ := exists_advance (by omega) hint
  have hlength₃ := (advance_spec hadvance).2.1
  have hcapacity₃ := advance_capacity hadvance
  have hnul : advanced.length < advanced.capacity := by omega
  obtain ⟨log', hterm⟩ := exists_terminate (by omega) hnul
  exact ⟨log', grown, copied, advanced, hgrows, hcopy, hadvance, hterm⟩

end LogInv

/-! ## All calls -/

/-- The number of bytes in these entries. -/
def totalLength (entries : List Text) : ℕ :=
  entries.flatten.length

@[simp] theorem totalLength_nil : totalLength [] = 0 := rfl

@[simp] theorem totalLength_cons (entry : Text) (entries : List Text) :
    totalLength (entry :: entries) = entry.length + totalLength entries := by
  rw [totalLength, List.flatten_cons, List.length_append, totalLength]

variable {log : LogBuffer} {entries : List Text}

/-- The first call makes room, and so do the others after it. -/
theorem growthSafe_cons {entry : Text} :
    GrowthSafe log (entry :: entries) ↔ MakesRoom log entry.length ∧
      ∀ log₁, AddsToLog log entry log₁ → GrowthSafe log₁ entries := by
  constructor
  · intro h
    refine ⟨h [] entry entries rfl log (AddAllToLog.nil log), ?_⟩
    intro log₁ hadds done next rest heq log' hrun
    exact h (entry :: done) next rest (congrArg _ heq) log'
      (AddAllToLog.cons hadds hrun)
  · rintro ⟨hfirst, hrest⟩ done next rest heq log' hrun
    cases hrun with
    | nil =>
        obtain ⟨rfl, -⟩ := List.cons.inj heq
        exact hfirst
    | cons hadds htail =>
        obtain ⟨rfl, htail_eq⟩ := List.cons.inj heq
        exact hrest _ hadds _ _ _ htail_eq _ htail

/-- All calls make room exactly when the whole text stays below `2 ^ 30`. -/
theorem LogInv.growthSafe_iff (h : LogInv log) :
    GrowthSafe log entries ↔
      log.length + totalLength entries + 1 < 1073741824 := by
  induction entries generalizing log with
  | nil =>
      have hlt := h.length_lt
      refine iff_of_true ?_ ?_
      · intro done entry rest heq
        cases done with
        | nil => cases heq
        | cons head tail => cases heq
      · rw [totalLength_nil]
        omega
  | cons entry entries ih =>
      rw [growthSafe_cons, h.makesRoom_iff, totalLength_cons]
      constructor
      · rintro ⟨hlt, hrest⟩
        obtain ⟨log₁, hadds⟩ := h.exists_addsToLog hlt
        obtain ⟨h₁, hlength, -⟩ := h.addsToLog hadds
        have hsafe := (ih h₁).mp (hrest log₁ hadds)
        omega
      · intro hlt
        refine ⟨by omega, fun log₁ hadds => ?_⟩
        obtain ⟨h₁, hlength, -⟩ := h.addsToLog hadds
        exact (ih h₁).mpr (by omega)

/-- Then every call returns and the log holds all entries. -/
theorem LogInv.exists_addAllToLog (h : LogInv log)
    (hlt : log.length + totalLength entries + 1 < 1073741824) :
    ∃ log', AddAllToLog log entries log' ∧
      log'.content = log.content ++ entries.flatten := by
  induction entries generalizing log with
  | nil => exact ⟨log, AddAllToLog.nil log, (List.append_nil _).symm⟩
  | cons entry entries ih =>
      rw [totalLength_cons] at hlt
      have hfirst : log.length + entry.length + 1 < 1073741824 := by omega
      obtain ⟨log₁, hadds⟩ := h.exists_addsToLog hfirst
      obtain ⟨h₁, hlength, hcontent⟩ := h.addsToLog hadds
      obtain ⟨log', hrun, hall⟩ := ih h₁ (by omega)
      refine ⟨log', AddAllToLog.cons hadds hrun, ?_⟩
      rw [hall, hcontent, List.flatten_cons, List.append_assoc]

/-- Otherwise some call never returns: its loop does not end. -/
theorem LogInv.exists_hanging (h : LogInv log)
    (hsmall : ∀ entry ∈ entries, entry.length ≤ 8192)
    (hge : 1073741824 ≤ log.length + totalLength entries + 1) :
    ∃ done entry rest, entries = done ++ entry :: rest ∧
      ∃ log', AddAllToLog log done log' ∧
        ∀ grown, ¬ Grows log' entry.length grown := by
  induction entries generalizing log with
  | nil =>
      have hlt := h.length_lt
      rw [totalLength_nil] at hge
      omega
  | cons entry entries ih =>
      rw [totalLength_cons] at hge
      have hlt := h.length_lt
      have hentry := hsmall entry List.mem_cons_self
      rcases lt_or_ge (log.length + entry.length + 1) 1073741824 with hfits | hover
      · obtain ⟨log₁, hadds⟩ := h.exists_addsToLog hfits
        obtain ⟨h₁, hlength, -⟩ := h.addsToLog hadds
        obtain ⟨done, next, rest, rfl, log', hrun, hhangs⟩ :=
          ih h₁ (fun e he => hsmall e (List.mem_cons_of_mem _ he)) (by omega)
        exact ⟨entry :: done, next, rest, rfl, log',
          AddAllToLog.cons hadds hrun, hhangs⟩
      · exact ⟨[], entry, entries, rfl, log, AddAllToLog.nil log,
          fun grown => h.not_grows hover (by omega)⟩

/-- Every call makes room for its entry exactly when all entries together, with
the NUL, stay below `2 ^ 30` bytes. -/
theorem log_growthSafe_iff (stale : ℕ → Char)
    (calls : List (ThreadsStats × TimeStats)) :
    GrowthSafe (createLog stale) (logEntries calls) ↔
      totalLength (logEntries calls) + 1 < 1073741824 := by
  have hzero : (createLog stale).length = 0 := rfl
  rw [(createLog_inv stale).growthSafe_iff, hzero]
  omega

/-- Five million requests with small counters and times. -/
def manyCalls : List (ThreadsStats × TimeStats) :=
  List.replicate 5000000
    (⟨1, 1, 0, 0, 1⟩, ⟨⟨1700000000, 0⟩, ⟨0, 0⟩, ⟨1700000000, 0⟩, ⟨1700000000, 0⟩⟩)

theorem not_growthSafe_manyCalls :
    ¬ GrowthSafe (createLog fun _ => 'x') (logEntries manyCalls) := by
  have hentry : (logEntry ⟨1, 1, 0, 0, 1⟩ ⟨⟨1700000000, 0⟩, ⟨0, 0⟩,
      ⟨1700000000, 0⟩, ⟨1700000000, 0⟩⟩).length = 262 := by
    decide +kernel
  have htotal : totalLength (logEntries manyCalls) = 5000000 * 262 := by
    rw [totalLength, logEntries, manyCalls, List.map_replicate, List.length_flatten,
      List.map_replicate, List.sum_replicate_nat, hentry]
  have hzero : (createLog fun _ => 'x').length = 0 := rfl
  rw [(createLog_inv _).growthSafe_iff, hzero, htotal]
  decide

end OsCoursework.Server
