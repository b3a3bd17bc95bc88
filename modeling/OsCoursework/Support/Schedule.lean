import Mathlib.Algebra.Order.BigOperators.Group.Finset
import OsCoursework.Support.Monitor
import OsCoursework.Support.Transition

/-!
# Schedules

The steps of a program around a mutex, named by the thread that takes them, and
the work that its threads have in front of them.  Work is a sum of ranks, one for
the status of each thread.  A signal wakes at most one sleeper and a broadcast at most
all threads, so each adds at most what these gain by waking up.
-/

namespace OsCoursework.Monitor

open OsCoursework.Transition

variable {T C D : Type*} {O S : T → Type*} [DecidableEq T] [DecidableEq C]

/-! ## Events -/

/-- Which thread takes a step, and which step. -/
inductive Event (T : Type*) where
  | run (t : T)
  | acquire (t : T)
  | leave (t : T)
  | wakeup (t : T)
  deriving DecidableEq

/-- The steps that an event names. -/
inductive Occurs (P : Program T C D O S) :
    Event T → State T C D O S → State T C D O S → Prop where
  | run {s : State T C D O S} {t : T} {o : O t} {d : D} {p : Place (O t) (S t)}
      (hst : s.status t = .running o) (hout : P.outside t o s.data d p) :
      Occurs P (.run t) s ⟨d, s.owner, Function.update s.status t p.status⟩
  | acquire {s : State T C D O S} {t : T} {l : S t}
      (hst : s.status t = .blocked l) (howner : s.owner = none) :
      Occurs P (.acquire t) s
        ⟨s.data, some t, Function.update s.status t (.holding l)⟩
  | leave {s : State T C D O S} {t : T} {l : S t}
      {out : Outcome C (O t) (S t) D} {f : (t : T) → Status C (O t) (S t)}
      (hst : s.status t = .holding l) (howner : s.owner = some t)
      (hin : P.inside t l s.data = some out)
      (hwoken : WokenAll out.wakes s.status f) :
      Occurs P (.leave t) s
        ⟨out.data, none, Function.update f t out.exit.status⟩
  | wakeup {s : State T C D O S} {t : T} {c : C} {l : S t}
      (hst : s.status t = .asleep c l) :
      Occurs P (.wakeup t) s
        ⟨s.data, s.owner, Function.update s.status t (.blocked l)⟩

/-- Events name exactly the steps. -/
theorem step_iff_exists_occurs {P : Program T C D O S} {s s' : State T C D O S} :
    Step P s s' ↔ ∃ e, Occurs P e s s' := by
  constructor
  · intro h
    cases h with
    | run hst hout => exact ⟨_, .run hst hout⟩
    | acquire hst howner => exact ⟨_, .acquire hst howner⟩
    | leave hst howner hin hwoken => exact ⟨_, .leave hst howner hin hwoken⟩
    | wakeup hst => exact ⟨_, .wakeup hst⟩
  · rintro ⟨e, h⟩
    cases h with
    | run hst hout => exact .run hst hout
    | acquire hst howner => exact .acquire hst howner
    | leave hst howner hin hwoken => exact .leave hst howner hin hwoken
    | wakeup hst => exact .wakeup hst

theorem Occurs.step {P : Program T C D O S} {e : Event T} {s s' : State T C D O S}
    (h : Occurs P e s s') : Step P s s' :=
  step_iff_exists_occurs.mpr ⟨e, h⟩

/-- What a run of events leads to is reachable. -/
theorem Reachable.run {P : Program T C D O S} {s₀ s s' : State T C D O S}
    (h : Reachable P s₀ s) {es : List (Event T)} (hrun : Run (Occurs P) es s s') :
    Reachable P s₀ s' :=
  hrun.invariant (fun _ _ _ hs hocc => hs.tail hocc.step) h

/-- Reachable states are what runs of events lead to. -/
theorem Reachable.exists_run {P : Program T C D O S} {s₀ s : State T C D O S}
    (h : Reachable P s₀ s) : ∃ es, Run (Occurs P) es s₀ s := by
  induction h with
  | refl => exact ⟨[], .nil⟩
  | tail _ hstep ih =>
      obtain ⟨es, hrun⟩ := ih
      obtain ⟨e, hocc⟩ := step_iff_exists_occurs.mp hstep
      exact ⟨es ++ [e], hrun.concat hocc⟩

/-- Waking up some waiter is always possible. -/
theorem exists_woken (w : Wake C) (f : (t : T) → Status C (O t) (S t)) :
    ∃ g, Woken w f g := by
  cases w with
  | signal c =>
      by_cases hsome : ∃ t, (f t).AsleepOn c
      · obtain ⟨t, ht⟩ := hsome
        exact ⟨_, .signal ht⟩
      · exact ⟨f, .nobody (not_exists.mp hsome)⟩
  | broadcast c => exact ⟨_, .broadcast⟩

theorem exists_wokenAll (ws : List (Wake C))
    (f : (t : T) → Status C (O t) (S t)) : ∃ g, WokenAll ws f g := by
  induction ws generalizing f with
  | nil => exact ⟨f, .nil⟩
  | cons w ws ih =>
      obtain ⟨g, hw⟩ := exists_woken w f
      obtain ⟨h, hws⟩ := ih g
      exact ⟨h, .cons hw hws⟩

/-- Where the mutex does not move any more, each thread runs outside or sleeps. -/
theorem Exclusive.running_or_asleep {P : Program T C D O S} {s : State T C D O S}
    (h : Exclusive s)
    (hdefined : ∀ t l, s.status t = .holding l →
      ∃ out, P.inside t l s.data = some out)
    (hacquire : ∀ t s', ¬ Occurs P (.acquire t) s s')
    (hleave : ∀ t s', ¬ Occurs P (.leave t) s s') (t : T) :
    (∃ o, s.status t = .running o) ∨ ∃ c l, s.status t = .asleep c l := by
  have hholding (u : T) (l : S u) : s.status u ≠ .holding l := by
    intro hst
    obtain ⟨out, hin⟩ := hdefined u l hst
    obtain ⟨g, hwoken⟩ := exists_wokenAll out.wakes s.status
    exact hleave u _ (.leave hst ((h u).mpr ⟨l, hst⟩) hin hwoken)
  have howner : s.owner = none := by
    cases howner : s.owner with
    | none => rfl
    | some u =>
        obtain ⟨l, hst⟩ := (h u).mp howner
        exact absurd hst (hholding u l)
  cases hst : s.status t with
  | running o => exact Or.inl ⟨o, rfl⟩
  | blocked l => exact absurd (.acquire hst howner) (hacquire t _)
  | holding l => exact absurd hst (hholding t l)
  | asleep c l => exact Or.inr ⟨c, l, rfl⟩

/-! ## Work -/

section Work

variable [Fintype T] (rank : (t : T) → Status C (O t) (S t) → ℕ)

/-- The ranks of all threads together. -/
def work (f : (t : T) → Status C (O t) (S t)) : ℕ :=
  ∑ t, rank t (f t)

omit [DecidableEq C] in
/-- How the work changes when one thread moves. -/
theorem work_update (f : (t : T) → Status C (O t) (S t)) (t : T)
    (st : Status C (O t) (S t)) :
    work rank (Function.update f t st) + rank t (f t) =
      work rank f + rank t st := by
  have hrest : ∑ u ∈ Finset.univ.erase t, rank u (Function.update f t st u) =
      ∑ u ∈ Finset.univ.erase t, rank u (f u) := by
    refine Finset.sum_congr rfl fun u hu => ?_
    rw [Function.update_of_ne (Finset.ne_of_mem_erase hu)]
  rw [work, work, ← Finset.sum_erase_add _ _ (Finset.mem_univ t),
    ← Finset.sum_erase_add _ _ (Finset.mem_univ t), hrest, Function.update_self]
  omega

variable {rank} {f g : (t : T) → Status C (O t) (S t)} {k : ℕ}

/-- How many of `n` threads a call may wake. -/
def Wake.reach (n : ℕ) : Wake C → ℕ
  | .signal _ => 1
  | .broadcast _ => n

theorem Woken.work_le {w : Wake C} (h : Woken w f g)
    (hk : ∀ t c l, rank t (.blocked l) ≤ rank t (.asleep c l) + k) :
    work rank g ≤ work rank f + k * w.reach (Fintype.card T) := by
  have hwake (c : C) (t : T) : rank t ((f t).wakeOn c) ≤ rank t (f t) + k := by
    cases hst : f t with
    | asleep d l =>
        rw [Status.wakeOn]
        split
        · exact hk t d l
        · exact Nat.le_add_right _ _
    | _ => exact Nat.le_add_right _ _
  cases h with
  | @signal c _ t ht =>
      have hmove := work_update rank f t ((f t).wakeOn c)
      have hgain := hwake c t
      rw [Wake.reach]
      omega
  | nobody => exact Nat.le_add_right _ _
  | @broadcast c _ =>
      calc work rank (fun t => (f t).wakeOn c)
        _ ≤ ∑ t, (rank t (f t) + k) := Finset.sum_le_sum fun t _ => hwake c t
        _ = work rank f + k * (Wake.broadcast c).reach (Fintype.card T) := by
            rw [Finset.sum_add_distrib, Finset.sum_const_nat fun _ _ => rfl,
              Finset.card_univ, Nat.mul_comm, work, Wake.reach]

/-- Each call adds at most what the threads it wakes gain by waking up. -/
theorem WokenAll.work_le {ws : List (Wake C)} (h : WokenAll ws f g)
    (hk : ∀ t c l, rank t (.blocked l) ≤ rank t (.asleep c l) + k) :
    work rank g ≤ work rank f + k * (ws.map (Wake.reach (Fintype.card T))).sum := by
  induction h with
  | nil => exact Nat.le_add_right _ _
  | cons hw _ ih =>
      have hfirst := hw.work_le hk
      rw [List.map_cons, List.sum_cons, Nat.mul_add]
      omega

/-- The work after a section: that of its thread is replaced, and its calls have woken
some others. -/
theorem WokenAll.work_update_le (rank : (t : T) → Status C (O t) (S t) → ℕ)
    {ws : List (Wake C)} (h : WokenAll ws f g)
    (hk : ∀ t c l, rank t (.blocked l) ≤ rank t (.asleep c l) + k)
    {t : T} {l : S t} (hst : f t = .holding l) (st : Status C (O t) (S t)) :
    work rank (Function.update g t st) + rank t (.holding l) ≤
      work rank f + rank t st + k * (ws.map (Wake.reach (Fintype.card T))).sum := by
  have hmove := work_update rank g t st
  have hwoken := h.work_le hk
  rw [h.holding_iff.mpr hst] at hmove
  omega

end Work

end OsCoursework.Monitor
