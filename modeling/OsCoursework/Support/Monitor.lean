import Mathlib.Algebra.BigOperators.Group.Finset.Piecewise
import Mathlib.Data.Fintype.Basic
import Mathlib.Logic.Relation

/-!
# Threads around a mutex

A program is a family of threads that share data under one mutex.  A thread is
either outside the mutex, where it may act on its own, or inside a locked
section, which runs to its end in one step: the section changes the data, wakes
waiters of condition variables, and then unlocks or goes to sleep on a
condition.  The mutex, its owner and the wait sets are explicit, a signal wakes
one arbitrary waiter, and a sleeping thread may wake up at any time.

`AtomicStep` is the same program without mutex and wait sets: only the data and
the places of the threads remain.  `Step.simulates` relates the two levels, so an
invariant of data and places has to be checked for the atomic steps only.
-/

namespace OsCoursework.Monitor

/-! ## Programs -/

/-- Where a thread is in its code: outside the mutex, or at a locked section. -/
inductive Place (O S : Type*) where
  | outside (o : O)
  | inside (l : S)
  deriving DecidableEq

/-- What a thread does at its place. -/
inductive Status (C O S : Type*) where
  | running (o : O)
  | blocked (l : S)
  | holding (l : S)
  | asleep (c : C) (l : S)
  deriving DecidableEq

/-- How a locked section ends. -/
inductive Exit (C O S : Type*) where
  | unlock (p : Place O S)
  | wait (c : C) (l : S)

/-- A call that wakes waiters of a condition. -/
inductive Wake (C : Type*) where
  | signal (c : C)
  | broadcast (c : C)

/-- What a locked section did. -/
structure Outcome (C O S D : Type*) where
  data : D
  wakes : List (Wake C)
  exit : Exit C O S

/-- The code of the threads `T`.  A section is undefined where its body is. -/
structure Program (T C D : Type*) (O S : T → Type*) where
  inside : (t : T) → S t → D → Option (Outcome C (O t) (S t) D)
  outside : (t : T) → O t → D → D → Place (O t) (S t) → Prop

/-- A state of the program. -/
structure State (T C D : Type*) (O S : T → Type*) where
  data : D
  owner : Option T
  status : (t : T) → Status C (O t) (S t)

variable {C O S : Type*}

/-- A thread on its way to a place. -/
def Place.status : Place O S → Status C O S
  | .outside o => .running o
  | .inside l => .blocked l

def Status.place : Status C O S → Place O S
  | .running o => .outside o
  | .blocked l => .inside l
  | .holding l => .inside l
  | .asleep _ l => .inside l

def Exit.status : Exit C O S → Status C O S
  | .unlock p => p.status
  | .wait c l => .asleep c l

def Exit.place : Exit C O S → Place O S
  | .unlock p => p
  | .wait _ l => .inside l

/-- The condition that a section ends by waiting for. -/
def Exit.waits : Exit C O S → Option C
  | .unlock _ => none
  | .wait c _ => some c

/-- The thread is in the wait set of `c`. -/
def Status.AsleepOn (c : C) : Status C O S → Prop
  | .asleep d _ => d = c
  | _ => False

instance [DecidableEq C] (c : C) : (st : Status C O S) →
    Decidable (st.AsleepOn c)
  | .running _ => inferInstanceAs (Decidable False)
  | .blocked _ => inferInstanceAs (Decidable False)
  | .holding _ => inferInstanceAs (Decidable False)
  | .asleep d _ => inferInstanceAs (Decidable (d = c))

/-- Leave the wait set of `c`, if in it, and queue for the mutex. -/
def Status.wakeOn [DecidableEq C] (c : C) : Status C O S → Status C O S
  | .asleep d l => if d = c then .blocked l else .asleep d l
  | st => st

@[simp] theorem Place.place_status (p : Place O S) :
    (p.status : Status C O S).place = p := by
  cases p <;> rfl

@[simp] theorem Exit.place_status (e : Exit C O S) : e.status.place = e.place := by
  cases e with
  | unlock p => exact p.place_status
  | wait c l => rfl

theorem Place.not_asleepOn (p : Place O S) (c : C) :
    ¬ (p.status : Status C O S).AsleepOn c := by
  cases p <;> exact id

theorem Status.asleepOn_iff {c : C} {st : Status C O S} :
    st.AsleepOn c ↔ ∃ l, st = .asleep c l := by
  cases st <;> simp [Status.AsleepOn]

theorem Status.asleepOn_self (c : C) (l : S) :
    (Status.asleep c l : Status C O S).AsleepOn c :=
  rfl

theorem Exit.status_asleepOn_iff {e : Exit C O S} {c : C} :
    e.status.AsleepOn c ↔ e.waits = some c := by
  cases e with
  | unlock p => simp [Exit.status, Exit.waits, p.not_asleepOn]
  | wait d l => simp [Exit.status, Exit.waits, Status.AsleepOn]

section Wake

variable [DecidableEq C] (c : C) (st : Status C O S)

@[simp] theorem Status.place_wakeOn : (st.wakeOn c).place = st.place := by
  cases st with
  | asleep d l =>
      rw [Status.wakeOn]
      split <;> rfl
  | _ => rfl

theorem Status.wakeOn_eq_holding_iff {l : S} :
    st.wakeOn c = .holding l ↔ st = .holding l := by
  cases st with
  | asleep d l =>
      rw [Status.wakeOn]
      split <;> simp
  | _ => simp [Status.wakeOn]

theorem Status.wakeOn_asleepOn_iff {d : C} :
    (st.wakeOn c).AsleepOn d ↔ st.AsleepOn d ∧ d ≠ c := by
  cases st with
  | asleep e l =>
      by_cases hec : e = c
      · subst hec
        simp only [Status.wakeOn, if_true, Status.AsleepOn, false_iff, not_and,
          not_not]
        exact Eq.symm
      · simp only [Status.wakeOn, if_neg hec, Status.AsleepOn]
        constructor
        · rintro rfl
          exact ⟨rfl, hec⟩
        · exact And.left
  | _ => simp [Status.wakeOn, Status.AsleepOn]

/-- Waking up changes nothing else about where a thread sleeps. -/
theorem Status.wakeOn_eq_asleep {d : C} {l : S} (h : st.wakeOn c = .asleep d l) :
    st = .asleep d l := by
  cases st with
  | asleep e k =>
      rw [Status.wakeOn] at h
      split at h
      · cases h
      · exact h
  | _ => cases h

end Wake

/-! ## Steps -/

section Steps

variable {T C D : Type*} {O S : T → Type*} [DecidableEq T] [DecidableEq C]

/-- One call that wakes: a signal wakes some waiter, or nobody if there is none;
a broadcast wakes all. -/
inductive Woken : Wake C → ((t : T) → Status C (O t) (S t)) →
    ((t : T) → Status C (O t) (S t)) → Prop where
  | signal {c : C} {f : (t : T) → Status C (O t) (S t)} {t : T}
      (h : (f t).AsleepOn c) :
      Woken (.signal c) f (Function.update f t ((f t).wakeOn c))
  | nobody {c : C} {f : (t : T) → Status C (O t) (S t)}
      (h : ∀ t, ¬ (f t).AsleepOn c) : Woken (.signal c) f f
  | broadcast {c : C} {f : (t : T) → Status C (O t) (S t)} :
      Woken (.broadcast c) f fun t => (f t).wakeOn c

/-- A sequence of calls that wake. -/
inductive WokenAll : List (Wake C) → ((t : T) → Status C (O t) (S t)) →
    ((t : T) → Status C (O t) (S t)) → Prop where
  | nil {f : (t : T) → Status C (O t) (S t)} : WokenAll [] f f
  | cons {w : Wake C} {ws : List (Wake C)}
      {f g h : (t : T) → Status C (O t) (S t)} (hw : Woken w f g)
      (hws : WokenAll ws g h) : WokenAll (w :: ws) f h

/-- One step of one thread. -/
inductive Step (P : Program T C D O S) : State T C D O S → State T C D O S →
    Prop where
  | run {s : State T C D O S} {t : T} {o : O t} {d : D} {p : Place (O t) (S t)}
      (hst : s.status t = .running o) (hout : P.outside t o s.data d p) :
      Step P s ⟨d, s.owner, Function.update s.status t p.status⟩
  | acquire {s : State T C D O S} {t : T} {l : S t}
      (hst : s.status t = .blocked l) (howner : s.owner = none) :
      Step P s ⟨s.data, some t, Function.update s.status t (.holding l)⟩
  | leave {s : State T C D O S} {t : T} {l : S t}
      {out : Outcome C (O t) (S t) D} {f : (t : T) → Status C (O t) (S t)}
      (hst : s.status t = .holding l) (howner : s.owner = some t)
      (hin : P.inside t l s.data = some out)
      (hwoken : WokenAll out.wakes s.status f) :
      Step P s ⟨out.data, none, Function.update f t out.exit.status⟩
  | wakeup {s : State T C D O S} {t : T} {c : C} {l : S t}
      (hst : s.status t = .asleep c l) :
      Step P s ⟨s.data, s.owner, Function.update s.status t (.blocked l)⟩

/-- The states that runs from `s₀` lead to. -/
def Reachable (P : Program T C D O S) (s₀ s : State T C D O S) : Prop :=
  Relation.ReflTransGen (Step P) s₀ s

/-- What every step preserves holds in every reachable state. -/
theorem Reachable.invariant {P : Program T C D O S} {s₀ s : State T C D O S}
    (h : Reachable P s₀ s) {I : State T C D O S → Prop} (hinit : I s₀)
    (hstep : ∀ s s', I s → Step P s s' → I s') : I s := by
  induction h with
  | refl => exact hinit
  | tail _ hlast ih => exact hstep _ _ ih hlast

/-- What waking up preserves about a thread, any calls that wake preserve. -/
theorem WokenAll.forall {ws : List (Wake C)}
    {f g : (t : T) → Status C (O t) (S t)} (h : WokenAll ws f g)
    {t : T} {R : Status C (O t) (S t) → Prop}
    (hR : ∀ c st, R st → R (st.wakeOn c)) (hf : R (f t)) : R (g t) := by
  induction h with
  | nil => exact hf
  | cons hw _ ih =>
      apply ih
      cases hw with
      | @signal c f u hu =>
          by_cases htu : t = u
          · subst htu
            rw [Function.update_self]
            exact hR _ _ hf
          · rwa [Function.update_of_ne htu]
      | nobody => exact hf
      | broadcast => exact hR _ _ hf

theorem WokenAll.place_eq {ws : List (Wake C)}
    {f g : (t : T) → Status C (O t) (S t)} (h : WokenAll ws f g) (t : T) :
    (g t).place = (f t).place :=
  h.forall (R := fun st => st.place = (f t).place)
    (fun c st hst => (st.place_wakeOn c).trans hst) rfl

theorem WokenAll.holding_iff {ws : List (Wake C)}
    {f g : (t : T) → Status C (O t) (S t)} (h : WokenAll ws f g) {t : T}
    {l : S t} : g t = .holding l ↔ f t = .holding l :=
  h.forall (R := fun st => st = .holding l ↔ f t = .holding l)
    (fun c st hst => (st.wakeOn_eq_holding_iff c).trans hst) Iff.rfl

theorem WokenAll.eq_asleep {ws : List (Wake C)}
    {f g : (t : T) → Status C (O t) (S t)} (h : WokenAll ws f g) {t : T} {c : C}
    {l : S t} : g t = .asleep c l → f t = .asleep c l :=
  h.forall (R := fun st => st = .asleep c l → f t = .asleep c l)
    (fun d st hst heq => hst (st.wakeOn_eq_asleep d heq)) id

/-! ## The mutex -/

/-- The owner of the mutex is the one thread that holds it. -/
def Exclusive (s : State T C D O S) : Prop :=
  ∀ t, s.owner = some t ↔ ∃ l, s.status t = .holding l

omit [DecidableEq C] in
/-- A thread that does not hold the mutex, before or after, moves on. -/
theorem Exclusive.update {s : State T C D O S} (h : Exclusive s) {t : T}
    {st : Status C (O t) (S t)} (d : D)
    (hbefore : ∀ l, s.status t ≠ .holding l) (hafter : ∀ l, st ≠ .holding l) :
    Exclusive (⟨d, s.owner, Function.update s.status t st⟩ :
      State T C D O S) := by
  intro u
  by_cases hut : u = t
  · subst hut
    apply (h u).trans
    simp only [Function.update_self, hbefore, hafter]
  · simp only [Function.update_of_ne hut]
    exact h u

theorem Place.status_ne_holding {C O S : Type*} (p : Place O S) (l : S) :
    (p.status : Status C O S) ≠ .holding l := by
  cases p <;> simp [Place.status]

theorem Exit.status_ne_holding {C O S : Type*} (e : Exit C O S) (l : S) :
    e.status ≠ .holding l := by
  cases e with
  | unlock p => exact p.status_ne_holding l
  | wait c k => simp [Exit.status]

theorem Step.exclusive {P : Program T C D O S} {s s' : State T C D O S}
    (hstep : Step P s s') (h : Exclusive s) : Exclusive s' := by
  cases hstep with
  | run hst _ =>
      exact h.update _ (by simp [hst]) fun l => Place.status_ne_holding _ l
  | @acquire t l hst howner =>
      intro u
      by_cases hut : u = t
      · subst hut
        simp
      · have hnone : ¬ ∃ k, s.status u = .holding k := by
          rw [← h u, howner]
          simp
        simp only [Function.update_of_ne hut, hnone, Option.some.injEq,
          Ne.symm hut]
  | @leave t l out f hst howner _ hwoken =>
      intro u
      by_cases hut : u = t
      · subst hut
        simp [Exit.status_ne_holding]
      · have hnone : ¬ ∃ k, s.status u = .holding k := by
          rw [← h u, howner]
          simpa using Ne.symm hut
        simp only [Function.update_of_ne hut, hwoken.holding_iff, hnone,
          reduceCtorEq]
  | wakeup hst => exact h.update _ (by simp [hst]) (by simp)

theorem Reachable.exclusive {P : Program T C D O S} {s₀ s : State T C D O S}
    (h : Reachable P s₀ s) (hinit : Exclusive s₀) : Exclusive s :=
  h.invariant hinit fun _ _ hex hstep => hstep.exclusive hex

/-! ## Atomic sections -/

/-- What remains of a state without mutex and wait sets. -/
structure Config (T D : Type*) (O S : T → Type*) where
  data : D
  place : (t : T) → Place (O t) (S t)

def State.config (s : State T C D O S) : Config T D O S :=
  ⟨s.data, fun t => (s.status t).place⟩

/-- One step of one thread, its locked sections being atomic. -/
inductive AtomicStep (P : Program T C D O S) : Config T D O S →
    Config T D O S → Prop where
  | outside {x : Config T D O S} {t : T} {o : O t} {d : D}
      {p : Place (O t) (S t)} (hplace : x.place t = .outside o)
      (hout : P.outside t o x.data d p) :
      AtomicStep P x ⟨d, Function.update x.place t p⟩
  | inside {x : Config T D O S} {t : T} {l : S t}
      {out : Outcome C (O t) (S t) D} (hplace : x.place t = .inside l)
      (hin : P.inside t l x.data = some out) :
      AtomicStep P x ⟨out.data, Function.update x.place t out.exit.place⟩

omit [DecidableEq C] in
theorem place_update (f : (t : T) → Status C (O t) (S t)) (t : T)
    (st : Status C (O t) (S t)) :
    (fun u => (Function.update f t st u).place) =
      Function.update (fun u => (f u).place) t st.place := by
  funext u
  by_cases hut : u = t
  · subst hut
    simp
  · simp [Function.update_of_ne hut]

/-- Every step is an atomic step or changes neither data nor places. -/
theorem Step.simulates {P : Program T C D O S} {s s' : State T C D O S}
    (hstep : Step P s s') :
    s'.config = s.config ∨ AtomicStep P s.config s'.config := by
  -- Queueing for the mutex, taking it and waking up leave a thread in place.
  have hstay {t : T} {st : Status C (O t) (S t)} {owner : Option T}
      (hst : st.place = (s.status t).place) :
      (⟨s.data, owner, Function.update s.status t st⟩ :
        State T C D O S).config = s.config := by
    simp only [State.config, place_update, hst, Function.update_eq_self]
  cases hstep with
  | run hst hout =>
      right
      simp only [State.config, place_update, Place.place_status]
      exact AtomicStep.outside (x := s.config) (by simp [State.config, hst, Status.place]) hout
  | acquire hst _ => exact Or.inl (hstay (by simp [hst, Status.place]))
  | leave hst _ hin hwoken =>
      right
      simp only [State.config, place_update, Exit.place_status,
        hwoken.place_eq]
      exact AtomicStep.inside (x := s.config) (by simp [State.config, hst, Status.place]) hin
  | wakeup hst => exact Or.inl (hstay (by simp [hst, Status.place]))

/-- What every atomic step preserves holds in every reachable state. -/
theorem Reachable.atomic_invariant {P : Program T C D O S}
    {s₀ s : State T C D O S} (h : Reachable P s₀ s)
    {I : Config T D O S → Prop} (hinit : I s₀.config)
    (hstep : ∀ x x', I x → AtomicStep P x x' → I x') : I s.config := by
  refine h.invariant (I := fun s => I s.config) hinit ?_
  intro s s' hI hs
  rcases hs.simulates with heq | hatomic
  · rwa [heq]
  · exact hstep _ _ hI hatomic

/-- A thread sleeps only where one of its sections waits. -/
theorem Reachable.asleep {P : Program T C D O S} {s₀ s : State T C D O S}
    (h : Reachable P s₀ s) {R : (t : T) → C → S t → Prop}
    (hinit : ∀ t c l, s₀.status t = .asleep c l → R t c l)
    (hwait : ∀ t l d out c k, P.inside t l d = some out →
      out.exit = .wait c k → R t c k) :
    ∀ t c l, s.status t = .asleep c l → R t c l := by
  have hupdate {f : (t : T) → Status C (O t) (S t)} {t : T}
      {st : Status C (O t) (S t)}
      (hf : ∀ u c l, f u = .asleep c l → R u c l)
      (hst : ∀ c l, st = .asleep c l → R t c l) :
      ∀ u c l, Function.update f t st u = .asleep c l → R u c l := by
    intro u c l
    by_cases hut : u = t
    · subst hut
      rw [Function.update_self]
      exact hst c l
    · rw [Function.update_of_ne hut]
      exact hf u c l
  refine h.invariant
    (I := fun s => ∀ t c l, s.status t = .asleep c l → R t c l) hinit ?_
  intro s s' hI hs
  cases hs with
  | @run t o d p hst _ =>
      refine hupdate hI fun c l heq => ?_
      exact absurd (Status.asleepOn_iff.mpr ⟨l, heq⟩) (p.not_asleepOn c)
  | acquire _ _ => exact hupdate hI fun c l heq => by cases heq
  | @leave t l out f _ _ hin hwoken =>
      refine hupdate (fun u c k heq => hI u c k (hwoken.eq_asleep heq)) ?_
      intro c k heq
      cases hexit : out.exit with
      | unlock p =>
          rw [hexit] at heq
          exact absurd (Status.asleepOn_iff.mpr ⟨k, heq⟩) (p.not_asleepOn c)
      | wait d j =>
          rw [hexit] at heq
          cases heq
          exact hwait t l _ out c k hin hexit
  | wakeup _ => exact hupdate hI fun c l heq => by cases heq

end Steps

/-! ## Counting threads -/

section Counting

variable {T : Type*} [Fintype T] [DecidableEq T]

/-- How a count of threads changes when one of them moves. -/
theorem card_filter_update {α : T → Type*} (p : (t : T) → α t → Prop)
    [∀ t x, Decidable (p t x)] (f : (t : T) → α t) (t : T) (x : α t) :
    (Finset.univ.filter fun u => p u (Function.update f t x u)).card +
        (if p t (f t) then 1 else 0) =
      (Finset.univ.filter fun u => p u (f u)).card + (if p t x then 1 else 0) := by
  have hrest : ∑ u ∈ Finset.univ.erase t,
        (if p u (Function.update f t x u) then 1 else 0) =
      ∑ u ∈ Finset.univ.erase t, (if p u (f u) then 1 else 0) := by
    refine Finset.sum_congr rfl fun u hu => ?_
    rw [Function.update_of_ne (Finset.ne_of_mem_erase hu)]
  rw [Finset.card_filter, Finset.card_filter,
    ← Finset.sum_erase_add _ _ (Finset.mem_univ t),
    ← Finset.sum_erase_add _ _ (Finset.mem_univ t), hrest,
    Function.update_self]
  omega

variable {C : Type*} {O S : T → Type*} [DecidableEq C]

/-- The wait set of the condition `c`. -/
def sleepers (c : C) (f : (t : T) → Status C (O t) (S t)) : Finset T :=
  Finset.univ.filter fun t => (f t).AsleepOn c

omit [DecidableEq T] in
theorem mem_sleepers {c : C} {f : (t : T) → Status C (O t) (S t)} {t : T} :
    t ∈ sleepers c f ↔ (f t).AsleepOn c := by
  simp [sleepers]

/-- The wait set after one thread moved. -/
theorem card_sleepers_update (c : C) (f : (t : T) → Status C (O t) (S t)) (t : T)
    (st : Status C (O t) (S t)) :
    (sleepers c (Function.update f t st)).card +
        (if (f t).AsleepOn c then 1 else 0) =
      (sleepers c f).card + (if st.AsleepOn c then 1 else 0) :=
  card_filter_update (fun _ st => Status.AsleepOn c st) f t st

/-- The size of the wait set of `c` after a call that wakes. -/
def Wake.remaining (c : C) : Wake C → ℕ → ℕ
  | .signal d, n => if d = c then n - 1 else n
  | .broadcast d, n => if d = c then 0 else n

theorem Woken.card_sleepers {w : Wake C} {f g : (t : T) → Status C (O t) (S t)}
    (h : Woken w f g) (c : C) :
    (sleepers c g).card = w.remaining c (sleepers c f).card := by
  cases h with
  | @signal d f t ht =>
      have hcount := card_sleepers_update c f t ((f t).wakeOn d)
      rw [Wake.remaining]
      by_cases hdc : d = c
      · subst hdc
        simp only [Status.wakeOn_asleepOn_iff, ht, ne_eq, not_true_eq_false,
          and_false, if_true, if_false] at hcount ⊢
        omega
      · have hcd : c ≠ d := Ne.symm hdc
        simp only [Status.wakeOn_asleepOn_iff, hcd, ne_eq, not_false_eq_true,
          and_true, hdc, if_false] at hcount ⊢
        omega
  | @nobody d f hnone =>
      rw [Wake.remaining]
      split
      · next hdc =>
        subst hdc
        have hempty : sleepers d f = ∅ :=
          Finset.filter_eq_empty_iff.mpr fun t _ => hnone t
        simp [hempty]
      · rfl
  | @broadcast d f =>
      rw [Wake.remaining]
      split
      · next hdc =>
        subst hdc
        rw [Finset.card_eq_zero]
        exact Finset.filter_eq_empty_iff.mpr fun t _ => by
          simp [Status.wakeOn_asleepOn_iff]
      · next hdc =>
        have hcd : c ≠ d := Ne.symm hdc
        simp only [sleepers, Status.wakeOn_asleepOn_iff, hcd, ne_eq,
          not_false_eq_true, and_true]

/-- The size of the wait set of `c` after a sequence of calls that wake. -/
theorem WokenAll.card_sleepers {ws : List (Wake C)}
    {f g : (t : T) → Status C (O t) (S t)} (h : WokenAll ws f g) (c : C) :
    (sleepers c g).card =
      ws.foldl (fun n w => w.remaining c n) (sleepers c f).card := by
  induction h with
  | nil => rfl
  | cons hw _ ih => rw [ih, List.foldl_cons, hw.card_sleepers]

section Leave

variable {ws : List (Wake C)} {f g : (t : T) → Status C (O t) (S t)} {t : T}
  {l : S t} {c : C} {st : Status C (O t) (S t)}

/-- The wait set of `c` after a section whose thread does not wait for `c`. -/
theorem WokenAll.card_sleepers_awake (h : WokenAll ws f g)
    (hst : f t = .holding l) (hawake : ¬ st.AsleepOn c) :
    (sleepers c (Function.update g t st)).card =
      ws.foldl (fun n w => w.remaining c n) (sleepers c f).card := by
  have hbefore : ¬ (g t).AsleepOn c := by
    rw [h.holding_iff.mpr hst]
    exact id
  have hcount := card_sleepers_update c g t st
  rw [if_neg hbefore, if_neg hawake] at hcount
  rw [← h.card_sleepers]
  exact hcount

/-- The wait set of `c` after a section whose thread waits for `c`. -/
theorem WokenAll.card_sleepers_asleep (h : WokenAll ws f g)
    (hst : f t = .holding l) (hasleep : st.AsleepOn c) :
    (sleepers c (Function.update g t st)).card =
      ws.foldl (fun n w => w.remaining c n) (sleepers c f).card + 1 := by
  have hbefore : ¬ (g t).AsleepOn c := by
    rw [h.holding_iff.mpr hst]
    exact id
  have hcount := card_sleepers_update c g t st
  rw [if_neg hbefore, if_pos hasleep] at hcount
  rw [← h.card_sleepers]
  exact hcount

end Leave

end Counting

end OsCoursework.Monitor
