import Mathlib.Logic.Relation
import OsCoursework.Support.Calls

/-!
# Interrupted programs

A program is run call by call.  `Advance` makes its next call; `Move` may also
interrupt it: the handler runs to its end, and the program goes on where it was.
`Follows` is a simulation of the interrupted program by the program alone, one
relation for each call that is waited for, with a condition on the calls that are
made on the way; `Follows.reach` is what it says about whole runs.
-/

namespace OsCoursework.Calls

open Relation

variable {ο : Type} {ans : ο → Type} {α β σ : Type}

/-- The next call of a program. -/
inductive Advance (step : σ → (o : ο) → ans o → σ → Prop) :
    Prog ο ans α × σ → Prog ο ans α × σ → Prop where
  | call {o : ο} {next : ans o → Prog ο ans α} {s s' : σ} {x : ans o}
      (hstep : step s o x s') : Advance step (.call o next, s) (next x, s')

/-- The next call of a program, or a run of the handler. -/
inductive Move (step : σ → (o : ο) → ans o → σ → Prop) (handler : Prog ο ans Unit) :
    Prog ο ans α × σ → Prog ο ans α × σ → Prop where
  | call {o : ο} {next : ans o → Prog ο ans α} {s s' : σ} {x : ans o}
      (hstep : step s o x s') : Move step handler (.call o next, s) (next x, s')
  | interrupt {p : Prog ο ans α} {s s' : σ} (hruns : Runs step handler s () s') :
      Move step handler (p, s) (p, s')

variable {step : σ → (o : ο) → ans o → σ → Prop} {handler : Prog ο ans Unit}
  {p : Prog ο ans α} {s s' t t' : σ}

/-! ## Runs, call by call -/

theorem runs_iff_advance {a : α} :
    Runs step p s a s' ↔ ReflTransGen (Advance step) (p, s) (.pure a, s') := by
  constructor
  · intro h
    induction p generalizing s with
    | pure b =>
        obtain ⟨rfl, rfl⟩ := h
        exact .refl
    | call o next ih =>
        obtain ⟨x, s₁, hstep, hrest⟩ := h
        exact .head (.call hstep) (ih x hrest)
  · intro h
    generalize hc : (p, s) = c at h
    induction h using ReflTransGen.head_induction_on generalizing p s with
    | refl =>
        obtain ⟨rfl, rfl⟩ := Prod.mk.inj hc
        exact ⟨rfl, rfl⟩
    | head hmove _ ih =>
        cases hmove with
        | call hstep =>
            obtain ⟨rfl, rfl⟩ := Prod.mk.inj hc
            exact ⟨_, _, hstep, ih rfl⟩

/-- The first part of a sequence is run to its end. -/
theorem Runs.advance {f : α → Prog ο ans β} {a : α} (h : Runs step p s a s') :
    ReflTransGen (Advance step) (p >>= f, s) (f a, s') := by
  change ReflTransGen (Advance step) (p.bind f, s) (f a, s')
  induction p generalizing s with
  | pure b =>
      obtain ⟨rfl, rfl⟩ := h
      exact .refl
  | call o next ih =>
      obtain ⟨x, s₁, hstep, hrest⟩ := h
      exact .head (.call hstep) (ih x hrest)

/-- The first part of a sequence is run for a while. -/
theorem Advance.seq {q : Prog ο ans α} {f : α → Prog ο ans β}
    (h : ReflTransGen (Advance step) (p, s) (q, s')) :
    ReflTransGen (Advance step) (p >>= f, s) (q >>= f, s') :=
  h.lift (fun c => (c.1 >>= f, c.2)) fun _ _ hadvance => by
    cases hadvance with
    | call hstep => exact @Advance.call _ _ _ _ _ _ (fun x => _ >>= f) _ _ _ hstep

/-- A run that is not interrupted. -/
theorem Advance.moves {c c' : Prog ο ans α × σ} (h : ReflTransGen (Advance step) c c') :
    ReflTransGen (Move step handler) c c' := by
  induction h with
  | refl => exact .refl
  | tail _ hadvance ih =>
      cases hadvance with
      | call hstep => exact ih.tail (.call hstep)

/-! ## The calls of a program -/

/-- The condition holds of every call that the program comes to. -/
def Guards (step : σ → (o : ο) → ans o → σ → Prop) (P : σ → ο → Prop) :
    Prog ο ans α → σ → Prop
  | .pure _, _ => True
  | .call o next, s => P s o ∧ ∀ x s', step s o x s' → Guards step P (next x) s'

variable {P : σ → ο → Prop}

theorem Guards.call {o : ο} {f : ans o → Prog ο ans β} (ho : P s o)
    (hf : ∀ x s', step s o x s' → Guards step P (f x) s') :
    Guards step P (Prog.perform o >>= f) s :=
  ⟨ho, hf⟩

theorem Guards.makes {C : ο → Prop} (hp : p.Makes C) (hC : ∀ s o, C o → P s o) :
    Guards step P p s := by
  induction p generalizing s with
  | pure a => trivial
  | call o next ih => exact ⟨hC s o hp.1, fun x s' _ => ih x (hp.2 x)⟩

theorem Guards.reach {c : Prog ο ans α × σ} (h : Guards step P p s)
    (hrun : ReflTransGen (Advance step) (p, s) c) {o : ο} {next : ans o → Prog ο ans α}
    (hc : c.1 = .call o next) : P c.2 o := by
  have hguards : Guards step P c.1 c.2 := by
    clear hc
    induction hrun with
    | refl => exact h
    | tail _ hadvance ih =>
        cases hadvance with
        | call hstep => exact ih.2 _ _ hstep
  rw [hc] at hguards
  exact hguards.1

/-- The first part of a sequence ends with `Q`. -/
theorem Guards.seq {f : α → Prog ο ans β} {Q : α → σ → Prop} (hp : Guards step P p s)
    (hpost : Post step p s Q) (hf : ∀ a s', Q a s' → Guards step P (f a) s') :
    Guards step P (p >>= f) s := by
  change Guards step P (p.bind f) s
  induction p generalizing s with
  | pure a => exact hf a s (hpost a s ⟨rfl, rfl⟩)
  | call o next ih =>
      refine ⟨hp.1, fun x s' hstep => ih x (hp.2 x s' hstep) fun a s'' hruns => ?_⟩
      exact hpost a s'' ⟨x, s', hstep, hruns⟩

/-- The state with the calls made so far. -/
def Recorded (step : σ → (o : ο) → ans o → σ → Prop) (w : σ × List ο) (o : ο) (x : ans o)
    (w' : σ × List ο) : Prop :=
  step w.1 o x w'.1 ∧ w'.2 = w.2 ++ [o]

theorem Runs.recorded {a : α} (h : Runs step p s a s') (calls : List ο) :
    ∃ calls', Runs (Recorded step) p (s, calls) a (s', calls') := by
  induction p generalizing s calls with
  | pure b =>
      obtain ⟨rfl, rfl⟩ := h
      exact ⟨calls, rfl, rfl⟩
  | call o next ih =>
      obtain ⟨x, s₁, hstep, hrest⟩ := h
      obtain ⟨calls', hruns⟩ := ih x hrest (calls ++ [o])
      exact ⟨calls', x, (s₁, calls ++ [o]), ⟨hstep, rfl⟩, hruns⟩

theorem Post.recorded {Q : α → σ → Prop} (h : Post step p s Q) (calls : List ο) :
    Post (Recorded step) p (s, calls) fun a w => Q a w.1 := by
  intro a w hruns
  induction p generalizing s calls with
  | pure b =>
      obtain ⟨rfl, rfl⟩ := hruns
      exact h a s ⟨rfl, rfl⟩
  | call o next ih =>
      obtain ⟨x, ⟨s₁, calls₁⟩, ⟨hstep, -⟩, hrest⟩ := hruns
      exact ih x (fun b s' hb => h b s' ⟨x, s₁, hstep, hb⟩) calls₁ hrest

/-- What is recorded of calls of a kind. -/
theorem Prog.Makes.recorded {C : ο → Prop} (hp : p.Makes C) (calls : List ο) :
    Post (Recorded step) p (s, calls) fun _ w =>
      ∃ new, w.2 = calls ++ new ∧ ∀ o ∈ new, C o := by
  intro a w hruns
  induction p generalizing s calls with
  | pure b =>
      obtain ⟨rfl, rfl⟩ := hruns
      exact ⟨[], by simp⟩
  | call o next ih =>
      obtain ⟨x, ⟨s₁, calls₁⟩, ⟨-, rfl⟩, hrest⟩ := hruns
      obtain ⟨new, hnew, hC⟩ := ih x (hp.2 x) _ hrest
      refine ⟨o :: new, by simp [hnew], fun o' ho' => ?_⟩
      rcases List.mem_cons.mp ho' with rfl | ho'
      · exact hp.1
      · exact hC o' ho'

/-! ## Simulation -/

/-- A condition that the handler keeps. -/
def Stable (step : σ → (o : ο) → ans o → σ → Prop) (handler : Prog ο ans Unit)
    (R : σ → Prop) : Prop :=
  ∀ t t', R t → Runs step handler t () t' → R t'

/-- The program from `s` can do what it does from `t` with interrupts, up to answers
that it does not tell apart; `F` holds at each of its calls, and `S` at its end. -/
def Follows (step : σ → (o : ο) → ans o → σ → Prop) (handler : Prog ο ans Unit)
    (F : σ → σ → ο → Prop) : Prog ο ans α → σ → σ → (σ → σ → Prop) → Prop
  | .pure _, s, t, S => S s t
  | .call o next, s, t, S => ∃ R : σ → Prop, Stable step handler R ∧ R t ∧
      ∀ t, R t → F s t o ∧ ∀ x t', step t o x t' →
        ∃ y s', step s o y s' ∧ next y = next x ∧
          Follows step handler F (next x) s' t' S

variable {F : σ → σ → ο → Prop} {R S : σ → σ → Prop}

namespace Follows

theorem pure {a : α} (h : S s t) :
    Follows step handler F (Pure.pure a : Prog ο ans α) s t S :=
  h

theorem perform {o : ο} {R : σ → Prop} (hR : Stable step handler R) (ht : R t)
    (hF : ∀ t, R t → F s t o)
    (hstep : ∀ t x t', R t → step t o x t' → ∃ s', step s o x s' ∧ S s' t') :
    Follows step handler F (Prog.perform o) s t S :=
  ⟨R, hR, ht, fun t ht => ⟨hF t ht, fun x t' hcall =>
    let ⟨s', hcall', hS⟩ := hstep t x t' ht hcall
    ⟨x, s', hcall', rfl, hS⟩⟩⟩

/-- A sequence whose first part ends with `R`. -/
theorem seq {f : α → Prog ο ans β} (hp : Follows step handler F p s t R)
    (hf : ∀ a s' t', R s' t' → Follows step handler F (f a) s' t' S) :
    Follows step handler F (p >>= f) s t S := by
  change Follows step handler F (p.bind f) s t S
  induction p generalizing s t with
  | pure a => exact hf a s t hp
  | call o next ih =>
      obtain ⟨R', hR', ht, hcall⟩ := hp
      refine ⟨R', hR', ht, fun t ht => ⟨(hcall t ht).1, fun x t' hstep => ?_⟩⟩
      obtain ⟨y, s', hstep', hy, hnext⟩ := (hcall t ht).2 x t' hstep
      exact ⟨y, s', hstep', congrArg (Prog.bind · f) hy, ih x hnext⟩

/-- A call in front, whose answer the rest may not tell from the one followed. -/
theorem call {o : ο} {f : ans o → Prog ο ans β} {R : σ → Prop}
    (hR : Stable step handler R) (ht : R t) (hF : ∀ t, R t → F s t o)
    (hstep : ∀ t x t', R t → step t o x t' →
      ∃ y s', step s o y s' ∧ f y = f x ∧ Follows step handler F (f x) s' t' S) :
    Follows step handler F (Prog.perform o >>= f) s t S :=
  ⟨R, hR, ht, fun t ht => ⟨hF t ht, fun x t' hcall => hstep t x t' ht hcall⟩⟩

theorem mono (h : Follows step handler F p s t R) (hmono : ∀ s t, R s t → S s t) :
    Follows step handler F p s t S := by
  induction p generalizing s t with
  | pure a => exact hmono s t h
  | call o next ih =>
      obtain ⟨R', hR', ht, hcall⟩ := h
      refine ⟨R', hR', ht, fun t ht => ⟨(hcall t ht).1, fun x t' hstep => ?_⟩⟩
      obtain ⟨y, s', hstep', hy, hnext⟩ := (hcall t ht).2 x t' hstep
      exact ⟨y, s', hstep', hy, ih x hnext⟩

/-- What holds at the end of every run of the program alone holds of the state
that is followed. -/
theorem and_post {Q : α → σ → Prop} {I : σ → Prop} (h : Follows step handler F p s t S)
    (hpost : Post step p s Q) (hI : ∀ a s', Q a s' → I s') :
    Follows step handler F p s t fun s' t' => S s' t' ∧ I s' := by
  induction p generalizing s t with
  | pure a => exact ⟨h, hI a s (hpost a s ⟨rfl, rfl⟩)⟩
  | call o next ih =>
      obtain ⟨R', hR', ht, hcall⟩ := h
      refine ⟨R', hR', ht, fun t ht => ⟨(hcall t ht).1, fun x t' hstep => ?_⟩⟩
      obtain ⟨y, s', hstep', hy, hnext⟩ := (hcall t ht).2 x t' hstep
      refine ⟨y, s', hstep', hy, ih x hnext fun a s'' hruns => ?_⟩
      exact hpost a s'' ⟨y, s', hstep', hy ▸ hruns⟩

/-- One move of the interrupted program is followed. -/
theorem move {q : Prog ο ans α} (hS : ∀ s, Stable step handler (S s))
    (h : Follows step handler F p s t S) (hmove : Move step handler (p, t) (q, t')) :
    ∃ s', ReflTransGen (Advance step) (p, s) (q, s') ∧
      Follows step handler F q s' t' S := by
  cases hmove with
  | call hstep =>
      obtain ⟨R', -, ht, hcall⟩ := h
      obtain ⟨y, s', hstep', hy, hnext⟩ := (hcall t ht).2 _ _ hstep
      exact ⟨s', .single (hy ▸ .call hstep'), hnext⟩
  | interrupt hruns =>
      refine ⟨s, .refl, ?_⟩
      cases p with
      | pure a => exact hS s t t' h hruns
      | call o next =>
          obtain ⟨R', hR', ht, hcall⟩ := h
          exact ⟨R', hR', hR' t t' ht hruns, hcall⟩

/-- Wherever the interrupted program comes, the program alone can come, `F` holds of
the next call, and `S` at the end. -/
theorem reach {c : Prog ο ans α × σ} (hS : ∀ s, Stable step handler (S s))
    (h : Follows step handler F p s t S)
    (hmoves : ReflTransGen (Move step handler) (p, t) c) :
    ∃ s', ReflTransGen (Advance step) (p, s) (c.1, s') ∧
      (∀ o next, c.1 = .call o next → F s' c.2 o) ∧
      ∀ a, c.1 = .pure a → S s' c.2 := by
  have hfollows : ∃ s', ReflTransGen (Advance step) (p, s) (c.1, s') ∧
      Follows step handler F c.1 s' c.2 S := by
    induction hmoves with
    | refl => exact ⟨s, .refl, h⟩
    | tail _ hmove ih =>
        obtain ⟨s₁, hadvance, h₁⟩ := ih
        obtain ⟨s₂, hadvance', h₂⟩ := h₁.move hS hmove
        exact ⟨s₂, hadvance.trans hadvance', h₂⟩
  obtain ⟨s', hadvance, hfollows⟩ := hfollows
  refine ⟨s', hadvance, fun o next hq => ?_, fun a hq => ?_⟩
  · rw [hq] at hfollows
    obtain ⟨R', -, ht, hcall⟩ := hfollows
    exact (hcall _ ht).1
  · rw [hq] at hfollows
    exact hfollows

end Follows

end OsCoursework.Calls
