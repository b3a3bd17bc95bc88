import Mathlib.Order.Defs.Unbundled

/-!
# Programs that make calls

A `Prog` is a program that makes calls and goes on with the answers.  What a call
does and what it may answer is a relation `step` between states.  `Runs` are the
complete runs of a program, and `Post p s Q` says that every run of `p` from `s`
ends with `Q`; a call without answers ends the program, so that it has no run.
`Ends p s Q` says moreover that no run gets stuck at such a call.
-/

namespace OsCoursework.Calls

variable {ο : Type} {ans : ο → Type} {α β σ : Type}

/-- A value, or a call and how to go on with its answer. -/
inductive Prog (ο : Type) (ans : ο → Type) (α : Type) where
  | pure (a : α)
  | call (o : ο) (next : ans o → Prog ο ans α)

namespace Prog

def bind : Prog ο ans α → (α → Prog ο ans β) → Prog ο ans β
  | .pure a, f => f a
  | .call o next, f => .call o fun x => (next x).bind f

instance : Monad (Prog ο ans) where
  pure := .pure
  bind := bind

/-- One call. -/
def perform (o : ο) : Prog ο ans (ans o) :=
  .call o .pure

end Prog

open Prog

/-- The runs of a program: where it starts, its value, and where it ends. -/
def Runs (step : σ → (o : ο) → ans o → σ → Prop) : Prog ο ans α → σ → α → σ → Prop
  | .pure a, s, b, s' => b = a ∧ s' = s
  | .call o next, s, b, s'' => ∃ x s', step s o x s' ∧ Runs step (next x) s' b s''

/-- All runs end with the condition. -/
def Post (step : σ → (o : ο) → ans o → σ → Prop) (p : Prog ο ans α) (s : σ)
    (Q : α → σ → Prop) : Prop :=
  ∀ a s', Runs step p s a s' → Q a s'

variable {step : σ → (o : ο) → ans o → σ → Prop} {s : σ} {Q R : α → σ → Prop}

/-! ## Runs of a sequence -/

theorem runs_bind {p : Prog ο ans α} {f : α → Prog ο ans β} {b : β} {s'' : σ} :
    Runs step (p >>= f) s b s'' ↔
      ∃ a s', Runs step p s a s' ∧ Runs step (f a) s' b s'' := by
  change Runs step (p.bind f) s b s'' ↔ _
  induction p generalizing s with
  | pure a =>
      constructor
      · intro h
        exact ⟨a, s, ⟨rfl, rfl⟩, h⟩
      · rintro ⟨a', s', ⟨rfl, rfl⟩, h⟩
        exact h
  | call o next ih =>
      constructor
      · rintro ⟨x, s₁, hstep, h⟩
        obtain ⟨a, s', hp, hf⟩ := (ih x).mp h
        exact ⟨a, s', ⟨x, s₁, hstep, hp⟩, hf⟩
      · rintro ⟨a, s', ⟨x, s₁, hstep, hp⟩, hf⟩
        exact ⟨x, s₁, hstep, (ih x).mpr ⟨a, s', hp, hf⟩⟩

theorem runs_perform {o : ο} {x : ans o} {s' : σ} :
    Runs step (perform o) s x s' ↔ step s o x s' := by
  constructor
  · rintro ⟨y, s₁, hstep, rfl, rfl⟩
    exact hstep
  · intro hstep
    exact ⟨x, s', hstep, rfl, rfl⟩

theorem Runs.seq {p : Prog ο ans α} {f : α → Prog ο ans β} {a : α} {b : β} {s' s'' : σ}
    (hp : Runs step p s a s') (hf : Runs step (f a) s' b s'') :
    Runs step (p >>= f) s b s'' :=
  runs_bind.mpr ⟨a, s', hp, hf⟩

theorem Runs.call {o : ο} {f : ans o → Prog ο ans β} {x : ans o} {b : β} {s' s'' : σ}
    (hstep : step s o x s') (hf : Runs step (f x) s' b s'') :
    Runs step (perform o >>= f) s b s'' :=
  Runs.seq (runs_perform.mpr hstep) hf

theorem Runs.mono {step' : σ → (o : ο) → ans o → σ → Prop} {p : Prog ο ans α} {a : α}
    {s' : σ} (h : Runs step p s a s')
    (hstep : ∀ s o x s', step s o x s' → step' s o x s') : Runs step' p s a s' := by
  induction p generalizing s with
  | pure b => exact h
  | call o next ih =>
      obtain ⟨x, s₁, hcall, hrest⟩ := h
      exact ⟨x, s₁, hstep s o x s₁ hcall, ih x hrest⟩

/-! ## Rules -/

theorem Post.pure {a : α} (h : Q a s) : Post step (Pure.pure a) s Q := by
  rintro _ _ ⟨rfl, rfl⟩
  exact h

theorem Post.bind {p : Prog ο ans α} {f : α → Prog ο ans β} {Q : β → σ → Prop}
    (h : Post step p s fun a s' => Post step (f a) s' Q) :
    Post step (p >>= f) s Q := by
  intro b s'' hruns
  obtain ⟨a, s', hp, hf⟩ := runs_bind.mp hruns
  exact h a s' hp b s'' hf

theorem Post.perform {o : ο} {Q : ans o → σ → Prop}
    (h : ∀ x s', step s o x s' → Q x s') : Post step (perform o) s Q :=
  fun x s' hruns => h x s' (runs_perform.mp hruns)

theorem Post.mono {p : Prog ο ans α} (h : Post step p s Q)
    (hmono : ∀ a s', Q a s' → R a s') : Post step p s R :=
  fun a s' hruns => hmono a s' (h a s' hruns)

theorem Post.and {p : Prog ο ans α} (h : Post step p s Q) (h' : Post step p s R) :
    Post step p s fun a s' => Q a s' ∧ R a s' :=
  fun a s' hruns => ⟨h a s' hruns, h' a s' hruns⟩

/-- A sequence whose first part ends with `R`. -/
theorem Post.seq {p : Prog ο ans α} {f : α → Prog ο ans β} {Q : β → σ → Prop}
    (hp : Post step p s R) (hf : ∀ a s', R a s' → Post step (f a) s' Q) :
    Post step (p >>= f) s Q :=
  Post.bind (hp.mono hf)

/-- A sequence whose second part ends with the condition wherever it starts. -/
theorem Post.after {p : Prog ο ans α} {f : α → Prog ο ans β} {Q : β → σ → Prop}
    (hf : ∀ a s', Post step (f a) s' Q) : Post step (p >>= f) s Q :=
  Post.bind fun a s' _ => hf a s'

/-- A call in front. -/
theorem Post.call {o : ο} {f : ans o → Prog ο ans β} {Q : β → σ → Prop}
    (h : ∀ x s', step s o x s' → Post step (f x) s' Q) :
    Post step (Prog.perform o >>= f) s Q :=
  Post.bind (Post.perform h)

/-! ## Runs that do not get stuck -/

/-- Every run comes to its end, and ends with the condition. -/
def Ends (step : σ → (o : ο) → ans o → σ → Prop) :
    Prog ο ans α → σ → (α → σ → Prop) → Prop
  | .pure a, s, Q => Q a s
  | .call o next, s, Q =>
      (∃ x s', step s o x s') ∧ ∀ x s', step s o x s' → Ends step (next x) s' Q

theorem Ends.pure {a : α} (h : Q a s) : Ends step (Pure.pure a) s Q :=
  h

theorem Ends.perform {o : ο} {Q : ans o → σ → Prop} (hstep : ∃ x s', step s o x s')
    (h : ∀ x s', step s o x s' → Q x s') : Ends step (Prog.perform o) s Q :=
  ⟨hstep, h⟩

theorem Ends.mono {p : Prog ο ans α} (h : Ends step p s Q)
    (hmono : ∀ a s', Q a s' → R a s') : Ends step p s R := by
  induction p generalizing s with
  | pure a => exact hmono a s h
  | call o next ih => exact ⟨h.1, fun x s' hstep => ih x (h.2 x s' hstep)⟩

/-- A sequence whose first part ends with `R`. -/
theorem Ends.seq {p : Prog ο ans α} {f : α → Prog ο ans β} {Q : β → σ → Prop}
    (hp : Ends step p s R) (hf : ∀ a s', R a s' → Ends step (f a) s' Q) :
    Ends step (p >>= f) s Q := by
  change Ends step (p.bind f) s Q
  induction p generalizing s with
  | pure a => exact hf a s hp
  | call o next ih => exact ⟨hp.1, fun x s' hstep => ih x (hp.2 x s' hstep)⟩

/-- A call in front. -/
theorem Ends.call {o : ο} {f : ans o → Prog ο ans β} {Q : β → σ → Prop}
    (hstep : ∃ x s', step s o x s')
    (h : ∀ x s', step s o x s' → Ends step (f x) s' Q) :
    Ends step (Prog.perform o >>= f) s Q :=
  Ends.seq (Ends.perform hstep h) fun _ _ hf => hf

theorem Ends.post {p : Prog ο ans α} (h : Ends step p s Q) : Post step p s Q := by
  induction p generalizing s with
  | pure a =>
      rintro _ _ ⟨rfl, rfl⟩
      exact h
  | call o next ih =>
      rintro a s'' ⟨x, s', hstep, hruns⟩
      exact ih x (h.2 x s' hstep) a s'' hruns

theorem Ends.exists_run {p : Prog ο ans α} (h : Ends step p s Q) :
    ∃ a s', Runs step p s a s' := by
  induction p generalizing s with
  | pure a => exact ⟨a, s, rfl, rfl⟩
  | call o next ih =>
      obtain ⟨⟨x, s', hstep⟩, hnext⟩ := h
      obtain ⟨a, s'', hruns⟩ := ih x (hnext x s' hstep)
      exact ⟨a, s'', x, s', hstep, hruns⟩

/-! ## Calls of one kind -/

/-- The program makes only calls of the kind `C`. -/
def Prog.Makes (C : ο → Prop) : Prog ο ans α → Prop
  | .pure _ => True
  | .call o next => C o ∧ ∀ x, (next x).Makes C

variable {C : ο → Prop}

theorem Prog.Makes.pure {a : α} : (Pure.pure a : Prog ο ans α).Makes C :=
  trivial

theorem Prog.Makes.perform {o : ο} (h : C o) : (Prog.perform o : Prog ο ans _).Makes C :=
  ⟨h, fun _ => trivial⟩

theorem Prog.Makes.bind {p : Prog ο ans α} {f : α → Prog ο ans β} (hp : p.Makes C)
    (hf : ∀ a, (f a).Makes C) : (p >>= f).Makes C := by
  change (p.bind f).Makes C
  induction p with
  | pure a => exact hf a
  | call o next ih => exact ⟨hp.1, fun x => ih x (hp.2 x)⟩

theorem Prog.Makes.call {o : ο} {f : ans o → Prog ο ans β} (ho : C o)
    (hf : ∀ x, (f x).Makes C) : (Prog.perform o >>= f).Makes C :=
  Prog.Makes.bind (Prog.Makes.perform ho) hf

theorem Prog.Makes.mono {C' : ο → Prop} {p : Prog ο ans α} (hp : p.Makes C)
    (h : ∀ o, C o → C' o) : p.Makes C' := by
  induction p with
  | pure a => trivial
  | call o next ih => exact ⟨h o hp.1, fun x => ih x (hp.2 x)⟩

/-- What every call of a kind does, a whole run of such calls does. -/
theorem Prog.Makes.rel {R : σ → σ → Prop} [IsPreorder σ R] {p : Prog ο ans α}
    (hp : p.Makes C) (hstep : ∀ s o x s', C o → step s o x s' → R s s') {a : α} {s' : σ}
    (hruns : Runs step p s a s') : R s s' := by
  induction p generalizing s with
  | pure b =>
      obtain ⟨-, rfl⟩ := hruns
      exact Std.Refl.refl s'
  | call o next ih =>
      obtain ⟨x, s₁, hcall, hrest⟩ := hruns
      exact IsTrans.trans s s₁ s' (hstep s o x s₁ hp.1 hcall) (ih x (hp.2 x) hrest)

/-- A program whose calls are always answered does not get stuck. -/
theorem Post.ends {p : Prog ο ans α} (h : Post step p s Q) (hp : p.Makes C)
    (hstep : ∀ s o, C o → ∃ x s', step s o x s') : Ends step p s Q := by
  induction p generalizing s with
  | pure a => exact h a s ⟨rfl, rfl⟩
  | call o next ih =>
      refine ⟨hstep s o hp.1, fun x s' hcall => ih x (fun a s'' hruns => ?_) (hp.2 x)⟩
      exact h a s'' ⟨x, s', hcall, hruns⟩

end OsCoursework.Calls
