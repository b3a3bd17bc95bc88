import OsCoursework.Support.Calls

/-!
# Programs written twice

A program can be written down in terms of two sets of calls, of which one shows more
of what happens than the other.  `Mirrors paired same p q` says that `q` makes the
calls of `p` one by one, each as a call that is `paired` with it, and that both go on
in the same way after answers that are the `same`.  The runs of `q` are then runs of
`p`, and the other way round where every answer of `p` is one of `q`.
-/

namespace OsCoursework.Calls

variable {ο ο' : Type} {ans : ο → Type} {ans' : ο' → Type} {α β σ : Type}

section Mirrors

variable (paired : ο' → Option ο) (same : (o : ο) → (o' : ο') → ans o → ans' o' → Prop)

def Mirrors : Prog ο ans α → Prog ο' ans' α → Prop
  | .pure a, q => q = .pure a
  | .call o next, q => ∃ o' next', q = .call o' next' ∧ paired o' = some o ∧
      ∀ x x', same o o' x x' → Mirrors (next x) (next' x')

/-- What the paired calls do. -/
def Paired (step : σ → (o : ο) → ans o → σ → Prop) (s : σ) (o' : ο') (x' : ans' o')
    (s' : σ) : Prop :=
  ∃ o x, paired o' = some o ∧ same o o' x x' ∧ step s o x s'

end Mirrors

variable {paired : ο' → Option ο} {same : (o : ο) → (o' : ο') → ans o → ans' o' → Prop}
  {step : σ → (o : ο) → ans o → σ → Prop} {p : Prog ο ans α} {q : Prog ο' ans' α}

/-! ## How programs are built -/

theorem Mirrors.pure (a : α) :
    Mirrors paired same (Pure.pure a : Prog ο ans α) (Pure.pure a) :=
  rfl

theorem Mirrors.bind {f : α → Prog ο ans β} {g : α → Prog ο' ans' β}
    (h : Mirrors paired same p q) (hf : ∀ a, Mirrors paired same (f a) (g a)) :
    Mirrors paired same (p >>= f) (q >>= g) := by
  change Mirrors paired same (p.bind f) (q.bind g)
  induction p generalizing q with
  | pure a =>
      obtain rfl := h
      exact hf a
  | call o next ih =>
      obtain ⟨o', next', rfl, ho, hnext⟩ := h
      exact ⟨o', _, rfl, ho, fun x x' hsame => ih x (hnext x x' hsame)⟩

theorem Prog.bind_assoc {γ : Type} (p : Prog ο ans α) (f : α → Prog ο ans β)
    (g : β → Prog ο ans γ) : p >>= f >>= g = p >>= fun a => f a >>= g := by
  change (p.bind f).bind g = p.bind fun a => (f a).bind g
  induction p with
  | pure a => rfl
  | call o next ih => exact congrArg (Prog.call o) (funext ih)

/-- A call in front. -/
theorem Mirrors.call {o : ο} {o' : ο'} {f : ans o → Prog ο ans β}
    {g : ans' o' → Prog ο' ans' β} (ho : paired o' = some o)
    (h : ∀ x x', same o o' x x' → Mirrors paired same (f x) (g x')) :
    Mirrors paired same (Prog.perform o >>= f) (Prog.perform o' >>= g) :=
  ⟨o', _, rfl, ho, h⟩

/-! ## Runs -/

theorem Mirrors.runs (h : Mirrors paired same p q) {s s' : σ} {a : α}
    (hruns : Runs (Paired paired same step) q s a s') : Runs step p s a s' := by
  induction p generalizing q s with
  | pure b =>
      obtain rfl := h
      exact hruns
  | call o next ih =>
      obtain ⟨o', next', rfl, ho, hnext⟩ := h
      obtain ⟨x', s₁, ⟨o₁, x, ho₁, hsame, hstep⟩, hrest⟩ := hruns
      obtain rfl := Option.some.inj (ho.symm.trans ho₁)
      exact ⟨x, s₁, hstep, ih x (hnext x x' hsame) hrest⟩

/-- Where the answers of `p` are always answers of `q`, both have the same runs. -/
theorem Mirrors.runs_iff (h : Mirrors paired same p q) {I : σ → Prop}
    (hI : ∀ s o x s', I s → step s o x s' →
      I s' ∧ ∀ o', paired o' = some o → ∃ x', same o o' x x')
    {s s' : σ} (hs : I s) {a : α} :
    Runs (Paired paired same step) q s a s' ↔ Runs step p s a s' := by
  refine ⟨h.runs, fun hruns => ?_⟩
  induction p generalizing q s with
  | pure b =>
      obtain rfl := h
      exact hruns
  | call o next ih =>
      obtain ⟨o', next', rfl, ho, hnext⟩ := h
      obtain ⟨x, s₁, hstep, hrest⟩ := hruns
      obtain ⟨hs₁, hsame⟩ := hI s o x s₁ hs hstep
      obtain ⟨x', hx'⟩ := hsame o' ho
      exact ⟨x', s₁, ⟨o, x, ho, hx', hstep⟩, ih x (hnext x x' hx') hs₁ hrest⟩

end OsCoursework.Calls
