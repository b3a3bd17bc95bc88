import Mathlib.Algebra.GroupWithZero.Nat
import Mathlib.Data.List.Basic

/-!
# Labelled runs

Runs of a system whose steps carry labels.  An invariant of the steps is an
invariant of the runs; a potential that every step lowers, up to the credit of
its label, bounds the length of a run; and a simulation of steps is a simulation
of runs.
-/

namespace OsCoursework.Transition

variable {L α β : Type*}

/-- A run whose steps carry the labels of the list. -/
inductive Run (step : L → α → α → Prop) : List L → α → α → Prop where
  | nil {s : α} : Run step [] s s
  | cons {l : L} {ls : List L} {s t u : α} (hstep : step l s t)
      (hrest : Run step ls t u) : Run step (l :: ls) s u

variable {step : L → α → α → Prop} {ls ms : List L} {s t u : α}

namespace Run

theorem append (h : Run step ls s t) (h' : Run step ms t u) :
    Run step (ls ++ ms) s u := by
  induction h with
  | nil => exact h'
  | cons hstep _ ih => exact .cons hstep (ih h')

theorem concat (h : Run step ls s t) {l : L} (hstep : step l t u) :
    Run step (ls ++ [l]) s u :=
  h.append (.cons hstep .nil)

/-- What every step preserves, every run preserves. -/
theorem invariant {I : α → Prop} (hI : ∀ l s t, I s → step l s t → I t)
    (h : Run step ls s t) (hs : I s) : I t := by
  induction h with
  | nil => exact hs
  | cons hstep _ ih => exact ih (hI _ _ _ hs hstep)

/-- Steps that lower the potential, up to what they earn and the credit of their label,
are paid for by the potential at the start, the earnings and the credits of the run. -/
theorem amortised (earned : α → ℕ) {I : α → Prop} {potential : α → ℕ} {credit : L → ℕ}
    (hI : ∀ l s t, I s → step l s t → I t)
    (hpay : ∀ l s t, I s → step l s t →
      potential t + earned s + 1 ≤ potential s + earned t + credit l)
    (h : Run step ls s t) (hs : I s) :
    potential t + earned s + ls.length ≤ potential s + earned t + (ls.map credit).sum := by
  induction h with
  | nil => simp
  | cons hstep _ ih =>
      have hrest := ih (hI _ _ _ hs hstep)
      have hfirst := hpay _ _ _ hs hstep
      simp only [List.length_cons, List.map_cons, List.sum_cons]
      omega

/-- A potential that some steps lower cannot be lowered for ever: these steps lead
to a state where none of them is possible. -/
theorem exists_stuck (quiet : L → Prop) (potential : α → ℕ) {I : α → Prop}
    (hI : ∀ l s t, I s → step l s t → I t)
    (hlower : ∀ l s t, I s → quiet l → step l s t → potential t < potential s)
    (hs : I s) :
    ∃ ls t, Run step ls s t ∧ (∀ l ∈ ls, quiet l) ∧
      ∀ l u, quiet l → ¬ step l t u := by
  induction hn : potential s using Nat.strongRecOn generalizing s with
  | ind n ih =>
      by_cases hstuck : ∀ l u, quiet l → ¬ step l s u
      · exact ⟨[], s, .nil, by simp, hstuck⟩
      · push Not at hstuck
        obtain ⟨l, u, hl, hstep⟩ := hstuck
        have hlt := hlower l s u hs hl hstep
        obtain ⟨ls, t, hrun, hquiet, hend⟩ := ih _ (hn ▸ hlt) (hI l s u hs hstep) rfl
        refine ⟨l :: ls, t, .cons hstep hrun, ?_, hend⟩
        intro m hm
        rcases List.mem_cons.mp hm with rfl | hm
        · exact hl
        · exact hquiet m hm

/-- A system that matches each step matches each run. -/
theorem simulates {step' : L → β → β → Prop} {R : α → β → Prop}
    (hR : ∀ l s t b, R s b → step l s t → ∃ b', step' l b b' ∧ R t b')
    (h : Run step ls s t) {b : β} (hb : R s b) :
    ∃ b', Run step' ls b b' ∧ R t b' := by
  induction h generalizing b with
  | nil => exact ⟨b, .nil, hb⟩
  | cons hstep _ ih =>
      obtain ⟨b₁, hstep', hb₁⟩ := hR _ _ _ _ hb hstep
      obtain ⟨b₂, hrest', hb₂⟩ := ih hb₁
      exact ⟨b₂, .cons hstep' hrest', hb₂⟩

end Run

end OsCoursework.Transition
