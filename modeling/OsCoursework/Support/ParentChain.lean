import Mathlib.Data.List.Basic

/-!
# Chains of parents

A forest is given by a partial parent function whose roots are their own parents.
`Ancestors parent t l` says that `l` lists the proper ancestors of `t`, the nearest
first; it ends with a root.  Such a list is unique, never returns to `t` and has no
repetitions.
-/

namespace OsCoursework.ParentChain

variable {τ : Type*}

inductive Ancestors (parent : τ → Option τ) : τ → List τ → Prop where
  | root {t : τ} (h : parent t = some t) : Ancestors parent t []
  | step {t p : τ} {l : List τ} (h : parent t = some p) (hne : p ≠ t)
      (hp : Ancestors parent p l) : Ancestors parent t (p :: l)

namespace Ancestors

variable {parent parent' : τ → Option τ} {t a : τ} {l l' : List τ}

theorem unique (h : Ancestors parent t l) (h' : Ancestors parent t l') : l = l' := by
  induction h generalizing l' with
  | root h =>
      cases h' with
      | root _ => rfl
      | step hp hne _ =>
          rw [h, Option.some.injEq] at hp
          exact absurd hp.symm hne
  | step h hne _ ih =>
      cases h' with
      | root hroot =>
          rw [h, Option.some.injEq] at hroot
          exact absurd hroot hne
      | step hp _ hrest =>
          rw [h, Option.some.injEq] at hp
          subst hp
          rw [ih hrest]

/-- The ancestors of an ancestor are further up. -/
theorem exists_shorter (h : Ancestors parent t l) (ha : a ∈ l) :
    ∃ m, Ancestors parent a m ∧ m.length < l.length := by
  induction h with
  | root _ => cases ha
  | @step t p l _ _ hp ih =>
      rcases List.mem_cons.mp ha with rfl | ha
      · exact ⟨l, hp, Nat.lt_succ_self _⟩
      · obtain ⟨m, hm, hlt⟩ := ih ha
        exact ⟨m, hm, Nat.lt_succ_of_lt hlt⟩

theorem not_mem (h : Ancestors parent t l) : t ∉ l := by
  intro ht
  obtain ⟨m, hm, hlt⟩ := h.exists_shorter ht
  rw [hm.unique h] at hlt
  exact Nat.lt_irrefl _ hlt

/-- Only the parents along the chain matter. -/
theorem congr (h : Ancestors parent t l) (ht : parent' t = parent t)
    (hl : ∀ a ∈ l, parent' a = parent a) : Ancestors parent' t l := by
  induction h with
  | root h => exact .root (ht.trans h)
  | step h hne _ ih =>
      exact .step (ht.trans h) hne (ih (hl _ List.mem_cons_self)
        fun a ha => hl a (List.mem_cons_of_mem _ ha))

end Ancestors

end OsCoursework.ParentChain
