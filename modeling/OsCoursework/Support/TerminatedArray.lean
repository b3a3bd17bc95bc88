import Mathlib.Data.List.Basic
import Mathlib.Logic.Function.Basic
import Mathlib.Order.Nat

/-!
# Arrays that end with a mark

An array of optional values holds the list of the values in front of the first
`none`.  A value is removed from it by moving everything behind it down by one, the
mark included.
-/

namespace OsCoursework.TerminatedArray

variable {α : Type*}

/-- The array holds the list, with the mark behind it. -/
def Holds (a : ℕ → Option α) (l : List α) : Prop :=
  ∀ i ≤ l.length, a i = l[i]?

/-- Move down what stands behind position `i`, the mark as the last, in at most `fuel`
steps. -/
def closeGap : ℕ → (ℕ → Option α) → ℕ → Option (ℕ → Option α)
  | 0, _, _ => none
  | fuel + 1, a, i =>
      let a := Function.update a i (a (i + 1))
      match a (i + 1) with
      | none => some a
      | some _ => closeGap fuel a (i + 1)

variable {a a' : ℕ → Option α} {pre post l l' : List α} {e : α} {i fuel : ℕ}

theorem Holds.at_length (h : Holds a l) : a l.length = none := by
  rw [h l.length le_rfl, List.getElem?_eq_none_iff.mpr le_rfl]

theorem Holds.at_append (h : Holds a (pre ++ e :: post)) : a pre.length = some e := by
  rw [h pre.length (by simp), List.getElem?_append_right le_rfl, Nat.sub_self,
    List.getElem?_cons_zero]

/-- An array holds one list only. -/
theorem Holds.unique (h : Holds a l) (h' : Holds a l') : l = l' := by
  have hle : ∀ {l l' : List α}, Holds a l → Holds a l' → l'.length ≤ l.length := by
    intro l l' h h'
    by_contra hlt
    have hget := h' l.length (Nat.le_of_not_le hlt)
    rw [h.at_length, eq_comm, List.getElem?_eq_none_iff] at hget
    exact hlt hget
  apply List.ext_getElem?
  intro i
  rcases Nat.lt_or_ge i l.length with hlt | hge
  · rw [← h i hlt.le, h' i (hlt.le.trans (hle h' h))]
  · rw [List.getElem?_eq_none_iff.mpr hge,
      List.getElem?_eq_none_iff.mpr ((hle h h').trans hge)]

/-- One value is overwritten. -/
theorem Holds.set (h : Holds a l) (hi : i < l.length) (x : α) :
    Holds (Function.update a i (some x)) (l.set i x) := by
  intro j hj
  rw [List.length_set] at hj
  by_cases hji : j = i
  · rw [hji, Function.update_self, List.getElem?_set_self hi]
  · rw [Function.update_of_ne hji, List.getElem?_set_ne (Ne.symm hji), h j hj]

/-- The list is cut at a mark. -/
theorem Holds.cut (h : Holds a (pre ++ post)) :
    Holds (Function.update a pre.length none) pre := by
  intro j hj
  rcases Nat.lt_or_ge j pre.length with hlt | hge
  · rw [Function.update_of_ne hlt.ne, h j (by rw [List.length_append]; omega),
      List.getElem?_append_left hlt]
  · have heq : j = pre.length := Nat.le_antisymm hj hge
    rw [heq, Function.update_self, List.getElem?_eq_none_iff.mpr le_rfl]

/-- With enough fuel the gap is closed. -/
theorem Holds.closeGap (h : Holds a (pre ++ e :: post)) (hfuel : post.length < fuel) :
    ∃ a', closeGap fuel a pre.length = some a' ∧ Holds a' (pre ++ post) := by
  induction post generalizing a pre e fuel with
  | nil =>
      obtain ⟨fuel, rfl⟩ := Nat.exists_eq_succ_of_ne_zero (Nat.ne_of_gt hfuel)
      have hnext : a (pre.length + 1) = none := by
        have hlast := h.at_length
        rw [List.length_append, List.length_singleton] at hlast
        exact hlast
      refine ⟨Function.update a pre.length none, ?_, ?_⟩
      · rw [TerminatedArray.closeGap, hnext,
          Function.update_of_ne (Nat.succ_ne_self pre.length), hnext]
      · rw [List.append_nil]
        exact h.cut
  | cons x post ih =>
      obtain ⟨fuel, rfl⟩ := Nat.exists_eq_succ_of_ne_zero (Nat.ne_zero_of_lt hfuel)
      have hlen : (pre ++ [e]).length = pre.length + 1 := by simp
      have hnext : a (pre.length + 1) = some x := by
        rw [← hlen]
        apply Holds.at_append
        rw [List.append_assoc]
        exact h
      have hmoved : Holds (Function.update a pre.length (some x))
          ((pre ++ [x]) ++ x :: post) := by
        have hlt : pre.length < (pre ++ e :: x :: post).length := by simp
        have hset := h.set hlt x
        rw [List.set_append_right _ _ le_rfl, Nat.sub_self, List.set_cons_zero] at hset
        rw [List.append_assoc]
        exact hset
      have hfuel' : post.length < fuel := by
        rw [List.length_cons] at hfuel
        omega
      obtain ⟨a', hrun, ha'⟩ := ih hmoved hfuel'
      rw [List.length_append, List.length_singleton] at hrun
      rw [List.append_assoc, List.singleton_append] at ha'
      refine ⟨a', ?_, ha'⟩
      rw [TerminatedArray.closeGap, hnext,
        Function.update_of_ne (Nat.succ_ne_self pre.length), hnext]
      exact hrun

end OsCoursework.TerminatedArray
