import Mathlib.Data.List.TakeWhile

/-!
# Lists with a delimiter

A list is cut at its first delimiter, or at its last one.  The part that must not
contain the delimiter comes out whole.
-/

namespace OsCoursework.Delimiter

variable {α : Type*} {d : α} {l l' rest word front front' : List α}

/-- A word without the delimiter ends in front of it. -/
theorem prefix_append_cons (h : d ∉ word) : word <+: l ++ d :: rest ↔ word <+: l := by
  constructor
  · intro hstarts
    have hpart : l ++ [d] <+: l ++ d :: rest :=
      (List.prefix_append_right_inj l).mpr (List.prefix_append [d] rest)
    rcases Nat.lt_or_ge l.length word.length with hlt | hge
    · have hlen : (l ++ [d]).length ≤ word.length := by
        rw [List.length_append, List.length_singleton]
        exact hlt
      have hsub := List.prefix_of_prefix_length_le hpart hstarts hlen
      exact absurd (hsub.subset (List.mem_append_right _ List.mem_cons_self)) h
    · exact List.prefix_of_prefix_length_le hstarts (List.prefix_append l _) hge
  · intro hstarts
    exact hstarts.trans (List.prefix_append l _)

variable [DecidableEq α]

theorem ne_of_not_mem (h : d ∉ l) : ∀ a ∈ l, decide (a ≠ d) = true := by
  intro a ha
  rw [decide_eq_true_eq]
  exact ne_of_mem_of_not_mem ha h

theorem takeWhile_eq_self (h : d ∉ l) : l.takeWhile (· ≠ d) = l :=
  List.takeWhile_eq_self_iff.mpr (ne_of_not_mem h)

theorem dropWhile_eq_nil (h : d ∉ l) : l.dropWhile (· ≠ d) = [] :=
  List.dropWhile_eq_nil_iff.mpr (ne_of_not_mem h)

theorem takeWhile_append_cons (h : d ∉ l) (rest : List α) :
    (l ++ d :: rest).takeWhile (· ≠ d) = l := by
  rw [List.takeWhile_append_of_pos (ne_of_not_mem h), List.takeWhile_cons_of_neg (by simp),
    List.append_nil]

theorem dropWhile_append_cons (h : d ∉ l) (rest : List α) :
    (l ++ d :: rest).dropWhile (· ≠ d) = d :: rest := by
  rw [List.dropWhile_append_of_pos (ne_of_not_mem h), List.dropWhile_cons_of_neg (by simp)]

theorem findIdx?_eq_none (h : d ∉ l) : l.findIdx? (· = d) = none := by
  apply List.findIdx?_eq_none_iff.mpr
  intro a ha
  exact decide_eq_false (ne_of_mem_of_not_mem ha h)

theorem findIdx?_append_cons (h : d ∉ l) (rest : List α) :
    (l ++ d :: rest).findIdx? (· = d) = some l.length := by
  rw [List.findIdx?_append, findIdx?_eq_none h]
  simp [List.findIdx?_cons]

/-- A list with a delimiter is given by what stands on both sides of the last one. -/
theorem append_cons_inj (h : d ∉ l) (h' : d ∉ l')
    (heq : front ++ d :: l = front' ++ d :: l') : front = front' ∧ l = l' := by
  have hreverse := congrArg List.reverse heq
  simp only [List.reverse_append, List.reverse_cons, List.append_assoc,
    List.singleton_append] at hreverse
  have htake := congrArg (List.takeWhile (· ≠ d)) hreverse
  rw [← List.mem_reverse] at h h'
  rw [takeWhile_append_cons h, takeWhile_append_cons h'] at htake
  obtain rfl := List.reverse_inj.mp htake
  exact ⟨List.append_cancel_right heq, rfl⟩

end OsCoursework.Delimiter
