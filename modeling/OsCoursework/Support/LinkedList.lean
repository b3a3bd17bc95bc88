import Mathlib.Data.List.Basic
import Mathlib.Data.List.Nodup
import Mathlib.Data.List.Pairwise
import Mathlib.Data.Finset.Card
import Mathlib.Order.Interval.Finset.Nat

/-!
# Doubly linked lists

A doubly linked list is read off two successor functions `next` and `prev` over
an arbitrary type of nodes with a distinguished `null`.  `Linked` states that
following `next` from a node enumerates a given list and ends at `null`, and
that `prev` walks the same list backwards.  Taking the starting node to be
`null` itself, with `next null` the head pointer, makes the head an ordinary
link: insertion and removal at the front are then the same statement as
anywhere else.
-/

namespace OsCoursework.LinkedList

variable {α : Type*} {null : α} {next prev next' prev' : α → α}

/-- Following `next` from `x` enumerates `l` and ends at `null`; `prev` leads
back from each node to the one before it. -/
def Linked (null : α) (next prev : α → α) : α → List α → Prop
  | x, [] => next x = null
  | x, y :: l => next x = y ∧ prev y = x ∧ Linked null next prev y l

theorem Linked.next_eq {x : α} {l : List α}
    (h : Linked null next prev x l) : next x = l.headD null := by
  cases l with
  | nil => exact h
  | cons y l => exact h.1

/-- `Linked` reads `next` of the starting node and of the members, and `prev`
of the members only. -/
theorem Linked.congr {x : α} {l : List α}
    (h : Linked null next prev x l)
    (hnext : ∀ y ∈ x :: l, next' y = next y)
    (hprev : ∀ y ∈ l, prev' y = prev y) :
    Linked null next' prev' x l := by
  induction l generalizing x with
  | nil =>
      rw [Linked, hnext x (by simp)]
      exact h
  | cons y l ih =>
      obtain ⟨hxy, hyx, hrest⟩ := h
      refine ⟨?_, ?_, ih hrest ?_ ?_⟩
      · rw [hnext x (by simp), hxy]
      · rw [hprev y (by simp), hyx]
      · intro z hz
        exact hnext z (List.mem_cons_of_mem x hz)
      · intro z hz
        exact hprev z (List.mem_cons_of_mem y hz)

/-- A linked list whose nodes are all different from `null` is determined by
its `next` function. -/
theorem Linked.unique {x : α} {l l' : List α}
    (h : Linked null next prev x l) (h' : Linked null next prev' x l')
    (hl : null ∉ l) (hl' : null ∉ l') : l = l' := by
  induction l generalizing x l' with
  | nil =>
      cases l' with
      | nil => rfl
      | cons y l' =>
          have hnull : y = null := h'.1.symm.trans h
          exact absurd (List.mem_cons.mpr (Or.inl hnull.symm)) hl'
  | cons y l ih =>
      cases l' with
      | nil =>
          have hnull : y = null := h.1.symm.trans h'
          exact absurd (List.mem_cons.mpr (Or.inl hnull.symm)) hl
      | cons z l' =>
          have hyz : y = z := h.1.symm.trans h'.1
          subst hyz
          rw [ih h.2.2 h'.2.2 (fun hm => hl (List.mem_cons_of_mem _ hm))
            (fun hm => hl' (List.mem_cons_of_mem _ hm))]

/-! ## Cutting a list at a node -/

/-- Following `next` from `x` passes through `l`, and `prev` leads back. -/
def Path (next prev : α → α) : α → List α → Prop
  | _, [] => True
  | x, y :: l => next x = y ∧ prev y = x ∧ Path next prev y l

/-- The last node of the path from `x` through `l`. -/
def endOf (x : α) (l : List α) : α :=
  (x :: l).getLast (List.cons_ne_nil x l)

@[simp] theorem endOf_nil (x : α) : endOf x [] = x := rfl

@[simp] theorem endOf_cons (x y : α) (l : List α) :
    endOf x (y :: l) = endOf y l :=
  List.getLast_cons (List.cons_ne_nil y l)

theorem endOf_mem (x : α) (l : List α) : endOf x l ∈ x :: l :=
  List.getLast_mem (List.cons_ne_nil x l)

theorem linked_append {x : α} {A B : List α} :
    Linked null next prev x (A ++ B) ↔
      Path next prev x A ∧ Linked null next prev (endOf x A) B := by
  induction A generalizing x with
  | nil => simp [Path]
  | cons a A ih =>
      simp only [List.cons_append, Linked, Path, endOf_cons, ih]
      tauto

theorem Path.congr {x : α} {A : List α}
    (h : Path next prev x A) (hnodup : (x :: A).Nodup)
    (hnext : ∀ y ∈ x :: A, y ≠ endOf x A → next' y = next y)
    (hprev : ∀ y ∈ A, prev' y = prev y) :
    Path next' prev' x A := by
  induction A generalizing x with
  | nil => trivial
  | cons a A ih =>
      obtain ⟨hxa, hax, hrest⟩ := h
      obtain ⟨hx, hnodup'⟩ := List.nodup_cons.mp hnodup
      rw [endOf_cons] at hnext
      refine ⟨?_, ?_, ih hrest hnodup' ?_ ?_⟩
      · rw [hnext x (by simp), hxa]
        intro heq
        exact hx (heq ▸ endOf_mem a A)
      · rw [hprev a (by simp), hax]
      · intro y hy hne
        exact hnext y (List.mem_cons_of_mem x hy) hne
      · intro y hy
        exact hprev y (List.mem_cons_of_mem a hy)

/-- The rest of a list may be entered from another node, once that node and
the first member point at each other. -/
theorem Linked.enter {x b : α} {B : List α}
    (h : Linked null next prev x B)
    (hnextb : next' b = B.headD null)
    (hfirst : ∀ y, B.head? = some y → prev' y = b)
    (hnodup : B.Nodup)
    (hnext : ∀ y ∈ B, next' y = next y)
    (hprev : ∀ y ∈ B, B.head? ≠ some y → prev' y = prev y) :
    Linked null next' prev' b B := by
  cases B with
  | nil => exact hnextb
  | cons y B =>
      obtain ⟨-, -, hrest⟩ := h
      refine ⟨hnextb, hfirst y rfl, hrest.congr hnext ?_⟩
      intro z hz
      apply hprev z (List.mem_cons_of_mem y hz)
      intro heq
      have hyz : y = z := Option.some.inj heq
      subst hyz
      exact (List.nodup_cons.mp hnodup).1 hz

/-! ## Linking in and out -/

section Edit

variable {x b : α} {A B : List α}

/-- Linking `b` in between the last node of `A` and the first node of `B`. -/
theorem Linked.insert
    (h : Linked null next prev x (A ++ B))
    (hnodup : (x :: (A ++ B)).Nodup)
    (hlast : next' (endOf x A) = b) (hprevb : prev' b = endOf x A)
    (hnextb : next' b = B.headD null)
    (hfirst : ∀ y, B.head? = some y → prev' y = b)
    (hnext : ∀ y ∈ x :: (A ++ B), y ≠ endOf x A → next' y = next y)
    (hprev : ∀ y ∈ A ++ B, B.head? ≠ some y → prev' y = prev y) :
    Linked null next' prev' x (A ++ b :: B) := by
  obtain ⟨hpath, hrest⟩ := linked_append.mp h
  rw [← List.cons_append] at hnodup hnext
  obtain ⟨hnodupA, hnodupB, hdisj⟩ := List.nodup_append'.mp hnodup
  refine linked_append.mpr ⟨?_, hlast, hprevb, ?_⟩
  · refine hpath.congr hnodupA ?_ ?_
    · intro y hy
      exact hnext y (List.mem_append_left B hy)
    · intro y hy
      apply hprev y (List.mem_append_left B hy)
      intro heq
      exact hdisj (List.mem_cons_of_mem x hy) (List.mem_of_mem_head? heq)
  · refine hrest.enter hnextb hfirst hnodupB ?_ ?_
    · intro y hy
      apply hnext y (List.mem_append_right _ hy)
      rintro rfl
      exact hdisj (endOf_mem x A) hy
    · intro y hy
      exact hprev y (List.mem_append_right A hy)

/-- Unlinking `b` from between the last node of `A` and the first node of
`B`. -/
theorem Linked.remove
    (h : Linked null next prev x (A ++ b :: B))
    (hnodup : (x :: (A ++ B)).Nodup)
    (hlast : next' (endOf x A) = B.headD null)
    (hfirst : ∀ y, B.head? = some y → prev' y = endOf x A)
    (hnext : ∀ y ∈ x :: (A ++ B), y ≠ endOf x A → next' y = next y)
    (hprev : ∀ y ∈ A ++ B, B.head? ≠ some y → prev' y = prev y) :
    Linked null next' prev' x (A ++ B) := by
  obtain ⟨hpath, -, -, hrest⟩ := linked_append.mp h
  rw [← List.cons_append] at hnodup hnext
  obtain ⟨hnodupA, hnodupB, hdisj⟩ := List.nodup_append'.mp hnodup
  refine linked_append.mpr ⟨?_, ?_⟩
  · refine hpath.congr hnodupA ?_ ?_
    · intro y hy
      exact hnext y (List.mem_append_left B hy)
    · intro y hy
      apply hprev y (List.mem_append_left B hy)
      intro heq
      exact hdisj (List.mem_cons_of_mem x hy) (List.mem_of_mem_head? heq)
  · refine hrest.enter hlast hfirst hnodupB ?_ ?_
    · intro y hy
      apply hnext y (List.mem_append_right _ hy)
      rintro rfl
      exact hdisj (endOf_mem x A) hy
    · intro y hy
      exact hprev y (List.mem_append_right A hy)

/-- What the neighbours of a member point to. -/
theorem Linked.neighbours
    (h : Linked null next prev x (A ++ b :: B)) :
    prev b = endOf x A ∧ next b = B.headD null := by
  obtain ⟨-, -, hprev, hrest⟩ := linked_append.mp h
  exact ⟨hprev, hrest.next_eq⟩

end Edit

/-! ## The two edits -/

theorem headD_eq_of_head? {y : α} {B : List α} (h : B.head? = some y) :
    B.headD null = y := by
  rw [List.headD_eq_head?_getD, h, Option.getD_some]

theorem headD_mem {B : List α} (h : B.headD null ≠ null) : B.headD null ∈ B := by
  cases B with
  | nil => exact absurd rfl h
  | cons y B => exact List.mem_cons_self ..

theorem ne_headD_of_not_mem {b : α} {B : List α} (hb : b ∉ B) (hne : b ≠ null) :
    b ≠ B.headD null := by
  cases B with
  | nil => exact hne
  | cons y B =>
      rintro rfl
      exact hb (List.mem_cons_self ..)

theorem ne_headD_of_head?_ne {y : α} {B : List α} (hne : y ≠ null)
    (hhead : B.head? ≠ some y) : y ≠ B.headD null := by
  cases B with
  | nil => exact hne
  | cons z B =>
      rintro rfl
      exact hhead rfl

/-- The two successor functions of a doubly linked list. -/
structure Links (α : Type*) where
  next : α → α
  prev : α → α

namespace Links

variable [DecidableEq α] (k : Links α) {x b : α} {A B : List α}

def setNext (a v : α) : Links α :=
  ⟨Function.update k.next a v, k.prev⟩

def setPrev (a v : α) : Links α :=
  ⟨k.next, Function.update k.prev a v⟩

@[simp] theorem setNext_next (a v : α) :
    (k.setNext a v).next = Function.update k.next a v := rfl
@[simp] theorem setNext_prev (a v : α) : (k.setNext a v).prev = k.prev := rfl
@[simp] theorem setPrev_next (a v : α) : (k.setPrev a v).next = k.next := rfl
@[simp] theorem setPrev_prev (a v : α) :
    (k.setPrev a v).prev = Function.update k.prev a v := rfl

theorem setPrev_comm {a c : α} (h : a ≠ c) (v w : α) :
    (k.setPrev c w).setPrev a v = (k.setPrev a v).setPrev c w := by
  rw [setPrev, setPrev, setPrev, setPrev, Function.update_comm h]

theorem setNext_eq_self {a v : α} (h : k.next a = v) : k.setNext a v = k := by
  rw [setNext, ← h, Function.update_eq_self]

theorem setPrev_eq_self {a v : α} (h : k.prev a = v) : k.setPrev a v = k := by
  rw [setPrev, ← h, Function.update_eq_self]

/-- Put `b` in between `p` and `q`. -/
def linkIn (p b q : α) : Links α :=
  (((k.setNext b q).setPrev b p).setNext p b).setPrev q b

/-- Let `p` and `q` lead to each other and `b` to `null`. -/
def linkOut (null p b q : α) : Links α :=
  (((k.setNext p q).setPrev q p).setNext b null).setPrev b null

theorem linkIn_next (p b q : α) : (k.linkIn p b q).next =
    Function.update (Function.update k.next b q) p b := rfl

theorem linkIn_prev (p b q : α) : (k.linkIn p b q).prev =
    Function.update (Function.update k.prev b p) q b := rfl

theorem linkOut_next (null p b q : α) : (k.linkOut null p b q).next =
    Function.update (Function.update k.next p q) b null := rfl

theorem linkOut_prev (null p b q : α) : (k.linkOut null p b q).prev =
    Function.update (Function.update k.prev q p) b null := rfl

theorem linked_linkIn (h : Linked null k.next k.prev x (A ++ B))
    (hnodup : (x :: (A ++ B)).Nodup) (hnull : null ∉ A ++ B)
    (hb : b ∉ x :: (A ++ B)) (hne : b ≠ null) :
    Linked null (k.linkIn (endOf x A) b (B.headD null)).next
      (k.linkIn (endOf x A) b (B.headD null)).prev x (A ++ b :: B) := by
  have hbq : b ≠ B.headD null := by
    refine ne_headD_of_not_mem (fun hmem => hb ?_) hne
    exact List.mem_cons_of_mem x (List.mem_append_right A hmem)
  have hbp : b ≠ endOf x A := by
    rintro rfl
    rw [← List.cons_append] at hb
    exact hb (List.mem_append_left B (endOf_mem x A))
  refine h.insert hnodup ?_ ?_ ?_ ?_ ?_ ?_
  · rw [linkIn_next, Function.update_self]
  · rw [linkIn_prev, Function.update_of_ne hbq, Function.update_self]
  · rw [linkIn_next, Function.update_of_ne hbp, Function.update_self]
  · intro y hy
    rw [linkIn_prev, headD_eq_of_head? hy, Function.update_self]
  · intro y hy hyp
    have hyb : y ≠ b := ne_of_mem_of_not_mem hy hb
    rw [linkIn_next, Function.update_of_ne hyp, Function.update_of_ne hyb]
  · intro y hy hhead
    have hyb : y ≠ b := ne_of_mem_of_not_mem (List.mem_cons_of_mem x hy) hb
    have hyq := ne_headD_of_head?_ne (ne_of_mem_of_not_mem hy hnull) hhead
    rw [linkIn_prev, Function.update_of_ne hyq, Function.update_of_ne hyb]

/-- Linking in at the end. -/
theorem linked_linkIn_end (h : Linked null k.next k.prev x A) (hnodup : (x :: A).Nodup)
    (hnull : null ∉ A) (hb : b ∉ x :: A) (hne : b ≠ null) :
    Linked null (k.linkIn (endOf x A) b null).next (k.linkIn (endOf x A) b null).prev x
      (A ++ [b]) := by
  rw [← List.append_nil A] at h hnodup hnull hb
  exact k.linked_linkIn h hnodup hnull hb hne

theorem linked_linkOut (h : Linked null k.next k.prev x (A ++ b :: B))
    (hnodup : (x :: (A ++ B)).Nodup) (hnull : null ∉ A ++ B)
    (hb : b ∉ x :: (A ++ B)) :
    Linked null (k.linkOut null (endOf x A) b (B.headD null)).next
      (k.linkOut null (endOf x A) b (B.headD null)).prev x (A ++ B) := by
  have hpb : endOf x A ≠ b := by
    rintro rfl
    rw [← List.cons_append] at hb
    exact hb (List.mem_append_left B (endOf_mem x A))
  have hne {y : α} (hy : y ∈ A ++ B) : y ≠ b :=
    ne_of_mem_of_not_mem (List.mem_cons_of_mem x hy) hb
  refine h.remove hnodup ?_ ?_ ?_ ?_
  · rw [linkOut_next, Function.update_of_ne hpb, Function.update_self]
  · intro y hy
    have hyb := hne (List.mem_append_right A (List.mem_of_mem_head? hy))
    rw [linkOut_prev, headD_eq_of_head? hy, Function.update_of_ne hyb,
      Function.update_self]
  · intro y hy hyp
    have hyb : y ≠ b := ne_of_mem_of_not_mem hy hb
    rw [linkOut_next, Function.update_of_ne hyb, Function.update_of_ne hyp]
  · intro y hy hhead
    have hyq := ne_headD_of_head?_ne (ne_of_mem_of_not_mem hy hnull) hhead
    rw [linkOut_prev, Function.update_of_ne (hne hy), Function.update_of_ne hyq]

end Links

/-- Two members of an ordered list are related one way or the other. -/
theorem related_of_pairwise {R : α → α → Prop} {l : List α} (h : l.Pairwise R)
    {a b : α} (ha : a ∈ l) (hb : b ∈ l) (hne : a ≠ b) : R a b ∨ R b a := by
  have : Std.Symm fun x y => R x y ∨ R y x := ⟨fun _ _ => Or.symm⟩
  exact (h.imp (S := fun x y => R x y ∨ R y x) Or.inl).forall ha hb hne

/-- A strictly ascending list of numbers below `n` has at most `n` members. -/
theorem length_le_of_pairwise_lt {l : List ℕ} {n : ℕ}
    (hsorted : l.Pairwise (· < ·)) (hlt : ∀ x ∈ l, x < n) :
    l.length ≤ n := by
  have hnodup : l.Nodup := hsorted.imp (fun h => Nat.ne_of_lt h)
  have hsub : l.toFinset ⊆ Finset.range n := by
    intro x hx
    exact Finset.mem_range.mpr (hlt x (List.mem_toFinset.mp hx))
  have hcard := Finset.card_le_card hsub
  rwa [List.toFinset_card_of_nodup hnodup, Finset.card_range] at hcard

end OsCoursework.LinkedList
