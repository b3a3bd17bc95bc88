import Mathlib.Data.List.Basic
import Mathlib.Data.List.Nodup
import Mathlib.Logic.Function.Basic

/-!
# Singly linked queues

A queue is read off a head pointer, a tail pointer and a partial successor
function `next` over an arbitrary type of nodes with a distinguished `null`;
`next` is undefined at nodes that are not allocated.  `Fifo` states that
following `next` from the head enumerates a given list, that it ends at `null`,
and that the tail is the last member.  Pushing at the tail and popping at the
head are then the two list operations.
-/

namespace OsCoursework.LinkedQueue

variable {α : Type*} {null : α} {next next' : α → Option α}

/-- Following `next` from `a` enumerates `l` and ends at `null`. -/
def Chained (null : α) (next : α → Option α) : α → List α → Prop
  | a, [] => a = null
  | a, b :: l => a = b ∧ b ≠ null ∧ ∃ c, next b = some c ∧ Chained null next c l

theorem Chained.congr {a : α} {l : List α} (h : Chained null next a l)
    (hnext : ∀ b ∈ l, next' b = next b) : Chained null next' a l := by
  induction l generalizing a with
  | nil => exact h
  | cons b l ih =>
      obtain ⟨hab, hb, c, hc, hrest⟩ := h
      refine ⟨hab, hb, c, ?_, ih hrest ?_⟩
      · rw [hnext b (by simp), hc]
      · intro d hd
        exact hnext d (List.mem_cons_of_mem b hd)

theorem Chained.null_not_mem {a : α} {l : List α} (h : Chained null next a l) :
    null ∉ l := by
  induction l generalizing a with
  | nil => simp
  | cons b l ih =>
      obtain ⟨-, hb, c, -, hrest⟩ := h
      rw [List.mem_cons, not_or]
      exact ⟨hb.symm, ih hrest⟩

/-- Members are allocated. -/
theorem Chained.next_isSome {a : α} {l : List α} (h : Chained null next a l) :
    ∀ b ∈ l, (next b).isSome := by
  induction l generalizing a with
  | nil => simp
  | cons b l ih =>
      obtain ⟨-, -, c, hc, hrest⟩ := h
      intro d hd
      rcases List.mem_cons.mp hd with rfl | hd
      · rw [hc]
        rfl
      · exact ih hrest d hd

/-- Redirecting the last member to a new node that ends at `null`. -/
theorem Chained.append {a b : α} {l : List α} (h : Chained null next a l)
    (hne : l ≠ []) (hnodup : l.Nodup) (hb : b ≠ null)
    (hnextb : next' b = some null)
    (hlast : next' (l.getLast hne) = some b)
    (hnext : ∀ d ∈ l, d ≠ l.getLast hne → next' d = next d) :
    Chained null next' a (l ++ [b]) := by
  induction l generalizing a with
  | nil => exact absurd rfl hne
  | cons d l ih =>
      obtain ⟨had, hd, c, hc, hrest⟩ := h
      obtain ⟨hdl, hnodup⟩ := List.nodup_cons.mp hnodup
      cases l with
      | nil => exact ⟨had, hd, b, hlast, rfl, hb, null, hnextb, rfl⟩
      | cons e l =>
          have hne' : e :: l ≠ [] := List.cons_ne_nil e l
          rw [List.getLast_cons hne'] at hlast hnext
          refine ⟨had, hd, c, ?_, ih hrest hne' hnodup hlast ?_⟩
          · rw [hnext d (by simp), hc]
            intro heq
            exact hdl (heq ▸ List.getLast_mem hne')
          · intro x hx
            exact hnext x (List.mem_cons_of_mem d hx)

/-- The queue between `head` and `tail` holds `l`. -/
structure Fifo (null : α) (next : α → Option α) (head tail : α) (l : List α) :
    Prop where
  chained : Chained null next head l
  tail_eq : tail = l.getLastD null
  nodup : l.Nodup

namespace Fifo

variable {head tail b : α} {l : List α}

theorem empty (null : α) (next : α → Option α) : Fifo null next null null [] :=
  ⟨rfl, rfl, List.nodup_nil⟩

theorem congr (h : Fifo null next head tail l)
    (hnext : ∀ b ∈ l, next' b = next b) : Fifo null next' head tail l :=
  ⟨h.chained.congr hnext, h.tail_eq, h.nodup⟩

theorem head_eq_null_iff (h : Fifo null next head tail l) :
    head = null ↔ l = [] := by
  cases l with
  | nil => exact ⟨fun _ => rfl, fun _ => h.chained⟩
  | cons b l =>
      obtain ⟨rfl, hb, -⟩ := h.chained
      simp [hb]

theorem tail_eq_getLast (h : Fifo null next head tail l) (hne : l ≠ []) :
    tail = l.getLast hne := by
  rw [h.tail_eq, List.getLastD_eq_getLast?, List.getLast?_eq_getLast_of_ne_nil hne]
  rfl

theorem tail_eq_null_iff (h : Fifo null next head tail l) :
    tail = null ↔ l = [] := by
  constructor
  · intro htail
    by_contra hne
    rw [h.tail_eq_getLast hne] at htail
    exact h.chained.null_not_mem (htail ▸ List.getLast_mem hne)
  · rintro rfl
    exact h.tail_eq

/-- Pushing onto the empty queue. -/
theorem push_empty (hb : b ≠ null) (hnextb : next b = some null) :
    Fifo null next b b [b] :=
  ⟨⟨rfl, hb, null, hnextb, rfl⟩, rfl, List.nodup_singleton b⟩

/-- Pushing behind the tail. -/
theorem push [DecidableEq α] (h : Fifo null next head tail l) (hne : l ≠ [])
    (hb : b ≠ null) (hbl : b ∉ l) (hnextb : next b = some null) :
    Fifo null (Function.update next tail (some b)) head b (l ++ [b]) := by
  have htail := h.tail_eq_getLast hne
  refine ⟨h.chained.append hne h.nodup hb ?_ ?_ ?_, by simp, ?_⟩
  · rw [Function.update_of_ne, hnextb]
    rintro rfl
    exact hbl (htail ▸ List.getLast_mem hne)
  · rw [htail, Function.update_self]
  · intro d _ hd
    rw [htail, Function.update_of_ne hd]
  · rw [List.nodup_append]
    refine ⟨h.nodup, List.nodup_singleton b, ?_⟩
    rintro x hx y hy rfl
    rw [List.mem_singleton] at hy
    exact hbl (hy ▸ hx)

/-- Popping the head: its successor is the new head, and the tail is dropped
with the last member. -/
theorem pop [DecidableEq α] {a : α} (h : Fifo null next head tail (a :: l)) :
    head = a ∧ a ∉ l ∧ ∃ c, next a = some c ∧ (c = null ↔ l = []) ∧
      ∀ d, Fifo null (Function.update next a d) c
        (if c = null then null else tail) l := by
  obtain ⟨hhead, -, c, hc, hrest⟩ := h.chained
  obtain ⟨hal, hnodup⟩ := List.nodup_cons.mp h.nodup
  have hnull : c = null ↔ l = [] := by
    cases l with
    | nil => exact ⟨fun _ => rfl, fun _ => hrest⟩
    | cons b l =>
        obtain ⟨rfl, hb, -⟩ := hrest
        simp [hb]
  refine ⟨hhead, hal, c, hc, hnull, fun d => ⟨?_, ?_, hnodup⟩⟩
  · refine hrest.congr fun b hb => Function.update_of_ne ?_ _ _
    rintro rfl
    exact hal hb
  · by_cases hl : l = []
    · rw [if_pos (hnull.mpr hl), hl]
      rfl
    · rw [if_neg (mt hnull.mp hl), h.tail_eq]
      obtain ⟨b, l, rfl⟩ := List.exists_cons_of_ne_nil hl
      simp

end Fifo

end OsCoursework.LinkedQueue
