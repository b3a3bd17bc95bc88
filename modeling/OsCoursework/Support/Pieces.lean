import OsCoursework.Support.Delimiter

/-!
# The pieces between delimiters

`List.splitOn` cuts a list at every delimiter.  When a list is cut short, its pieces stay
as they are, except for the last one that is left.
-/

namespace OsCoursework.Pieces

open OsCoursework.Delimiter

variable {α : Type*} [DecidableEq α] (d : α)

/-- The pieces of a list when only its first `n` delimiters count. -/
def firstPieces : ℕ → List α → List (List α)
  | 0, l => [l]
  | n + 1, l =>
      if d ∈ l then l.takeWhile (· ≠ d) :: firstPieces n (l.dropWhile (· ≠ d)).tail
      else [l]

/-- The part of a list that holds its first `n` pieces. -/
def leading (n : ℕ) (l : List α) : List α :=
  [d].intercalate ((l.splitOn d).take n)

variable {d} {l w a b piece : List α} {n : ℕ}

/-- A list is one piece, or it has a first piece and a delimiter behind it. -/
@[elab_as_elim]
theorem induction {motive : List α → Prop} (l : List α)
    (single : ∀ l, d ∉ l → motive l)
    (cons : ∀ a b, d ∉ a → motive b → motive (a ++ d :: b)) : motive l := by
  generalize hlen : l.length = len
  induction len using Nat.strong_induction_on generalizing l with
  | h len ih =>
      by_cases hmem : d ∈ l
      · obtain ⟨a, b, rfl, ha⟩ := List.eq_append_cons_of_mem hmem
        have hlt : b.length < len := by
          rw [← hlen, List.length_append, List.length_cons]
          omega
        exact cons a b ha (ih b.length hlt b rfl)
      · exact single l hmem

theorem not_mem_of_mem_splitOn (h : piece ∈ l.splitOn d) : d ∉ piece := by
  induction l using induction (d := d) with
  | single l hl =>
      rw [List.splitOn_eq_singleton hl] at h
      rw [List.mem_singleton.mp h]
      exact hl
  | cons a b ha ih =>
      rw [List.splitOn_append_cons_self_of_not_mem ha] at h
      rcases List.mem_cons.mp h with rfl | hmem
      · exact ha
      · exact ih hmem

/-- A list starts with its first piece. -/
theorem prefix_of_splitOn_eq_cons {pieces : List (List α)}
    (h : l.splitOn d = piece :: pieces) : piece <+: l := by
  by_cases hmem : d ∈ l
  · obtain ⟨a, b, rfl, ha⟩ := List.eq_append_cons_of_mem hmem
    rw [List.splitOn_append_cons_self_of_not_mem ha] at h
    obtain ⟨rfl, -⟩ := List.cons.inj h
    exact List.prefix_append a _
  · rw [List.splitOn_eq_singleton hmem] at h
    obtain ⟨rfl, -⟩ := List.cons.inj h
    exact List.prefix_rfl

theorem firstPieces_single (n : ℕ) (h : d ∉ l) : firstPieces d n l = [l] := by
  cases n with
  | zero => rfl
  | succ n => rw [firstPieces, if_neg h]

theorem firstPieces_cons (n : ℕ) (h : d ∉ a) (b : List α) :
    firstPieces d (n + 1) (a ++ d :: b) = a :: firstPieces d n b := by
  rw [firstPieces, if_pos (List.mem_append_right a List.mem_cons_self),
    takeWhile_append_cons h, dropWhile_append_cons h, List.tail_cons]

/-- All but the last piece do not depend on how many delimiters count. -/
theorem take_firstPieces (n : ℕ) (l : List α) :
    (firstPieces d n l).take n = (l.splitOn d).take n := by
  induction l using induction (d := d) generalizing n with
  | single l hl => rw [firstPieces_single n hl, List.splitOn_eq_singleton hl]
  | cons a b ha ih =>
      cases n with
      | zero => rw [List.take_zero, List.take_zero]
      | succ n =>
          rw [firstPieces_cons n ha, List.splitOn_append_cons_self_of_not_mem ha,
            List.take_succ_cons, List.take_succ_cons, ih]

/-! ## A list that goes on -/

/-- The pieces of a list that is cut short. -/
theorem splitOn_of_prefix (h : w <+: l) :
    ∃ front last last' back, w.splitOn d = front ++ [last] ∧
      l.splitOn d = front ++ last' :: back ∧ last <+: last' := by
  induction w using induction (d := d) generalizing l with
  | single w hw =>
      refine ⟨[], w, ?_⟩
      rw [List.splitOn_eq_singleton hw]
      by_cases hmem : d ∈ l
      · obtain ⟨a, b, rfl, ha⟩ := List.eq_append_cons_of_mem hmem
        rw [List.splitOn_append_cons_self_of_not_mem ha]
        exact ⟨a, b.splitOn d, rfl, rfl, (prefix_append_cons hw).mp h⟩
      · rw [List.splitOn_eq_singleton hmem]
        exact ⟨l, [], rfl, rfl, h⟩
  | cons a b ha ih =>
      obtain ⟨rest, rfl⟩ := h
      obtain ⟨front, last, last', back, hb, hrest, hlast⟩ := ih (List.prefix_append b rest)
      refine ⟨a :: front, last, last', back, ?_, ?_, hlast⟩
      · rw [List.splitOn_append_cons_self_of_not_mem ha, hb, List.cons_append]
      · rw [List.append_assoc, List.cons_append,
          List.splitOn_append_cons_self_of_not_mem ha, hrest, List.cons_append]

/-- Each piece of a list that is cut short is where it was. -/
theorem exists_getElem?_of_prefix (h : w <+: l) {i : ℕ}
    (hpiece : (w.splitOn d)[i]? = some piece) :
    ∃ piece', (l.splitOn d)[i]? = some piece' ∧ piece <+: piece' := by
  obtain ⟨front, last, last', back, hw, hl, hlast⟩ := splitOn_of_prefix (d := d) h
  rw [hw] at hpiece
  rw [hl]
  rcases Nat.lt_trichotomy i front.length with hlt | rfl | hgt
  · rw [List.getElem?_append_left hlt] at hpiece
    rw [List.getElem?_append_left hlt]
    exact ⟨piece, hpiece, List.prefix_rfl⟩
  · rw [List.getElem?_concat_length] at hpiece
    obtain rfl := Option.some.inj hpiece
    exact ⟨last', by simp, hlast⟩
  · rw [List.getElem?_eq_none (by simp; omega)] at hpiece
    cases hpiece

theorem splitOn_leading (l : List α) (hn : 0 < n) :
    (leading d n l).splitOn d = (l.splitOn d).take n := by
  have hne : (l.splitOn d).take n ≠ [] := by
    rw [Ne, List.take_eq_nil_iff, not_or]
    exact ⟨Nat.ne_of_gt hn, List.splitOn_ne_nil d l⟩
  apply List.splitOn_intercalate d ?_ hne
  intro piece hpiece
  exact not_mem_of_mem_splitOn (List.mem_of_mem_take hpiece)

/-- A piece that the leading part has is the same in between. -/
theorem getElem?_of_leading_prefix (h : w <+: l) (hleading : leading d n l <+: w)
    (hsplit : (leading d n l).splitOn d = (l.splitOn d).take n) {i : ℕ} (hi : i < n) :
    (w.splitOn d)[i]? = (l.splitOn d)[i]? := by
  cases hl : (l.splitOn d)[i]? with
  | none =>
      cases hw : (w.splitOn d)[i]? with
      | none => rfl
      | some piece =>
          obtain ⟨piece', hpiece', -⟩ := exists_getElem?_of_prefix h hw
          rw [hl] at hpiece'
          cases hpiece'
  | some piece =>
      -- The piece of `w` stands between those of the leading part and of `l`.
      have hfirst : ((leading d n l).splitOn d)[i]? = some piece := by
        rw [hsplit, List.getElem?_take, if_pos hi, hl]
      obtain ⟨piece', hw, hle⟩ := exists_getElem?_of_prefix hleading hfirst
      obtain ⟨piece'', hl', hge⟩ := exists_getElem?_of_prefix h hw
      rw [hl] at hl'
      obtain rfl := Option.some.inj hl'
      rw [hw, hge.eq_of_length_le hle.length_le]

/-- A list that holds the first pieces of another, as far as it goes, has them. -/
theorem take_eq_of_leading_prefix (h : w <+: l) (hn : 0 < n)
    (hleading : leading d n l <+: w) :
    (w.splitOn d).take n = (l.splitOn d).take n := by
  have hsplit := splitOn_leading (d := d) l hn
  apply List.ext_getElem?
  intro i
  rw [List.getElem?_take, List.getElem?_take]
  split
  · next hi => exact getElem?_of_leading_prefix h hleading hsplit hi
  · rfl

theorem leading_isInitial (n : ℕ) (l : List α) : leading d n l <+: l := by
  induction l using induction (d := d) generalizing n with
  | single l hl =>
      rw [leading, List.splitOn_eq_singleton hl]
      cases n with
      | zero => exact List.nil_prefix
      | succ n => simp
  | cons a b ha ih =>
      rw [leading, List.splitOn_append_cons_self_of_not_mem ha]
      cases n with
      | zero => exact List.nil_prefix
      | succ n =>
          rw [List.take_succ_cons]
          by_cases hnil : (b.splitOn d).take n = []
          · rw [hnil, List.intercalate_singleton]
            exact List.prefix_append a _
          · rw [List.intercalate_cons_of_ne_nil hnil, List.append_assoc,
              List.prefix_append_right_inj, List.singleton_append,
              List.cons_prefix_cons]
            exact ⟨rfl, ih n⟩

/-- How far a list goes, said by its first pieces. -/
theorem leading_prefix_iff (h : w <+: l) (hn : 0 < n) :
    leading d n l <+: w ↔ (w.splitOn d).take n = (l.splitOn d).take n := by
  constructor
  · exact take_eq_of_leading_prefix h hn
  · intro heq
    rw [leading, ← heq]
    exact leading_isInitial n w

/-! ## The first pieces and the rest -/

/-- The pieces with the delimiter behind each of them. -/
def ended (d : α) (pieces : List (List α)) : List α :=
  pieces.flatMap (· ++ [d])

theorem splitOn_ended_append {pieces : List (List α)} (h : ∀ piece ∈ pieces, d ∉ piece)
    (rest : List α) : (ended d pieces ++ rest).splitOn d = pieces ++ rest.splitOn d := by
  induction pieces with
  | nil => rfl
  | cons piece pieces ih =>
      have hrest := ih fun other hother => h other (List.mem_cons_of_mem piece hother)
      rw [ended, List.flatMap_cons, List.append_assoc, List.append_assoc]
      change (piece ++ d :: (ended d pieces ++ rest)).splitOn d = _
      rw [List.splitOn_append_cons_self_of_not_mem (h piece List.mem_cons_self), hrest,
        List.cons_append]

/-- A list starts with its first pieces. -/
theorem exists_eq_ended_append {before after : List (List α)}
    (h : l.splitOn d = before ++ piece :: after) :
    ∃ rest, l = ended d before ++ rest ∧ rest.splitOn d = piece :: after := by
  induction before generalizing l with
  | nil => exact ⟨l, rfl, h⟩
  | cons first before ih =>
      by_cases hmem : d ∈ l
      · obtain ⟨a, b, rfl, ha⟩ := List.eq_append_cons_of_mem hmem
        rw [List.splitOn_append_cons_self_of_not_mem ha, List.cons_append] at h
        obtain ⟨rfl, hb⟩ := List.cons.inj h
        obtain ⟨rest, rfl, hrest⟩ := ih hb
        refine ⟨rest, ?_, hrest⟩
        simp [ended]
      · rw [List.splitOn_eq_singleton hmem, List.cons_append] at h
        have hnil := (List.cons.inj h).2
        simp at hnil

end OsCoursework.Pieces
