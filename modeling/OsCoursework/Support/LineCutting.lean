import Mathlib.Data.List.Basic

/-!
# Cutting a stream into lines

A stream is cut after each delimiter and after every `limit` elements without
one.  The last line need not end in either way.
-/

namespace OsCoursework.LineCutting

variable {α : Type*} [DecidableEq α] (delim : α) (limit : ℕ)

/-- Cut the rest of a stream: `line` is what has been read of the current line
and `room` says how many more elements it may get. -/
def cut : ℕ → List α → List α → List (List α)
  | _, line, [] => if line = [] then [] else [line]
  | room, line, x :: rest =>
      if x = delim ∨ room ≤ 1 then (line ++ [x]) :: cut limit [] rest
      else cut (room - 1) (line ++ [x]) rest

def cutLines (stream : List α) : List (List α) :=
  cut delim limit limit [] stream

variable {delim limit}

@[simp] theorem cutLines_nil : cutLines delim limit [] = [] := by
  rw [cutLines, cut, if_pos rfl]

theorem cut_nil {room : ℕ} {line : List α} (hne : line ≠ []) :
    cut delim limit room line [] = [line] := by
  rw [cut, if_neg hne]

/-- The element that ends a line. -/
theorem cut_cons_of_end {room : ℕ} {line rest : List α} {x : α}
    (h : x = delim ∨ room ≤ 1) :
    cut delim limit room line (x :: rest) =
      (line ++ [x]) :: cutLines delim limit rest := by
  rw [cut, if_pos h, cutLines]

theorem cut_cons_of_not_end {room : ℕ} {line rest : List α} {x : α}
    (hx : x ≠ delim) (hroom : 1 < room) :
    cut delim limit room line (x :: rest) =
      cut delim limit (room - 1) (line ++ [x]) rest := by
  rw [cut, if_neg]
  rintro (heq | hle)
  · exact hx heq
  · omega

/-- Nothing is lost. -/
theorem flatten_cut (room : ℕ) (line stream : List α) :
    (cut delim limit room line stream).flatten = line ++ stream := by
  induction stream generalizing room line with
  | nil =>
      rw [cut]
      split
      · next hline => simp [hline]
      · simp
  | cons x rest ih =>
      rw [cut]
      split
      · rw [List.flatten_cons, ih, List.nil_append, List.append_assoc]
        rfl
      · rw [ih, List.append_assoc]
        rfl

theorem flatten_cutLines (stream : List α) : (cutLines delim limit stream).flatten = stream :=
  flatten_cut limit [] stream

/-- No line is empty, so there are at most as many as there are elements. -/
theorem length_cut_le (room : ℕ) (line stream : List α) :
    (cut delim limit room line stream).length ≤
      stream.length + if line = [] then 0 else 1 := by
  induction stream generalizing room line with
  | nil =>
      rw [cut]
      split <;> simp
  | cons x rest ih =>
      rw [cut, List.length_cons]
      split
      · have hrest := ih limit []
        rw [if_pos rfl] at hrest
        rw [List.length_cons]
        omega
      · have hrest := ih (room - 1) (line ++ [x])
        rw [if_neg (by simp)] at hrest
        omega

theorem length_cutLines_le (stream : List α) :
    (cutLines delim limit stream).length ≤ stream.length :=
  length_cut_le limit [] stream

/-- A line that is short enough is cut off as it is. -/
theorem cut_append_cons {room : ℕ} {line l rest : List α} (hl : delim ∉ l)
    (hroom : l.length < room) :
    cut delim limit room line (l ++ delim :: rest) =
      (line ++ l ++ [delim]) :: cutLines delim limit rest := by
  induction l generalizing room line with
  | nil =>
      rw [List.nil_append, List.append_nil]
      exact cut_cons_of_end (Or.inl rfl)
  | cons x l ih =>
      rw [List.mem_cons, not_or] at hl
      rw [List.length_cons] at hroom
      rw [List.cons_append, cut_cons_of_not_end (Ne.symm hl.1) (by omega), ih hl.2 (by omega)]
      simp

theorem cutLines_append_cons {l rest : List α} (hl : delim ∉ l) (hlimit : l.length < limit) :
    cutLines delim limit (l ++ delim :: rest) =
      (l ++ [delim]) :: cutLines delim limit rest :=
  cut_append_cons hl hlimit

/-- Only the last element of a line may be the delimiter. -/
theorem delim_not_mem_dropLast_of_mem_cut {stream : List α} {room : ℕ}
    {line l : List α} (hline : delim ∉ line)
    (hl : l ∈ cut delim limit room line stream) : delim ∉ l.dropLast := by
  induction stream generalizing room line with
  | nil =>
      rw [cut] at hl
      split at hl
      · cases hl
      · rw [List.mem_singleton.mp hl]
        exact fun hmem => hline (List.dropLast_subset _ hmem)
  | cons x rest ih =>
      rw [cut] at hl
      split at hl
      · rcases List.mem_cons.mp hl with rfl | hl
        · rw [List.dropLast_concat]
          exact hline
        · exact ih List.not_mem_nil hl
      · next hend =>
        apply ih ?_ hl
        rw [List.mem_append, List.mem_singleton]
        rintro (hmem | heq)
        · exact hline hmem
        · exact hend (Or.inl heq.symm)

theorem delim_not_mem_dropLast {stream l : List α}
    (hl : l ∈ cutLines delim limit stream) : delim ∉ l.dropLast :=
  delim_not_mem_dropLast_of_mem_cut List.not_mem_nil hl

/-- No line is longer than the limit. -/
theorem length_le_of_mem_cut {stream : List α} {room : ℕ} {line l : List α}
    (hroom : 0 < room) (hline : line.length + room ≤ limit)
    (hl : l ∈ cut delim limit room line stream) : l.length ≤ limit := by
  induction stream generalizing room line with
  | nil =>
      rw [cut] at hl
      split at hl
      · cases hl
      · rw [List.mem_singleton.mp hl]
        omega
  | cons x rest ih =>
      rw [cut] at hl
      split at hl
      · rcases List.mem_cons.mp hl with rfl | hl
        · rw [List.length_append, List.length_singleton]
          omega
        · apply ih ?_ ?_ hl
          · omega
          · exact Nat.le_of_eq (Nat.zero_add limit)
      · next hend =>
        have hmore : 1 < room := by
          by_contra hle
          exact hend (Or.inr (Nat.le_of_not_lt hle))
        apply ih ?_ ?_ hl
        · omega
        · rw [List.length_append, List.length_singleton]
          omega

theorem length_le_of_mem {stream l : List α} (hlimit : 0 < limit)
    (hl : l ∈ cutLines delim limit stream) : l.length ≤ limit := by
  apply length_le_of_mem_cut hlimit ?_ hl
  exact Nat.le_of_eq (Nat.zero_add limit)

end OsCoursework.LineCutting
