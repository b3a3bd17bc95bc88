import Mathlib.Data.List.Infix
import OsCoursework.Support.Delimiter
import OsCoursework.Support.Words

/-!
# Strings in a buffer

A string stands in a buffer at a position and ends in front of the first mark.  It is
taken apart in place: a delimiter is overwritten with the mark, and what stood behind
the delimiter is a string of its own.
-/

namespace OsCoursework.CString

open OsCoursework.Delimiter OsCoursework.Words

variable {α : Type*} (mark : α)

/-! ## Strings that stand in a buffer -/

/-- A string at a position, with the mark behind it. -/
def Stands (buf : List α) (p : ℕ) (s : List α) : Prop :=
  mark ∉ s ∧ s ++ [mark] <+: buf.drop p

variable {mark} {buf buf' s front rest : List α} {p : ℕ} {c delim : α}

theorem stands_append (h : mark ∉ s) (rest : List α) :
    Stands mark (s ++ mark :: rest) 0 s :=
  ⟨h, rest, List.append_assoc s [mark] rest⟩

/-- The byte behind the string. -/
theorem Stands.getElem?_end (h : Stands mark buf p s) :
    buf[p + s.length]? = some mark := by
  obtain ⟨-, post, hpost⟩ := h
  rw [← List.getElem?_drop, ← hpost, List.append_assoc,
    List.getElem?_append_right (Nat.le_refl _), Nat.sub_self]
  rfl

theorem Stands.getElem?_delim (h : Stands mark buf p (front ++ c :: rest)) :
    buf[p + front.length]? = some c := by
  obtain ⟨-, post, hpost⟩ := h
  rw [← List.getElem?_drop, ← hpost, List.append_assoc, List.append_assoc,
    List.getElem?_append_right (Nat.le_refl _), Nat.sub_self]
  rfl

/-- A string depends on its own bytes and on the mark behind them. -/
theorem Stands.congr (h : Stands mark buf p s)
    (hsame : ∀ i, p ≤ i → i ≤ p + s.length → buf'[i]? = buf[i]?) :
    Stands mark buf' p s := by
  obtain ⟨hmark, hstarts⟩ := h
  refine ⟨hmark, List.prefix_iff_getElem?.mpr fun i hi => ?_⟩
  have hlen : i ≤ s.length := by
    rw [List.length_append, List.length_singleton] at hi
    exact Nat.le_of_lt_succ hi
  rw [List.getElem?_drop, hsame (p + i) (Nat.le_add_right p i) (by omega),
    ← List.getElem?_drop]
  exact List.prefix_iff_getElem?.mp hstarts i hi

/-- The end of a string is a string. -/
theorem Stands.drop (h : Stands mark buf p (front ++ s)) :
    Stands mark buf (p + front.length) s := by
  obtain ⟨hmark, post, hpost⟩ := h
  refine ⟨fun hmem => hmark (List.mem_append_right front hmem), post, ?_⟩
  rw [← List.drop_drop, ← hpost, List.append_assoc front, List.append_assoc front,
    List.drop_left]

/-- A mark in the place of a delimiter makes two strings of one. -/
theorem Stands.cut (h : Stands mark buf p (front ++ c :: rest)) :
    Stands mark (buf.set (p + front.length) mark) p front ∧
      Stands mark (buf.set (p + front.length) mark) (p + front.length + 1) rest := by
  obtain ⟨hmark, post, hpost⟩ := id h
  rw [List.mem_append, List.mem_cons, not_or, not_or] at hmark
  refine ⟨⟨hmark.1, rest ++ mark :: post, ?_⟩, ?_⟩
  · rw [List.drop_set, if_neg (by omega), ← hpost, Nat.add_sub_cancel_left,
      List.append_assoc, List.append_assoc, List.append_assoc,
      List.set_append_right _ _ (Nat.le_refl _), Nat.sub_self]
    rfl
  · have hrest : Stands mark buf (p + (front ++ [c]).length) rest := by
      apply Stands.drop
      rw [List.append_assoc]
      exact h
    rw [List.length_append, List.length_singleton, ← Nat.add_assoc] at hrest
    apply hrest.congr
    intro i hi _
    exact List.getElem?_set_ne (by omega)

/-! ## Library functions -/

variable [DecidableEq α]

section

variable (mark)

/-- The string at a position of a buffer. -/
def stringAt (buf : List α) (p : ℕ) : List α :=
  (buf.drop p).takeWhile (· ≠ mark)

/-- `strchr`: the position of the first `c` in the string at `p`. -/
def strchr (buf : List α) (p : ℕ) (c : α) : Option ℕ :=
  ((stringAt mark buf p).findIdx? (· = c)).map (p + ·)

/-- `strtok` with one delimiter, from the position that is given or was kept.  It returns
the start of the token, the buffer and the position that is kept. -/
def strtok (delim : α) (buf : List α) (p : ℕ) : Option (ℕ × List α × ℕ) :=
  let start := p + (lead (· == delim) (stringAt mark buf p)).length
  let token := (stringAt mark buf start).takeWhile (!· == delim)
  let stop := start + token.length
  if token = [] then none
  else if buf[stop]? = some mark then some (start, buf, stop)
  else some (start, buf.set stop mark, stop + 1)

end

/-- The string that is read. -/
theorem Stands.stringAt (h : Stands mark buf p s) : stringAt mark buf p = s := by
  obtain ⟨hmark, post, hpost⟩ := h
  rw [CString.stringAt, ← hpost, List.append_assoc]
  exact takeWhile_append_cons hmark post

/-! ## Looking for a character -/

theorem Stands.strchr_eq_none (h : Stands mark buf p s) (hc : c ∉ s) :
    strchr mark buf p c = none := by
  rw [strchr, h.stringAt, findIdx?_eq_none hc]
  rfl

theorem Stands.strchr_eq_some (h : Stands mark buf p (front ++ c :: rest))
    (hc : c ∉ front) : strchr mark buf p c = some (p + front.length) := by
  rw [strchr, h.stringAt, findIdx?_append_cons hc]
  rfl

/-! ## Taking tokens -/

theorem Stands.strtok_eq_none (h : Stands mark buf p s)
    (hblank : Blank (· == delim) s) : strtok mark delim buf p = none := by
  have hlead : lead (· == delim) s = s := List.takeWhile_eq_self_iff.mpr hblank
  have hend : Stands mark buf (p + s.length) [] := by
    apply Stands.drop
    rw [List.append_nil]
    exact h
  rw [strtok, h.stringAt, hlead, hend.stringAt]
  exact if_pos rfl

/-- The token is a string of its own now, and so is what stands behind it. -/
theorem Stands.strtok_eq_some (h : Stands mark buf p s)
    (hword : ¬ Blank (· == delim) s) :
    ∃ start buf' next rest, strtok mark delim buf p = some (start, buf', next) ∧
      Stands mark buf' start (word (· == delim) s) ∧ Stands mark buf' next rest ∧
      start + (word (· == delim) s).length ≤ next ∧
      words (· == delim) rest = words (· == delim) (afterWord (· == delim) s) ∧
      rest.length < s.length := by
  have hparts := lead_append (· == delim) s
  have hisword := isWord_word hword
  have hstops := stops_afterWord (· == delim) s
  generalize word (· == delim) s = w at hparts hisword ⊢
  generalize afterWord (· == delim) s = after at hparts hstops ⊢
  have hlen := congrArg List.length hparts
  rw [List.length_append, List.length_append] at hlen
  have hwpos := List.length_pos_of_ne_nil hisword.1
  have hstart : Stands mark buf (p + (lead (· == delim) s).length) (w ++ after) := by
    apply Stands.drop
    rw [hparts]
    exact h
  have htoken : (w ++ after).takeWhile (!· == delim) = w := by
    rw [List.takeWhile_append_of_pos fun a ha => by simp [hisword.2 a ha]]
    cases after with
    | nil => simp
    | cons a after => simp [hstops a rfl]
  rw [strtok, h.stringAt, hstart.stringAt, htoken, if_neg hisword.1]
  generalize p + (lead (· == delim) s).length = start at hstart ⊢
  cases after with
  | nil =>
      -- The string ends with the token: nothing is written.
      rw [List.append_nil] at hstart
      rw [if_pos hstart.getElem?_end]
      refine ⟨start, buf, start + w.length, [], rfl, hstart, ?_, Nat.le_refl _, rfl, ?_⟩
      · apply Stands.drop
        rw [List.append_nil]
        exact hstart
      · rw [List.length_nil]
        omega
  | cons a after =>
      have hne : a ≠ mark := by
        rintro rfl
        exact hstart.1 (List.mem_append_right w List.mem_cons_self)
      have hcut := hstart.cut
      rw [if_neg (by rw [hstart.getElem?_delim]; exact fun heq => hne (Option.some.inj heq))]
      refine ⟨start, _, start + w.length + 1, after, rfl, hcut.1, hcut.2,
        Nat.le_succ _, ?_, ?_⟩
      · exact (@words_cons_of_blank α (· == delim) a (hstops a rfl) after).symm
      · rw [List.length_cons] at hlen
        omega

end OsCoursework.CString
