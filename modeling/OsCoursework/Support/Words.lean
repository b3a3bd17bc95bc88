import Mathlib.Data.List.DropRight

/-!
# Words and blanks

A list whose elements are blank or not: its leading blanks, its first word, what
comes after the word, and the list without blanks at its ends.
-/

namespace OsCoursework.Words

variable {α : Type*} (sp : α → Bool)

/-! ## Parts of a list -/

def lead (l : List α) : List α :=
  l.takeWhile sp

def word (l : List α) : List α :=
  (l.dropWhile sp).takeWhile (!sp ·)

def afterWord (l : List α) : List α :=
  (l.dropWhile sp).dropWhile (!sp ·)

def trim (l : List α) : List α :=
  (l.dropWhile sp).rdropWhile sp

/-- All words of a list. -/
def words (l : List α) : List (List α) :=
  (l.splitOnP sp).filter (!·.isEmpty)

/-- The position of the last element with a property. -/
def lastIdx? (p : α → Bool) : List α → Option ℕ
  | [] => none
  | a :: l =>
      match lastIdx? p l with
      | some i => some (i + 1)
      | none => if p a then some 0 else none

def Blank (l : List α) : Prop :=
  ∀ a ∈ l, sp a = true

/-- Nonempty, without blanks. -/
def IsWord (l : List α) : Prop :=
  l ≠ [] ∧ ∀ a ∈ l, sp a = false

/-- A word can end here. -/
def Stops (l : List α) : Prop :=
  ∀ a ∈ l.head?, sp a = true

instance (l : List α) : Decidable (Blank sp l) :=
  inferInstanceAs (Decidable (∀ a ∈ l, sp a = true))

instance [DecidableEq α] (l : List α) : Decidable (IsWord sp l) :=
  inferInstanceAs (Decidable (l ≠ [] ∧ ∀ a ∈ l, sp a = false))

instance (l : List α) : Decidable (Stops sp l) :=
  inferInstanceAs (Decidable (∀ a ∈ l.head?, sp a = true))

variable {sp} {b w l rest : List α}

/-! ## Taking a list apart -/

theorem lead_append (sp : α → Bool) (l : List α) :
    lead sp l ++ (word sp l ++ afterWord sp l) = l := by
  rw [word, afterWord, List.takeWhile_append_dropWhile, lead,
    List.takeWhile_append_dropWhile]

theorem blank_lead (l : List α) : Blank sp (lead sp l) :=
  fun _ ha => List.mem_takeWhile_imp ha

theorem stops_afterWord (sp : α → Bool) (l : List α) : Stops sp (afterWord sp l) := by
  intro a ha
  by_contra hsp
  have hhead := List.head?_dropWhile_not (!sp ·) (l.dropWhile sp)
  rw [afterWord] at ha
  rw [Option.mem_def.mp ha] at hhead
  simp [hsp] at hhead

theorem not_mem_word {a : α} (ha : a ∈ word sp l) : sp a = false := by
  simpa using List.mem_takeWhile_imp ha

theorem dropWhile_of_blank (hb : Blank sp b) (l : List α) :
    (b ++ l).dropWhile sp = l.dropWhile sp := by
  rw [List.dropWhile_append, List.dropWhile_eq_nil_iff.mpr hb]
  rfl

theorem IsWord.dropWhile_append (hw : IsWord sp w) (l : List α) :
    (w ++ l).dropWhile sp = w ++ l := by
  obtain ⟨hne, hall⟩ := hw
  cases w with
  | nil => exact absurd rfl hne
  | cons a w =>
      rw [List.cons_append, List.dropWhile_cons_of_neg]
      simp [hall a List.mem_cons_self]

/-- A list is determined by its three parts. -/
theorem parts_eq (hb : Blank sp b) (hw : IsWord sp w) (hrest : Stops sp rest) :
    lead sp (b ++ (w ++ rest)) = b ∧ word sp (b ++ (w ++ rest)) = w ∧
      afterWord sp (b ++ (w ++ rest)) = rest := by
  have hall : ∀ a ∈ w, (!sp a) = true := fun a ha => by simp [hw.2 a ha]
  have htake : rest.takeWhile (!sp ·) = [] ∧ rest.dropWhile (!sp ·) = rest := by
    cases rest with
    | nil => exact ⟨rfl, rfl⟩
    | cons a rest => simp [hrest a rfl]
  have hstart : (w ++ rest).takeWhile sp = [] := by
    obtain ⟨a, w, rfl⟩ := List.exists_cons_of_ne_nil hw.1
    simp [hw.2 a List.mem_cons_self]
  refine ⟨?_, ?_, ?_⟩
  · rw [lead, List.takeWhile_append_of_pos hb, hstart, List.append_nil]
  · rw [word, dropWhile_of_blank hb, hw.dropWhile_append,
      List.takeWhile_append_of_pos hall, htake.1, List.append_nil]
  · rw [afterWord, dropWhile_of_blank hb, hw.dropWhile_append,
      List.dropWhile_append_of_pos hall, htake.2]

/-- A list has a word unless it is blank. -/
theorem word_eq_nil_iff : word sp l = [] ↔ Blank sp l := by
  rw [word]
  constructor
  · intro h
    apply List.dropWhile_eq_nil_iff.mp
    by_contra hne
    obtain ⟨a, t, hat⟩ := List.exists_cons_of_ne_nil hne
    have hhead := List.head?_dropWhile_not sp l
    rw [hat] at hhead
    rw [hat] at h
    simp only [List.head?_cons] at hhead
    simp [hhead] at h
  · intro h
    rw [List.dropWhile_eq_nil_iff.mpr h]
    rfl

theorem isWord_word (h : ¬ Blank sp l) : IsWord sp (word sp l) :=
  ⟨fun hnil => h (word_eq_nil_iff.mp hnil), fun _ ha => not_mem_word ha⟩

theorem lead_append_of_blank (hb : Blank sp b) (l : List α) :
    lead sp (b ++ l) = b ++ lead sp l := by
  rw [lead, List.takeWhile_append_of_pos hb, lead]

theorem word_append_of_blank (hb : Blank sp b) (l : List α) :
    word sp (b ++ l) = word sp l := by
  rw [word, dropWhile_of_blank hb, word]

/-- A text behind a word that ends does not change the parts in front. -/
theorem parts_append (hl : ¬ Blank sp l) (hrest : Stops sp rest) :
    lead sp (l ++ rest) = lead sp l ∧ word sp (l ++ rest) = word sp l := by
  have hstops : Stops sp (afterWord sp l ++ rest) := by
    intro a ha
    cases h : afterWord sp l with
    | nil =>
        rw [h] at ha
        exact hrest a ha
    | cons c t =>
        have hc := stops_afterWord sp l c (by rw [h]; rfl)
        rw [h] at ha
        simp only [List.cons_append, List.head?_cons, Option.mem_def,
          Option.some.injEq] at ha
        rwa [← ha]
  have hsplit : l ++ rest =
      lead sp l ++ (word sp l ++ (afterWord sp l ++ rest)) := by
    conv_lhs => rw [← lead_append sp l]
    simp only [List.append_assoc]
  have hparts := parts_eq (blank_lead l) (isWord_word hl) hstops
  rw [hsplit]
  exact ⟨hparts.1, hparts.2.1⟩

/-! ## The last position -/

section LastIdx

variable {p : α → Bool}

theorem lastIdx?_eq_none : lastIdx? p l = none ↔ ∀ a ∈ l, p a = false := by
  induction l with
  | nil => simp [lastIdx?]
  | cons a l ih =>
      rw [lastIdx?]
      cases h : lastIdx? p l with
      | some i =>
          rw [h] at ih
          simp only [reduceCtorEq, false_iff, List.mem_cons, forall_eq_or_imp] at ih ⊢
          exact fun hall => ih hall.2
      | none =>
          have hl := ih.mp h
          simpa using fun _ => hl

theorem lastIdx?_append {pre post : List α} {a : α} (ha : p a = true)
    (hpost : ∀ x ∈ post, p x = false) :
    lastIdx? p (pre ++ a :: post) = some pre.length := by
  induction pre with
  | nil =>
      rw [List.nil_append, lastIdx?, lastIdx?_eq_none.mpr hpost]
      exact if_pos ha
  | cons x pre ih => rw [List.cons_append, lastIdx?, ih, List.length_cons]

theorem exists_of_lastIdx? {i : ℕ} (h : lastIdx? p l = some i) :
    ∃ pre a post, l = pre ++ a :: post ∧ pre.length = i ∧ p a = true ∧
      ∀ x ∈ post, p x = false := by
  induction l generalizing i with
  | nil => cases h
  | cons x l ih =>
      rw [lastIdx?] at h
      cases hl : lastIdx? p l with
      | some j =>
          obtain ⟨pre, a, post, rfl, hlen, ha, hpost⟩ := ih hl
          rw [hl, Option.some.injEq] at h
          exact ⟨x :: pre, a, post, rfl, by simp [hlen, ← h], ha, hpost⟩
      | none =>
          simp only [hl, Option.ite_none_right_eq_some, Option.some.injEq] at h
          exact ⟨[], x, l, rfl, h.2, h.1, lastIdx?_eq_none.mp hl⟩

end LastIdx

/-! ## Blanks at the ends -/

theorem rdropWhile_append_of_blank (l : List α) (hb : Blank sp b) :
    (l ++ b).rdropWhile sp = l.rdropWhile sp := by
  rw [List.rdropWhile, List.reverse_append,
    dropWhile_of_blank (fun a ha => hb a (List.mem_reverse.mp ha))]
  rfl

theorem rdropWhile_append_of_not_blank (l : List α) (hb : ¬ Blank sp b) :
    (l ++ b).rdropWhile sp = l ++ b.rdropWhile sp := by
  have hne : b.reverse.dropWhile sp ≠ [] := fun h =>
    hb fun a ha => List.dropWhile_eq_nil_iff.mp h a (List.mem_reverse.mpr ha)
  rw [List.rdropWhile, List.rdropWhile, List.reverse_append, List.dropWhile_append]
  rw [if_neg (by simpa using hne), List.reverse_append, List.reverse_reverse]

theorem IsWord.dropWhile_eq (hw : IsWord sp w) : w.dropWhile sp = w := by
  have h := hw.dropWhile_append []
  rwa [List.append_nil] at h

theorem IsWord.trim_eq (hw : IsWord sp w) : trim sp w = w := by
  rw [trim, hw.dropWhile_eq, List.rdropWhile_eq_self_iff]
  intro hl
  simp [hw.2 _ (List.getLast_mem hl)]

theorem trim_append_of_blank (hb : Blank sp b) (l : List α) :
    trim sp (b ++ l) = trim sp l := by
  rw [trim, dropWhile_of_blank hb, trim]

/-- Trimming takes blanks only. -/
theorem filter_dropWhile (l : List α) :
    (l.dropWhile sp).filter (!sp ·) = l.filter (!sp ·) := by
  conv_rhs => rw [← List.takeWhile_append_dropWhile (p := sp) (l := l)]
  have hlead : (l.takeWhile sp).filter (!sp ·) = [] := by
    refine List.filter_eq_nil_iff.mpr fun a ha => ?_
    simp [List.mem_takeWhile_imp ha]
  rw [List.filter_append, hlead, List.nil_append]

theorem filter_rdropWhile (l : List α) :
    (l.rdropWhile sp).filter (!sp ·) = l.filter (!sp ·) := by
  rw [List.rdropWhile, List.filter_reverse, filter_dropWhile, List.filter_reverse,
    List.reverse_reverse]

theorem filter_trim (l : List α) : (trim sp l).filter (!sp ·) = l.filter (!sp ·) := by
  rw [trim, filter_rdropWhile, filter_dropWhile]

/-- Whether a word in front of a text can be replaced without a change to the
trimmed text. -/
theorem trim_append_eq_iff {r : List α} (hw : IsWord sp w) (x : List α) :
    trim sp (w ++ x) = trim sp (r ++ x) ↔
      r.dropWhile sp = w ∨ trim sp r = w ∧ Blank sp x := by
  by_cases hx : Blank sp x
  · have hsame (y : List α) : trim sp (y ++ x) = trim sp y := by
      by_cases hy : Blank sp y
      · rw [trim_append_of_blank hy, trim, trim, List.dropWhile_eq_nil_iff.mpr hx,
          List.dropWhile_eq_nil_iff.mpr hy]
      · rw [trim, List.dropWhile_append, if_neg, rdropWhile_append_of_blank _ hx, trim]
        intro h
        exact hy (List.dropWhile_eq_nil_iff.mp (List.isEmpty_iff.mp h))
    rw [hsame, hsame, hw.trim_eq]
    constructor
    · intro h
      exact Or.inr ⟨h.symm, hx⟩
    · rintro (h | ⟨h, -⟩)
      · have htrim := hw.trim_eq
        rw [trim, hw.dropWhile_eq] at htrim
        rw [trim, h, htrim]
      · exact h.symm
  · rw [trim, hw.dropWhile_append, rdropWhile_append_of_not_blank _ hx]
    by_cases hr : Blank sp r
    · -- Without a word in front the text is shorter.
      rw [trim_append_of_blank hr]
      refine iff_of_false (fun h => ?_) ?_
      · have hlen := congrArg (fun l => (l.filter (!sp ·)).length) h
        rw [filter_trim, List.filter_append, filter_rdropWhile, List.length_append,
          List.filter_eq_self.mpr fun a ha => by simp [hw.2 a ha]] at hlen
        have hpos := List.length_pos_of_ne_nil hw.1
        omega
      · rintro (h | ⟨-, h⟩)
        · rw [List.dropWhile_eq_nil_iff.mpr hr] at h
          exact hw.1 h.symm
        · exact hx h
    · rw [trim, List.dropWhile_append, if_neg, rdropWhile_append_of_not_blank _ hx,
        List.append_cancel_right_eq]
      · exact ⟨fun h => Or.inl h.symm, fun h => h.elim Eq.symm fun h => absurd h.2 hx⟩
      · intro h
        exact hr (List.dropWhile_eq_nil_iff.mp (List.isEmpty_iff.mp h))

/-! ## All words -/

theorem words_cons_of_blank {a : α} (ha : sp a = true) (l : List α) :
    words sp (a :: l) = words sp l := by
  rw [words, List.splitOnP_cons_eq_if_modifyHead, if_pos ha]
  rfl

theorem words_append_of_blank (hb : Blank sp b) (l : List α) :
    words sp (b ++ l) = words sp l := by
  induction b with
  | nil => rfl
  | cons a b ih =>
      rw [List.cons_append, words_cons_of_blank (hb a List.mem_cons_self)]
      exact ih fun c hc => hb c (List.mem_cons_of_mem a hc)

/-- A word comes first. -/
theorem words_append_of_isWord (hw : IsWord sp w) (hrest : Stops sp rest) :
    words sp (w ++ rest) = w :: words sp rest := by
  have hfirst : ∀ ws : List (List α),
      (w :: ws).filter (!·.isEmpty) = w :: ws.filter (!·.isEmpty) :=
    fun ws => List.filter_cons_of_pos (by simpa using hw.1)
  cases rest with
  | nil =>
      rw [List.append_nil, words, List.splitOnP_eq_singleton hw.2, hfirst]
      rfl
  | cons a rest =>
      have ha := hrest a rfl
      rw [words, List.splitOnP_append_cons_of_forall_mem hw.2 a ha, hfirst,
        words_cons_of_blank ha, words]

theorem words_eq_nil (h : Blank sp l) : words sp l = [] := by
  have hwords := words_append_of_blank h []
  rw [List.append_nil] at hwords
  exact hwords

/-- The words are the first word and those of the rest. -/
theorem words_eq_cons (h : ¬ Blank sp l) :
    words sp l = word sp l :: words sp (afterWord sp l) := by
  conv_lhs => rw [← lead_append sp l]
  rw [words_append_of_blank (blank_lead l),
    words_append_of_isWord (isWord_word h) (stops_afterWord sp l)]

/-- A search that finds nothing in an empty piece. -/
theorem findSome?_words {β : Type*} {f : List α → Option β} (hnil : f [] = none)
    (l : List α) : (words sp l).findSome? f = (l.splitOnP sp).findSome? f := by
  rw [words]
  induction l.splitOnP sp with
  | nil => rfl
  | cons piece pieces ih =>
      rw [List.filter_cons, List.findSome?_cons]
      cases piece with
      | nil =>
          rw [hnil]
          exact ih
      | cons a piece =>
          change ((a :: piece) :: pieces.filter (!·.isEmpty)).findSome? f = _
          rw [List.findSome?_cons, ih]

/-- A blank ends a word. -/
theorem words_append_cons {a : α} (ha : sp a = true) (l rest : List α) :
    words sp (l ++ a :: rest) = words sp l ++ words sp rest := by
  rw [words, List.splitOnP_append_cons l rest ha, List.filter_append, words, words]

theorem words_append_of_blank_right (l : List α) (hb : Blank sp b) :
    words sp (l ++ b) = words sp l := by
  cases b with
  | nil => rw [List.append_nil]
  | cons a b =>
      have hrest : words sp b = [] :=
        words_eq_nil fun c hc => hb c (List.mem_cons_of_mem a hc)
      rw [words_append_cons (hb a List.mem_cons_self), hrest, List.append_nil]

/-- Blanks at the end of a list. -/
theorem exists_rdropWhile (sp : α → Bool) (l : List α) :
    ∃ b, l = l.rdropWhile sp ++ b ∧ Blank sp b :=
  ⟨l.rtakeWhile sp, List.rdropWhile_append_rtakeWhile.symm,
    fun _ ha => List.mem_rtakeWhile_imp ha⟩

theorem words_rdropWhile (l : List α) : words sp (l.rdropWhile sp) = words sp l := by
  obtain ⟨b, hl, hb⟩ := exists_rdropWhile sp l
  conv_rhs => rw [hl]
  rw [words_append_of_blank_right _ hb]

theorem words_trim (l : List α) : words sp (trim sp l) = words sp l := by
  rw [trim, words_rdropWhile]
  conv_rhs => rw [← List.takeWhile_append_dropWhile (p := sp) (l := l)]
  rw [words_append_of_blank fun _ ha => List.mem_takeWhile_imp ha]

theorem word_rdropWhile (l : List α) : word sp (l.rdropWhile sp) = word sp l := by
  obtain ⟨b, hl, hb⟩ := exists_rdropWhile sp l
  by_cases hblank : Blank sp (l.rdropWhile sp)
  · have hall : Blank sp l := by
      rw [hl]
      exact fun a ha => (List.mem_append.mp ha).elim (hblank a) (hb a)
    rw [word_eq_nil_iff.mpr hblank, word_eq_nil_iff.mpr hall]
  · have hstops : Stops sp b := fun a ha => hb a (List.mem_of_mem_head? ha)
    conv_rhs => rw [hl]
    rw [(parts_append hblank hstops).2]

end OsCoursework.Words
