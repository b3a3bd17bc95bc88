import OsCoursework.Support.Delimiter

/-!
# Header blocks

A message is a block of header lines, each ended by CR LF, an empty line, and a
body.  `splitHeader` cuts at the first empty line and `headerLines` takes the part
before it apart again; `Framed` says that the block has one `Content-Length` field
and that it tells the length of the body.
-/

namespace OsCoursework.HeaderBlock

open OsCoursework.Delimiter

def lineEnd : List Char := ['\r', '\n']

/-- The parts before and after the first CR LF CR LF. -/
def splitHeader : List Char → Option (List Char × List Char)
  | [] => none
  | c :: rest =>
      match c, rest with
      | '\r', '\n' :: '\r' :: '\n' :: body => some ([], body)
      | c, rest => (splitHeader rest).map fun x => (c :: x.1, x.2)

/-- The pieces between occurrences of CR LF. -/
def headerLines : List Char → List (List Char)
  | [] => [[]]
  | '\r' :: '\n' :: rest => [] :: headerLines rest
  | c :: rest =>
      match headerLines rest with
      | [] => [[c]]
      | line :: lines => (c :: line) :: lines

/-- The value of a line that is a field of the given name, in any case. -/
def fieldValue (name : List Char) (line : List Char) : Option (List Char) :=
  if ':' ∈ line ∧ (line.takeWhile (· ≠ ':')).map Char.toLower = name then
    some (line.dropWhile (· ≠ ':')).tail
  else none

def contentLengths (head : List Char) : List (List Char) :=
  (headerLines head).filterMap (fieldValue "content-length".toList)

/-- The number a field value writes, after optional spaces. -/
def numeral (value : List Char) : Option ℕ :=
  let digits := value.dropWhile (· = ' ')
  if digits ≠ [] ∧ digits.all Char.isDigit then
    some (Nat.ofDigitChars 10 digits 0)
  else none

/-- One `Content-Length` field, and it counts the bytes after the empty line. -/
def Framed (stream : List Char) : Prop :=
  ∃ head body value, splitHeader stream = some (head, body) ∧
    contentLengths head = [value] ∧ numeral value = some body.length

/-! ## Splitting -/

variable {l rest body : List Char}

theorem splitHeader_cons {c : Char} (hc : c ≠ '\r') :
    splitHeader (c :: rest) = (splitHeader rest).map fun x => (c :: x.1, x.2) := by
  rw [splitHeader]
  intro body heq
  exact absurd heq hc

theorem splitHeader_append (h : '\r' ∉ l) :
    splitHeader (l ++ rest) = (splitHeader rest).map fun x => (l ++ x.1, x.2) := by
  induction l with
  | nil => simp
  | cons c l ih =>
      rw [List.mem_cons, not_or] at h
      rw [List.cons_append, splitHeader_cons (Ne.symm h.1), ih h.2, Option.map_map]
      rfl

theorem splitHeader_lineEnd {c : Char} (hc : c ≠ '\r') :
    splitHeader (lineEnd ++ c :: rest) =
      (splitHeader (c :: rest)).map fun x => (lineEnd ++ x.1, x.2) := by
  have hstart : splitHeader ('\r' :: '\n' :: c :: rest) =
      (splitHeader ('\n' :: c :: rest)).map fun x => ('\r' :: x.1, x.2) := by
    rw [splitHeader]
    intro body _ heq
    simp only [List.cons.injEq, true_and] at heq
    exact absurd heq.1 hc
  change splitHeader ('\r' :: '\n' :: c :: rest) = _
  rw [hstart, splitHeader_cons (by decide), Option.map_map]
  rfl

theorem headerLines_cons {c : Char} (hc : c ≠ '\r') {line : List Char}
    {lines : List (List Char)} (h : headerLines rest = line :: lines) :
    headerLines (c :: rest) = (c :: line) :: lines := by
  rw [headerLines, h]
  intro rest' heq
  exact absurd heq hc

theorem headerLines_of_not_mem (h : '\r' ∉ l) : headerLines l = [l] := by
  induction l with
  | nil => rfl
  | cons c l ih =>
      rw [List.mem_cons, not_or] at h
      exact headerLines_cons (Ne.symm h.1) (ih h.2)

theorem headerLines_append (h : '\r' ∉ l) :
    headerLines (l ++ (lineEnd ++ rest)) = l :: headerLines rest := by
  induction l with
  | nil => rfl
  | cons c l ih =>
      rw [List.mem_cons, not_or] at h
      exact headerLines_cons (Ne.symm h.1) (ih h.2)

/-- A block of proper lines, an empty line and a body split as they should. -/
theorem splitHeader_block {lines : List (List Char)} (hne : lines ≠ [])
    (hlines : ∀ l ∈ lines, l ≠ [] ∧ '\r' ∉ l) (body : List Char) :
    ∃ head, splitHeader (lines.flatMap (· ++ lineEnd) ++ lineEnd ++ body) =
        some (head, body) ∧ headerLines head = lines := by
  induction lines with
  | nil => exact absurd rfl hne
  | cons l lines ih =>
      have hl := (hlines l List.mem_cons_self).2
      simp only [List.flatMap_cons, List.append_assoc] at ih ⊢
      cases lines with
      | nil =>
          refine ⟨l, ?_, headerLines_of_not_mem hl⟩
          rw [splitHeader_append hl]
          simp [lineEnd, splitHeader]
      | cons m lines =>
          obtain ⟨head, hsplit, hhead⟩ := ih (List.cons_ne_nil _ _)
            fun l hl => hlines l (List.mem_cons_of_mem _ hl)
          -- The next line starts with something else than CR.
          obtain ⟨hm, hcr⟩ := hlines m (List.mem_cons_of_mem _ List.mem_cons_self)
          cases m with
          | nil => exact absurd rfl hm
          | cons c m =>
              rw [List.mem_cons, not_or] at hcr
              refine ⟨l ++ (lineEnd ++ head), ?_, ?_⟩
              · rw [splitHeader_append hl]
                simp only [List.flatMap_cons, List.append_assoc,
                  List.cons_append] at hsplit ⊢
                rw [splitHeader_lineEnd (Ne.symm hcr.1), hsplit]
                rfl
              · rw [headerLines_append hl, hhead]

/-! ## Fields -/

theorem fieldValue_eq (field : List Char) {name value : List Char} (h : ':' ∉ field) :
    fieldValue name (field ++ ':' :: value) =
      if field.map Char.toLower = name then some value else none := by
  rw [fieldValue, takeWhile_append_cons h, dropWhile_append_cons h]
  simp

/-- A line that starts with another field. -/
theorem fieldValue_of_ne {name start value : List Char} (hcolon : ':' ∈ start)
    (hname : (start.takeWhile (· ≠ ':')).map Char.toLower ≠ name) :
    fieldValue name (start ++ value) = none := by
  have htake : (start ++ value).takeWhile (· ≠ ':') = start.takeWhile (· ≠ ':') := by
    rw [List.takeWhile_append, if_neg]
    intro hlength
    have hall := List.takeWhile_eq_self_iff.mp
      ((List.takeWhile_prefix (· ≠ ':')).eq_of_length hlength)
    exact absurd (hall ':' hcolon) (by decide)
  rw [fieldValue, htake, if_neg]
  exact fun hand => hname hand.2

/-- Framing, read off the lines of the block. -/
theorem framed_block_iff {lines : List (List Char)} (hne : lines ≠ [])
    (hlines : ∀ l ∈ lines, l ≠ [] ∧ '\r' ∉ l) (body : List Char) :
    Framed (lines.flatMap (· ++ lineEnd) ++ lineEnd ++ body) ↔
      ∃ value, lines.filterMap (fieldValue "content-length".toList) = [value] ∧
        numeral value = some body.length := by
  obtain ⟨head, hsplit, hhead⟩ := splitHeader_block hne hlines body
  rw [Framed, hsplit]
  constructor
  · rintro ⟨head', body', value, heq, hfields, hvalue⟩
    cases heq
    rw [contentLengths, hhead] at hfields
    exact ⟨value, hfields, hvalue⟩
  · rintro ⟨value, hfields, hvalue⟩
    refine ⟨head, body, value, rfl, ?_, hvalue⟩
    rw [contentLengths, hhead, hfields]

end OsCoursework.HeaderBlock
