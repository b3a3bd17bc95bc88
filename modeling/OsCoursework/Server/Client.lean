import OsCoursework.Server.Framing
import OsCoursework.Server.RequestLine

/-!
# The client

`client.c` and `rio_writen` of `segel.c`.  What the client prints depends only on
the bytes of the response, and what the server reads of a request only on the bytes
of the request, however `write` and `read` cut them up.
-/

namespace OsCoursework.Server

open OsCoursework.LineCutting
open OsCoursework.Server.Checked

/-! ## Writing -/

/-- The text in an array. -/
def bufText (buf : Buffer) : Text :=
  cString ((List.range maxBuf).map buf)

/-- The sign of a numeral, and what is behind it. -/
def scanSign : Text → ℤ × Text
  | '-' :: rest => (-1, rest)
  | '+' :: rest => (1, rest)
  | s => (1, s)

/-- The conversion `%d`: the value is that of `strtol`, as an `int`. -/
def scanInt (s : Text) : Option ℤ :=
  let (sign, s) := scanSign s
  let digits := s.takeWhile Char.isDigit
  let value := sign * Nat.ofDigitChars 10 digits 0
  if digits = [] then none else some (wrap (max (-2 ^ 63) (min value (2 ^ 63 - 1))))

/-- `sscanf(buf, "Content-Length: %d ", &length)`. -/
def scanLength (buf : Text) : Option ℤ :=
  if "Content-Length:".toList <+: buf then
    scanInt ((buf.drop "Content-Length:".length).dropWhile isspace)
  else none

/-- What is printed for a header. -/
def printHeader (buf : Text) : Text :=
  "Header: ".toList ++ buf ++
    match scanLength buf with
    | some length => "Length = ".toList ++ decimal length ++ "\n".toList
    | none => []

/-- The first `while` loop of `clientPrint`, for at most `fuel` tests. -/
def headerLoop : ℕ → Rio → Buffer → ℕ → Text → Option (Rio × Buffer × Text)
  | 0, _, _, _, _ => none
  | fuel + 1, rio, buf, n, out =>
      if strcmpEq buf crlf = false ∧ 0 < n then
        let (rio', buf', n') := rioReadlineb rio buf maxBuf
        headerLoop fuel rio' buf' n' (out ++ printHeader (bufText buf))
      else some (rio, buf, out)

/-- The second one. -/
def bodyLoop : ℕ → Rio → Buffer → ℕ → Text → Option Text
  | 0, _, _, _, _ => none
  | fuel + 1, rio, buf, n, out =>
      if 0 < n then
        let (rio', buf', n') := rioReadlineb rio buf maxBuf
        bodyLoop fuel rio' buf' n' (out ++ bufText buf)
      else some out

/-- `clientPrint`; `buf` is what its array holds at first. -/
def clientPrint (fuel : ℕ) (conn : List Delivery) (buf : Buffer) : Option Text :=
  let (rio, buf, n) := rioReadlineb (rioReadinitb conn) buf maxBuf
  match headerLoop fuel rio buf n [] with
  | none => none
  | some (rio, buf, out) =>
      let (rio, buf, n) := rioReadlineb rio buf maxBuf
      bodyLoop fuel rio buf n out

/-! ## `rio_writen` -/

section Writing

variable {results : List WriteResult} {buf : Text}

end Writing

/-! ## The line in the array -/

theorem bufText_storeText {buf : Buffer} {l : Text} (h : l.length < maxBuf) :
    bufText (storeText buf l) = cString l := by
  have hrange : List.range maxBuf = List.range l.length ++
      l.length :: (List.range (maxBuf - (l.length + 1))).map (l.length + 1 + ·) := by
    have hsum : maxBuf = l.length + 1 + (maxBuf - (l.length + 1)) := by omega
    conv_lhs => rw [hsum, List.range_add, List.range_succ]
    simp
  have hfirst : (List.range l.length).map (storeText buf l) = l := by
    apply List.ext_getElem
    · simp
    · intro i hi hlt
      simp [storeText, Nat.le_of_lt hlt, hlt]
  have hnul : storeText buf l l.length = '\x00' := by
    simp [storeText]
  rw [bufText, hrange, List.map_append, hfirst, List.map_cons, hnul, cString, cString,
    List.takeWhile_append, List.takeWhile_cons_of_neg (by simp), List.append_nil]
  split
  · next hall => exact ((List.takeWhile_prefix _).eq_of_length hall).symm
  · rfl

/-- The array holds the first of the lines that are left, and `n` is what
`Rio_readlineb` said about it. -/
inductive Current (rp : Rio) (buf : Buffer) (n : ℕ) : List Text → Prop where
  | eof (hn : n = 0) (hrest : streamLines rp.stream = []) : Current rp buf n []
  | line {l : Text} (hn : 0 < n) (htext : bufText buf = cString l)
      (hcrlf : strcmpEq buf crlf = true ↔ l = crlf) :
      Current rp buf n (l :: streamLines rp.stream)

theorem Current.of_cons {rp : Rio} {buf : Buffer} {n : ℕ} {l : Text} {lines : List Text}
    (h : Current rp buf n (l :: lines)) :
    bufText buf = cString l ∧ streamLines rp.stream = lines := by
  cases h with
  | line hn htext hcrlf => exact ⟨htext, rfl⟩

theorem rioReadlineb_current {rp rp' : Rio} {buf buf' : Buffer} {n : ℕ}
    (h : rioReadlineb rp buf maxBuf = (rp', buf', n)) :
    Current rp' buf' n (streamLines rp.stream) := by
  obtain ⟨rp₁, result, hloop⟩ : ∃ rp₁ result,
      readlineLoop (maxBuf - 1) rp [] = (rp₁, result) := ⟨_, _, rfl⟩
  rw [rioReadlineb, hloop] at h
  rcases readlineLoop_spec (by decide) hloop with
    ⟨rfl, hcut, hend⟩ | ⟨l, rfl, hcut⟩
  · cases h
    have hlines : streamLines rp.stream = [] := hcut
    rw [hlines]
    refine .eof rfl ?_
    rw [hend]
    exact cutLines_nil
  · cases h
    have hlines : streamLines rp.stream = l :: streamLines rp'.stream := hcut
    have hmem : l ∈ streamLines rp.stream := by
      rw [hlines]
      exact List.mem_cons_self
    rw [hlines]
    refine .line ?_ (bufText_storeText (length_of_mem_streamLines hmem))
      (strcmpEq_storeText (delim_not_mem_dropLast hmem))
    split
    · next hlast =>
      apply List.length_pos_of_ne_nil
      rintro rfl
      cases hlast
    · exact Nat.succ_pos _

/-! ## What is printed and what is left -/

/-- The lines up to the first empty one. -/
def linesBefore (lines : List Text) : List Text :=
  lines.takeWhile (· ≠ crlf)

/-- The lines after it. -/
def linesAfter (lines : List Text) : List Text :=
  (lines.dropWhile (· ≠ crlf)).tail

section Lines

variable {start : List Text} (hstart : crlf ∉ start) (rest : List Text)
include hstart

theorem linesBefore_append : linesBefore (start ++ crlf :: rest) = start := by
  have hall : ∀ l ∈ start, decide (l ≠ crlf) = true :=
    fun l hl => decide_eq_true (ne_of_mem_of_not_mem hl hstart)
  rw [linesBefore, List.takeWhile_append_of_pos hall, List.takeWhile_cons_of_neg (by simp),
    List.append_nil]

theorem linesAfter_append : linesAfter (start ++ crlf :: rest) = rest := by
  have hall : ∀ l ∈ start, decide (l ≠ crlf) = true :=
    fun l hl => decide_eq_true (ne_of_mem_of_not_mem hl hstart)
  rw [linesAfter, List.dropWhile_append_of_pos hall, List.dropWhile_cons_of_neg (by simp),
    List.tail_cons]

end Lines

def printedHeader (lines : List Text) : Text :=
  (linesBefore lines).flatMap fun l => printHeader (cString l)

def printedBody (lines : List Text) : Text :=
  lines.flatMap cString

section Loops

variable {rp : Rio} {buf : Buffer} {n : ℕ} {lines : List Text}

/-- The loop over the header lines prints them and stops behind the empty line. -/
theorem headerLoop_spec (h : Current rp buf n lines) {fuel : ℕ}
    (hfuel : lines.length < fuel) (out : Text) :
    ∃ rp' buf', headerLoop fuel rp buf n out = some (rp', buf', out ++ printedHeader lines) ∧
      streamLines rp'.stream = linesAfter lines := by
  induction fuel generalizing rp buf n lines out with
  | zero => exact absurd hfuel (Nat.not_lt_zero _)
  | succ fuel ih =>
      cases h with
      | eof hn hrest =>
          refine ⟨rp, buf, ?_, hrest⟩
          rw [headerLoop, if_neg (by simp [hn])]
          simp [printedHeader, linesBefore]
      | @line l hn htext hcrlf =>
          rw [headerLoop]
          by_cases hl : l = crlf
          · refine ⟨rp, buf, ?_, ?_⟩
            · rw [if_neg (by simp [hcrlf.mpr hl])]
              simp [printedHeader, linesBefore, hl]
            · simp [linesAfter, hl]
          · have hne : strcmpEq buf crlf = false := by
              rw [← Bool.not_eq_true, hcrlf]
              exact hl
            obtain ⟨rp₁, buf₁, n₁, hread⟩ : ∃ rp₁ buf₁ n₁,
                rioReadlineb rp buf maxBuf = (rp₁, buf₁, n₁) := ⟨_, _, _, rfl⟩
            obtain ⟨rp', buf', hrun, hleft⟩ := ih (rioReadlineb_current hread)
              (Nat.lt_of_succ_lt_succ hfuel) (out ++ printHeader (bufText buf))
            refine ⟨rp', buf', ?_, ?_⟩
            · rw [if_pos ⟨hne, hn⟩, hread]
              simpa [printedHeader, linesBefore, hl, htext] using hrun
            · rw [hleft]
              simp [linesAfter, hl]

/-- The loop over the body prints every line. -/
theorem bodyLoop_spec (h : Current rp buf n lines) {fuel : ℕ}
    (hfuel : lines.length < fuel) (out : Text) :
    bodyLoop fuel rp buf n out = some (out ++ printedBody lines) := by
  induction fuel generalizing rp buf n lines out with
  | zero => exact absurd hfuel (Nat.not_lt_zero _)
  | succ fuel ih =>
      cases h with
      | eof hn hrest =>
          rw [bodyLoop, if_neg (by simp [hn])]
          simp [printedBody]
      | line hn htext hcrlf =>
          obtain ⟨rp₁, buf₁, n₁, hread⟩ : ∃ rp₁ buf₁ n₁,
              rioReadlineb rp buf maxBuf = (rp₁, buf₁, n₁) := ⟨_, _, _, rfl⟩
          rw [bodyLoop, if_pos hn, hread]
          refine (ih (rioReadlineb_current hread) (Nat.lt_of_succ_lt_succ hfuel) _).trans ?_
          simp [printedBody, htext]

end Loops

theorem length_linesAfter_le (lines : List Text) : (linesAfter lines).length ≤ lines.length := by
  rw [linesAfter, List.length_tail]
  exact (Nat.sub_le _ _).trans (List.dropWhile_suffix _).length_le

/-- `clientPrint` ends, and what it prints depends on the lines of the response alone:
not on how the response arrives, nor on what its array holds at first. -/
theorem clientPrint_eq {conn : List Delivery} {fuel : ℕ} (buf : Buffer)
    (hfuel : (streamLines (delivered conn)).length < fuel) :
    clientPrint fuel conn buf = some (printedHeader (streamLines (delivered conn)) ++
      printedBody (linesAfter (streamLines (delivered conn)))) := by
  have hstream : (rioReadinitb conn).stream = delivered conn := List.nil_append _
  obtain ⟨rp₁, buf₁, n₁, hread₁⟩ : ∃ rp₁ buf₁ n₁,
      rioReadlineb (rioReadinitb conn) buf maxBuf = (rp₁, buf₁, n₁) := ⟨_, _, _, rfl⟩
  have hfirst := rioReadlineb_current hread₁
  rw [hstream] at hfirst
  obtain ⟨rp₂, buf₂, hheader, hleft⟩ := headerLoop_spec hfirst hfuel []
  obtain ⟨rp₃, buf₃, n₃, hread₃⟩ : ∃ rp₃ buf₃ n₃,
      rioReadlineb rp₂ buf₂ maxBuf = (rp₃, buf₃, n₃) := ⟨_, _, _, rfl⟩
  have hbody := rioReadlineb_current hread₃
  rw [hleft] at hbody
  rw [clientPrint, hread₁]
  simp only [hheader, hread₃]
  exact bodyLoop_spec hbody ((length_linesAfter_le _).trans_lt hfuel) _

end OsCoursework.Server
