import OsCoursework.Server.Record
import OsCoursework.Support.HeaderBlock

/-!
# Framing of responses

The headers of every response are a block of lines that `append_stats` ends with
an empty line.  For a static file and for the log the block has one
`Content-Length` field; a CGI program writes its own only after that empty line,
so the block of a dynamic response has none.
-/

namespace OsCoursework.Server

open OsCoursework.HeaderBlock
open OsCoursework.Server.Logging

/-! ## Numerals -/

theorem isDigit_of_mem_digits {m : ℕ} {c : Char} (h : c ∈ Nat.toDigits 10 m) :
    c.isDigit :=
  Nat.isDigit_of_mem_toDigits (by decide) (by decide) h

theorem mem_decimal {z : ℤ} {c : Char} (h : c ∈ decimal z) : c = '-' ∨ c.isDigit := by
  rw [decimal] at h
  split at h
  · rcases List.mem_cons.mp h with rfl | h
    · exact Or.inl rfl
    · exact Or.inr (isDigit_of_mem_digits h)
  · exact Or.inr (isDigit_of_mem_digits h)

theorem cr_not_mem_decimal (z : ℤ) : '\r' ∉ decimal z := by
  intro h
  rcases mem_decimal h with h | h <;> exact absurd h (by decide)

theorem cr_not_mem_zeroPadded (width : ℕ) (z : ℤ) : '\r' ∉ zeroPadded width z := by
  have hdigits : '\r' ∉ Nat.toDigits 10 z.natAbs := fun h =>
    absurd (isDigit_of_mem_digits h) (by decide)
  rw [zeroPadded]
  split <;> simp [hdigits]

theorem cr_not_mem_timestamp (t : Timeval) : '\r' ∉ timestamp t := by
  rw [timestamp]
  simp [cr_not_mem_decimal, cr_not_mem_zeroPadded]

/-- A numeral reads back unless it is negative. -/
theorem numeral_decimal (z : ℤ) :
    numeral (' ' :: decimal z) = if z < 0 then none else some z.toNat := by
  rw [decimal]
  by_cases hz : z < 0
  · rw [if_pos hz, if_pos hz]
    simp [numeral]
  · rw [if_neg hz, if_neg hz]
    have hall : ∀ c ∈ Nat.toDigits 10 z.natAbs, c.isDigit :=
      fun c h => isDigit_of_mem_digits h
    have hdrop : (' ' :: Nat.toDigits 10 z.natAbs).dropWhile (· = ' ') =
        Nat.toDigits 10 z.natAbs := by
      rw [List.dropWhile_cons_of_pos (by decide)]
      cases hdigits : Nat.toDigits 10 z.natAbs with
      | nil => rfl
      | cons c cs =>
          apply List.dropWhile_cons_of_neg
          have hc := hall c (by rw [hdigits]; exact List.mem_cons_self)
          rw [decide_eq_true_eq]
          rintro rfl
          exact absurd hc (by decide)
    have hvalue : Nat.ofDigitChars 10 (Nat.toDigits 10 z.natAbs) 0 = z.toNat := by
      rw [Nat.ofDigitChars_toDigits (by decide) (by decide)]
      omega
    rw [numeral, hdrop, if_pos ⟨Nat.toDigits_ne_nil, List.all_eq_true.mpr hall⟩, hvalue]

/-! ## The lines of the statistics -/

def statLines (t : ThreadsStats) (tm : TimeStats) : List Text :=
  ["Stat-Req-Arrival:: ".toList ++ timestamp tm.taskArrival,
    "Stat-Req-Dispatch:: ".toList ++ timestamp tm.taskDispatch,
    "Stat-Log-Arrival:: ".toList ++ timestamp tm.logEnter,
    "Stat-Log-Dispatch:: ".toList ++ timestamp tm.logExit,
    "Stat-Thread-Id:: ".toList ++ decimal t.id,
    "Stat-Thread-Count:: ".toList ++ decimal t.totalReq,
    "Stat-Thread-Static:: ".toList ++ decimal t.statReq,
    "Stat-Thread-Dynamic:: ".toList ++ decimal t.dynmReq,
    "Stat-Thread-Post:: ".toList ++ decimal t.postReq]

/-- What is appended to the lines of a header. -/
theorem appendStats_lines (lines : List Text) (t : ThreadsStats) (tm : TimeStats) :
    appendStats (lines.flatMap (· ++ lineEnd)) t tm =
      (lines ++ statLines t tm).flatMap (· ++ lineEnd) ++ lineEnd := by
  have hcrlf : crlf = lineEnd := by decide
  simp only [appendStats, statLines, hcrlf, List.flatMap_append, List.flatMap_cons,
    List.flatMap_nil, List.append_assoc, List.append_nil]

theorem statLines_proper (t : ThreadsStats) (tm : TimeStats) :
    ∀ l ∈ statLines t tm, l ≠ [] ∧ '\r' ∉ l := by
  simp [statLines, cr_not_mem_decimal, cr_not_mem_timestamp]

/-- None of them is a `Content-Length` field. -/
theorem statLines_fields (t : ThreadsStats) (tm : TimeStats) :
    (statLines t tm).filterMap (fieldValue "content-length".toList) = [] := by
  apply List.filterMap_eq_nil_iff.mpr
  intro l hl
  simp only [statLines, List.mem_cons, List.not_mem_nil, or_false] at hl
  rcases hl with rfl | rfl | rfl | rfl | rfl | rfl | rfl | rfl | rfl <;>
    exact fieldValue_of_ne (by decide) (by decide)

/-- Framing of a response depends only on its own header lines. -/
theorem framed_response_iff {lines : List Text} (hne : lines ≠ [])
    (hlines : ∀ l ∈ lines, l ≠ [] ∧ '\r' ∉ l) (t : ThreadsStats) (tm : TimeStats)
    (body : Text) :
    Framed (appendStats (lines.flatMap (· ++ lineEnd)) t tm ++ body) ↔
      ∃ value, lines.filterMap (fieldValue "content-length".toList) = [value] ∧
        numeral value = some body.length := by
  rw [appendStats_lines, framed_block_iff (by simp [hne]), List.filterMap_append,
    statLines_fields, List.append_nil]
  intro l hl
  rcases List.mem_append.mp hl with hl | hl
  · exact hlines l hl
  · exact statLines_proper t tm l hl

/-! ## The kinds of responses -/

def okLines : List Text :=
  ["HTTP/1.0 200 OK".toList, "Server: OS-HW3 Web Server".toList]

/-- The header lines of a response that tells its length. -/
def sizedLines (len : ℤ) (filetype : Text) : List Text :=
  okLines ++ ["Content-Length: ".toList ++ decimal len,
    "Content-Type: ".toList ++ filetype]

theorem okHeaders_lines : okHeaders = okLines.flatMap (· ++ lineEnd) := by
  decide

theorem okLines_proper : ∀ l ∈ okLines, l ≠ [] ∧ '\r' ∉ l := by
  decide

theorem sizedHeaders_lines (len : ℤ) (filetype : Text) :
    okHeaders ++ ("Content-Length: ".toList ++ decimal len ++ crlf) ++
        ("Content-Type: ".toList ++ filetype ++ crlf) =
      (sizedLines len filetype).flatMap (· ++ lineEnd) := by
  have hcrlf : crlf = lineEnd := by decide
  simp only [sizedLines, okHeaders_lines, hcrlf, List.flatMap_append,
    List.flatMap_cons, List.flatMap_nil, List.append_assoc, List.append_nil]

/-- The headers alone of a CGI response never tell its length. -/
theorem not_framed_dynamic (t : ThreadsStats) (tm : TimeStats) (body : Text) :
    ¬ Framed (appendStats okHeaders t tm ++ body) := by
  rw [okHeaders_lines, framed_response_iff (by decide) okLines_proper]
  rintro ⟨value, hvalue, -⟩
  have hnone : okLines.filterMap (fieldValue "content-length".toList) = [] := by
    decide
  rw [hnone] at hvalue
  cases hvalue

theorem framed_sized_iff {filetype : Text} (hcr : '\r' ∉ filetype) (len : ℤ)
    (t : ThreadsStats) (tm : TimeStats) (body : Text) :
    Framed (appendStats ((sizedLines len filetype).flatMap (· ++ lineEnd)) t tm ++
      body) ↔ (body.length : ℤ) = len := by
  have hproper : ∀ l ∈ sizedLines len filetype, l ≠ [] ∧ '\r' ∉ l := by
    intro l hl
    rcases List.mem_append.mp hl with hl | hl
    · exact okLines_proper l hl
    · simp only [List.mem_cons, List.not_mem_nil, or_false] at hl
      rcases hl with rfl | rfl
      · simp [cr_not_mem_decimal]
      · simp [hcr]
  have hname : "Content-Length: ".toList = "Content-Length".toList ++ [':', ' '] := by
    decide
  have hlength : fieldValue "content-length".toList
      ("Content-Length: ".toList ++ decimal len) = some (' ' :: decimal len) := by
    rw [hname, List.append_assoc]
    exact (fieldValue_eq _ (by decide)).trans (if_pos (by decide))
  have htype : fieldValue "content-length".toList
      ("Content-Type: ".toList ++ filetype) = none :=
    fieldValue_of_ne (by decide) (by decide)
  have hfields : (sizedLines len filetype).filterMap
      (fieldValue "content-length".toList) = [' ' :: decimal len] := by
    have hok : okLines.filterMap (fieldValue "content-length".toList) = [] := by
      decide
    rw [sizedLines, List.filterMap_append, hok, List.filterMap_cons_some hlength,
      List.filterMap_cons_none htype]
    rfl
  rw [framed_response_iff (by simp [sizedLines]) hproper, hfields]
  simp only [List.cons.injEq, and_true, exists_eq_left', numeral_decimal]
  split
  · next hneg =>
    constructor
    · exact fun h => absurd h nofun
    · intro h
      omega
  · rw [Option.some.injEq]
    omega

/-- An allocation of `n` bytes can only succeed for a size that is not negative. -/
theorem toSizeT_eq_of_malloc (host : Host) {n : ℤ} (hlow : -2147483648 ≤ n)
    (hhigh : n < 2147483648) (h : host.malloc (toSizeT n) = true) :
    (toSizeT n : ℤ) = n := by
  have hlt := host.malloc_lt _ h
  rw [toSizeT] at hlt ⊢
  omega

/-- The bytes sent of a static file are as many as announced when its buffer could
be allocated, and none otherwise. -/
theorem length_static_body {host : Host} {filename : Text} {size : ℤ}
    {body : Option Text}
    (h : requestPrepareStatic host filename (wrap size) = some body) :
    ((((rioWriten body (wrap size)).getD []).length : ℕ) : ℤ) = wrap size ↔
      wrap size = 0 ∨ host.malloc (toSizeT (wrap size)) = true := by
  obtain ⟨hlow, hhigh⟩ := wrap_lt size
  obtain ⟨contents, -, h⟩ := Option.bind_eq_some_iff.mp h
  split at h
  · next hmalloc =>
    cases h
    have hsize := toSizeT_eq_of_malloc host hlow hhigh hmalloc
    simp only [rioWriten, Option.getD_some, List.length_take, List.length_map,
      List.length_range, Nat.min_self, hsize, hmalloc, or_true]
  · next hmalloc =>
    cases h
    simp only [hmalloc, Bool.false_eq_true, or_false, rioWriten]
    by_cases hzero : wrap size = 0
    · simp [hzero]
    · rw [if_neg hzero]
      simp only [Option.getD_none, List.length_nil, hzero, iff_false]
      exact fun h => hzero h.symm

theorem cr_not_mem_filetype (filename : Text) :
    '\r' ∉ requestGetFiletype filename := by
  unfold requestGetFiletype
  split
  · decide
  · split
    · decide
    · split <;> decide

/-! ## Requests answered with status 200 -/

section Prepare

variable {host : Host} {method uri : Text} {t t' : ThreadsStats}

/-- A GET that is answered is for a static file or for a CGI program. -/
theorem prepare_get_cases {headers : Text} {body : Option Text} {len : ℤ}
    (h : prepare host method uri t = some (t', .get headers body len)) :
    strcasecmpEq method "GET".toList = true ∧
    (((requestParseURI uri).isStatic = true ∧ ∃ sbuf,
        host.stat (requestParseURI uri).filename = some sbuf ∧ len = wrap sbuf.size ∧
        requestPrepareStatic host (requestParseURI uri).filename len = some body ∧
        headers = (sizedLines len
          (requestGetFiletype (requestParseURI uri).filename)).flatMap
            (· ++ lineEnd)) ∨
      ((requestParseURI uri).isStatic = false ∧ headers = okHeaders)) := by
  obtain ⟨total, -, h⟩ := Option.bind_eq_some_iff.mp h
  dsimp only at h
  split at h
  · next hget =>
    refine ⟨hget, ?_⟩
    split at h
    · cases h
    · next sbuf hstat =>
      split at h
      · next hstatic =>
        split at h
        · cases h
        · obtain ⟨count, -, h⟩ := Option.bind_eq_some_iff.mp h
          obtain ⟨body, hbody, h⟩ := Option.bind_eq_some_iff.mp h
          cases h
          exact Or.inl ⟨hstatic, sbuf, hstat, rfl, hbody, sizedHeaders_lines _ _⟩
      · next hdynamic =>
        split at h
        · cases h
        · obtain ⟨count, -, h⟩ := Option.bind_eq_some_iff.mp h
          obtain ⟨⟨body, len⟩, -, h⟩ := Option.bind_eq_some_iff.mp h
          cases h
          exact Or.inr ⟨Bool.eq_false_of_not_eq_true hdynamic, rfl⟩
  · split at h
    · obtain ⟨count, -, h⟩ := Option.bind_eq_some_iff.mp h
      cases h
    · cases h

theorem not_get_of_post (h : prepare host method uri t = some (t', .post)) :
    strcasecmpEq method "GET".toList = false := by
  by_contra hget
  rw [Bool.not_eq_false] at hget
  obtain ⟨total, -, h⟩ := Option.bind_eq_some_iff.mp h
  dsimp only at h
  rw [if_pos hget] at h
  split at h
  · cases h
  · split at h
    · split at h
      · cases h
      · obtain ⟨count, -, h⟩ := Option.bind_eq_some_iff.mp h
        obtain ⟨body, -, h⟩ := Option.bind_eq_some_iff.mp h
        cases h
    · split at h
      · cases h
      · obtain ⟨count, -, h⟩ := Option.bind_eq_some_iff.mp h
        obtain ⟨⟨body, len⟩, -, h⟩ := Option.bind_eq_some_iff.mp h
        cases h

end Prepare

/-- The headers of the log are those of a text file. -/
theorem postHeaders_lines (len : ℤ) :
    postHeaders len =
      (sizedLines len "text/plain".toList).flatMap (· ++ lineEnd) := by
  rw [← sizedHeaders_lines]
  have htype : "Content-Type: text/plain\r\n".toList =
      "Content-Type: ".toList ++ "text/plain".toList ++ crlf := by
    decide
  rw [postHeaders, htype]

/-- A POST sends as many bytes as it announces. -/
theorem length_post_body {log : LogBuffer} {dst : Text} {len : ℤ}
    (hlog : 0 ≤ log.length) (h : getLog log = some (dst, len)) :
    ((((rioWriten (some dst) len).getD []).length : ℕ) : ℤ) = len := by
  obtain ⟨size, hint, h⟩ := Option.bind_eq_some_iff.mp h
  obtain ⟨bytes, hcopy, h⟩ := Option.bind_eq_some_iff.mp h
  cases h
  have hrange : -2147483648 ≤ log.length + 1 ∧ log.length + 1 ≤ 2147483647 := by
    unfold int at hint
    split at hint
    · assumption
    · cases hint
  rw [int_eq_some hint] at hcopy
  have hcontent := copyOut_spec hlog hcopy
  have hwrite : rioWriten (some dst) log.length =
      some (dst.take (toSizeT log.length)) := rfl
  have hbody := rioWriten_some hlog (by omega) hwrite
  rw [hwrite, Option.getD_some, hbody, hcontent, LogBuffer.content, List.length_map,
    List.length_range]
  omega

/-- The request is for the log, or for a static file whose size, as an `int`, is
zero or the size of a buffer that could be allocated. -/
def TellsLength (host : Host) (method uri : Text) : Prop :=
  strcasecmpEq method "GET".toList = false ∨
    (requestParseURI uri).isStatic = true ∧ ∃ sbuf,
      host.stat (requestParseURI uri).filename = some sbuf ∧
      (wrap sbuf.size = 0 ∨ host.malloc (toSizeT (wrap sbuf.size)) = true)

/-- A response with status 200 is framed exactly when its request is one of these;
that of a CGI program never is. -/
theorem response_framed_iff (host : Host) (method uri : Text) (tm : TimeStats)
    (t : ThreadsStats) (log : LogBuffer) (stream : Text) (hlog : 0 ≤ log.length)
    (h : requestHandle host method uri tm t log = some (true, stream)) :
    Framed stream ↔ TellsLength host method uri := by
  obtain ⟨⟨t', prepared⟩, hprepare, h⟩ := Option.bind_eq_some_iff.mp h
  cases prepared with
  | refused cause errnum shortmsg longmsg => cases h
  | get headers body len =>
      cases h
      obtain ⟨hget, hkind⟩ := prepare_get_cases hprepare
      rcases hkind with ⟨hstatic, sbuf, hstat, hlen, hbody, rfl⟩ | ⟨hdynamic, rfl⟩
      · rw [hlen] at hbody
        rw [framed_sized_iff (cr_not_mem_filetype _), hlen, length_static_body hbody]
        simp only [TellsLength, hget, hstatic, hstat, Bool.true_eq_false, false_or,
          true_and, Option.some.injEq, exists_eq_left']
      · apply iff_of_false (not_framed_dynamic _ _ _)
        rintro (hpost | ⟨hstatic, -⟩)
        · rw [hget] at hpost
          cases hpost
        · rw [hdynamic] at hstatic
          cases hstatic
  | post =>
      obtain ⟨⟨dst, len⟩, hgetLog, h⟩ := Option.bind_eq_some_iff.mp h
      cases h
      rw [postHeaders_lines, framed_sized_iff (by decide)]
      exact iff_of_true (length_post_body hlog hgetLog)
        (Or.inl (not_get_of_post hprepare))

/-- A host whose CGI programs write what `output.c` writes: a length, a type, an
empty line and the body. -/
def cgiHost : Host :=
  { plainHost with
    cgi := fun _ _ => .output
      "Content-length: 5\r\nContent-type: text/html\r\n\r\nhello".toList }

def allMidnight : TimeStats := ⟨midnight, midnight, midnight, midnight⟩

theorem response_framed_iff_static :
    ∃ stream, requestHandle (fileHost "hello".toList) "GET".toList "/".toList
        allMidnight ⟨1, 0, 0, 0, 0⟩ (createLog fun _ => 'x') = some (true, stream) ∧
      "\r\n\r\nhello".toList <:+ stream ∧ Framed stream := by
  have hrun : (requestHandle (fileHost "hello".toList) "GET".toList "/".toList
      allMidnight ⟨1, 0, 0, 0, 0⟩ (createLog fun _ => 'x')).map
      (fun r => (r.1, decide ("\r\n\r\nhello".toList <:+ r.2))) = some (true, true) := by
    decide +kernel
  obtain ⟨⟨ok, stream⟩, h, heq⟩ := Option.map_eq_some_iff.mp hrun
  obtain ⟨rfl, hsuffix⟩ := Prod.mk.inj heq
  refine ⟨stream, h, of_decide_eq_true hsuffix, ?_⟩
  apply (response_framed_iff (fileHost "hello".toList) _ _ _ _ _ stream
    (Int.le_refl 0) h).mpr
  exact Or.inr ⟨rfl, ⟨true, true, true, 5⟩, rfl, Or.inr rfl⟩

/-- The response to a CGI request is not framed. -/
theorem response_cgi_not_framed :
    ∃ stream, requestHandle cgiHost "GET".toList "/output.cgi".toList allMidnight
      ⟨1, 0, 0, 0, 0⟩ (createLog fun _ => 'x') = some (true, stream) ∧
      ¬ Framed stream :=
  ⟨_, rfl, not_framed_dynamic _ _ _⟩

end OsCoursework.Server
