import OsCoursework.Server.Client

/-!
# A request and its response

What `clientSend` sends arrives at `requestHandle` word for word, and what
`requestHandle` answers arrives at the output of `clientPrint` header by header.
-/

namespace OsCoursework.Server

open OsCoursework.LineCutting
open OsCoursework.HeaderBlock
open OsCoursework.Server.Checked

/-! ## Cutting a text into its lines -/

/-- A line that the array of its reader has room for. -/
theorem streamLines_append_cons {l rest : Text} (hl : '\n' ∉ l)
    (hlength : l.length + 1 < maxLine) :
    streamLines (l ++ '\n' :: rest) = (l ++ ['\n']) :: streamLines rest :=
  cutLines_append_cons hl (Nat.lt_sub_of_add_lt hlength)

theorem flatten_streamLines (stream : Text) : (streamLines stream).flatten = stream :=
  flatten_cutLines stream

theorem cString_of_not_mem {s : Text} (h : '\x00' ∉ s) : cString s = s := by
  apply List.takeWhile_eq_self_iff.mpr
  intro c hc
  rw [decide_eq_true_eq]
  rintro rfl
  exact h hc

/-- A character of a word. -/
def graphic (c : Char) : Bool :=
  ! isspace c && c ≠ '\x00'

/-- An argument of the client that is one word. -/
structure IsWord (w : Text) : Prop where
  ne : w ≠ []
  all_graphic : w.all graphic = true

theorem IsWord.graphic {w : Text} (hw : IsWord w) {c : Char} (hc : c ∈ w) :
    isspace c = false ∧ c ≠ '\x00' := by
  have hall := List.all_eq_true.mp hw.all_graphic c hc
  simpa [Server.graphic] using hall

variable {hostname filename method request : Text}

/-- Not a control character. -/
def printable (c : Char) : Bool :=
  ' ' ≤ c

/-- A line of a header: not empty, without control characters, and short enough for the
array it is read into. -/
structure HeaderLine (l : Text) : Prop where
  ne : l ≠ []
  all_printable : l.all printable = true
  short : l.length + 2 < maxLine

section Block

variable {l : Text} {lines : List Text}

theorem HeaderLine.control_not_mem (hl : HeaderLine l) {c : Char}
    (hc : printable c = false) : c ∉ l :=
  fun h => Bool.false_ne_true (hc.symm.trans (List.all_eq_true.mp hl.all_printable c h))

theorem streamLines_block (hlines : ∀ l ∈ lines, HeaderLine l) (rest : Text) :
    streamLines (lines.flatMap (· ++ crlf) ++ rest) =
      lines.map (· ++ crlf) ++ streamLines rest := by
  induction lines with
  | nil => rfl
  | cons l lines ih =>
      have hl := hlines l List.mem_cons_self
      have hcrlf : crlf = ['\r', '\n'] := by decide
      have hnewline : '\n' ∉ l ++ ['\r'] := by
        simp [hl.control_not_mem (by decide : printable '\n' = false)]
      have hsplit : l ++ crlf ++ (lines.flatMap (· ++ crlf) ++ rest) =
          (l ++ ['\r']) ++ '\n' :: (lines.flatMap (· ++ crlf) ++ rest) := by
        rw [hcrlf]
        simp
      have hshort := hl.short
      rw [List.flatMap_cons, List.append_assoc, hsplit, streamLines_append_cons hnewline,
        ih fun l h => hlines l (List.mem_cons_of_mem _ h), hcrlf]
      · simp
      · rw [List.length_append, List.length_singleton]
        omega

/-- What the client prints of a response with these header lines and this body. -/
def printedResponse (lines : List Text) (body : Text) : Text :=
  lines.flatMap (fun l => printHeader (l ++ crlf)) ++ printedBody (streamLines body)

theorem clientPrint_block (hlines : ∀ l ∈ lines, HeaderLine l) {body : Text}
    {conn : List Delivery} (hconn : delivered conn = lines.flatMap (· ++ crlf) ++ crlf ++ body)
    {fuel : ℕ} (hfuel : (delivered conn).length < fuel) (buf : Buffer) :
    clientPrint fuel conn buf = some (printedResponse lines body) := by
  have hsplit : streamLines (delivered conn) =
      lines.map (· ++ crlf) ++ crlf :: streamLines body := by
    have hempty : streamLines (crlf ++ body) = crlf :: streamLines body :=
      streamLines_append_cons (l := ['\r']) (by decide) (by decide)
    rw [hconn, List.append_assoc, streamLines_block hlines, hempty]
  have hstart : crlf ∉ lines.map (· ++ crlf) := by
    intro h
    obtain ⟨l, hl, heq⟩ := List.mem_map.mp h
    exact (hlines l hl).ne (List.append_left_eq_self.mp heq)
  have htext : ∀ l ∈ lines, cString (l ++ crlf) = l ++ crlf := by
    intro l hl
    apply cString_of_not_mem
    rw [List.mem_append, not_or]
    exact ⟨(hlines l hl).control_not_mem (by decide), by decide⟩
  rw [clientPrint_eq buf ((length_cutLines_le _).trans_lt hfuel), hsplit, printedHeader,
    linesBefore_append hstart, linesAfter_append hstart, List.flatMap_map, printedResponse]
  congr 2
  exact List.flatMap_congr fun l hl => congrArg printHeader (htext l hl)

/-- A body without a NUL is printed as it is. -/
theorem printedBody_eq {body : Text} (h : '\x00' ∉ body) :
    printedBody (streamLines body) = body := by
  have hline : ∀ l ∈ streamLines body, cString l = l := by
    intro l hl
    apply cString_of_not_mem
    intro hmem
    apply h
    rw [← flatten_streamLines body]
    exact List.mem_flatten_of_mem hl hmem
  rw [printedBody, List.flatMap_congr hline, List.flatMap_id', flatten_streamLines]

end Block

/-! ## The numbers in a header -/

theorem printable_of_isDigit {c : Char} (h : c.isDigit) : printable c = true := by
  rw [Char.isDigit, Bool.and_eq_true, decide_eq_true_eq] at h
  exact decide_eq_true (Char.le_trans (by decide : ' ' ≤ '0') h.1)

theorem printable_digits (m : ℕ) : (Nat.toDigits 10 m).all printable = true :=
  List.all_eq_true.mpr fun _ hc => printable_of_isDigit (isDigit_of_mem_digits hc)

theorem printable_decimal (z : ℤ) : (decimal z).all printable = true := by
  rw [decimal]
  split
  · rw [List.all_cons, printable_digits]
    rfl
  · exact printable_digits _

theorem printable_zeroPadded (width : ℕ) (z : ℤ) : (zeroPadded width z).all printable = true := by
  have hzero (m : ℕ) : (List.replicate m '0').all printable = true :=
    List.all_eq_true.mpr fun c hc => List.eq_of_mem_replicate hc ▸ rfl
  rw [zeroPadded]
  split
  · rw [List.all_append, List.all_cons, hzero, printable_digits]
    rfl
  · rw [List.all_append, hzero, printable_digits]
    rfl

theorem printable_timestamp (t : Timeval) : (timestamp t).all printable = true := by
  rw [timestamp, List.all_append, List.all_append, printable_decimal, printable_zeroPadded]
  rfl

theorem scanSign_of_isDigit {c : Char} (hc : c.isDigit) (s : Text) :
    scanSign (c :: s) = (1, c :: s) := by
  rw [scanSign]
  · rintro rest heq
    cases heq
    exact absurd hc (by decide)
  · rintro rest heq
    cases heq
    exact absurd hc (by decide)

/-- The conversion `%d` reads what `%d` has written. -/
theorem scanInt_decimal {z : ℤ} (hz : IsInt z) {rest : Text}
    (hrest : rest.takeWhile Char.isDigit = []) : scanInt (decimal z ++ rest) = some z := by
  obtain ⟨hlow, hhigh⟩ := hz
  have hdigits : (Nat.toDigits 10 z.natAbs ++ rest).takeWhile Char.isDigit =
      Nat.toDigits 10 z.natAbs := by
    rw [List.takeWhile_append_of_pos fun c hc => isDigit_of_mem_digits hc, hrest,
      List.append_nil]
  have hvalue : Nat.ofDigitChars 10 (Nat.toDigits 10 z.natAbs) 0 = z.natAbs :=
    Nat.ofDigitChars_toDigits (by decide) (by decide)
  have hsign : scanSign (decimal z ++ rest) =
      (if z < 0 then -1 else 1, Nat.toDigits 10 z.natAbs ++ rest) := by
    rw [decimal]
    split
    · rfl
    · obtain ⟨c, cs, hcs⟩ := List.exists_cons_of_ne_nil
        (Nat.toDigits_ne_nil (b := 10) (n := z.natAbs))
      have hc : c.isDigit := isDigit_of_mem_digits (m := z.natAbs) (by simp [hcs])
      rw [hcs]
      exact scanSign_of_isDigit hc _
  have hz : (if z < 0 then -1 else 1) * (z.natAbs : ℤ) = z := by
    split <;> omega
  simp only [scanInt, hsign, hdigits, hvalue, hz]
  rw [if_neg Nat.toDigits_ne_nil, wrap_of_lt]
  · congr 1
    omega
  · omega
  · omega

theorem isspace_of_mem_decimal {z : ℤ} {c : Char} (hc : c ∈ decimal z) :
    isspace c = false := by
  by_contra hspace
  rw [Bool.not_eq_false, isspace, decide_eq_true_eq] at hspace
  simp only [List.mem_cons, List.not_mem_nil, or_false] at hspace
  rcases mem_decimal hc with rfl | hdigit
  · exact absurd hspace (by decide)
  · rcases hspace with rfl | rfl | rfl | rfl | rfl | rfl <;> exact absurd hdigit (by decide)

theorem decimal_ne_nil (z : ℤ) : decimal z ≠ [] := by
  rw [decimal]
  split
  · exact List.cons_ne_nil _ _
  · exact Nat.toDigits_ne_nil

/-- The line that tells the length. -/
theorem scanLength_decimal {z : ℤ} (hz : IsInt z) :
    scanLength ("Content-Length: ".toList ++ decimal z ++ crlf) = some z := by
  obtain ⟨c, cs, hcs⟩ := List.exists_cons_of_ne_nil (decimal_ne_nil z)
  have hc : isspace c = false := isspace_of_mem_decimal (z := z) (by simp [hcs])
  have hdrop : (' ' :: (decimal z ++ crlf)).dropWhile isspace = decimal z ++ crlf := by
    rw [List.dropWhile_cons_of_pos (by decide), hcs]
    exact List.dropWhile_cons_of_neg (by simp [hc])
  have hsplit : "Content-Length: ".toList ++ decimal z ++ crlf =
      "Content-Length:".toList ++ ' ' :: (decimal z ++ crlf) := by
    have hblank : "Content-Length: ".toList = "Content-Length:".toList ++ [' '] := by decide
    rw [hblank]
    simp only [List.append_assoc, List.cons_append, List.nil_append]
  rw [hsplit, scanLength, if_pos (List.prefix_append _ _)]
  have hbehind : ("Content-Length:".toList ++ ' ' :: (decimal z ++ crlf)).drop
      "Content-Length:".length = ' ' :: (decimal z ++ crlf) :=
    List.drop_left
  rw [hbehind, hdrop]
  exact scanInt_decimal hz (by decide)

/-- A line with another name. -/
theorem scanLength_of_ne (name : Text) (hne : ¬ name.take 13 <+: "Content-Length:".toList)
    (value : Text) : scanLength (name ++ value ++ crlf) = none := by
  rw [scanLength, if_neg]
  intro h
  apply hne
  apply List.prefix_of_prefix_length_le _ h
  · rw [List.length_take]
    exact (Nat.min_le_left _ _).trans (by decide)
  · rw [List.append_assoc]
    exact (List.take_prefix _ _).trans (List.prefix_append _ _)

/-! ## The header lines of the server -/

section ServerLines

variable {t : ThreadsStats} {tm : TimeStats}

/-- What may follow the name in a header line. -/
def IsValue (value : Text) : Prop :=
  value.all printable = true ∧ value.length ≤ 60

instance (value : Text) : Decidable (IsValue value) :=
  inferInstanceAs (Decidable (_ ∧ _))

theorem isValue_decimal {z : ℤ} (hz : IsInt z) : IsValue (decimal z) :=
  ⟨printable_decimal z, (length_decimal_of_isInt hz).trans (by decide)⟩

theorem isValue_timestamp {time : Timeval} (htime : time.InRange) : IsValue (timestamp time) :=
  ⟨printable_timestamp time, length_timestamp_le htime⟩

theorem headerLine_append {name value : Text}
    (hname : name ≠ [] ∧ name.all printable = true ∧ name.length ≤ 32) (hvalue : IsValue value) :
    HeaderLine (name ++ value) where
  ne := by simp [hname.1]
  all_printable := by
    rw [List.all_append, hname.2.1, hvalue.1]
    rfl
  short := by
    have hlengthName := hname.2.2
    have hlengthValue := hvalue.2
    have hmax : maxLine = 8192 := rfl
    rw [List.length_append]
    omega

/-- The names of the statistics are not that of the length. -/
theorem statLines_spec (ht : t.InRange) (htm : tm.InRange) :
    ∀ l ∈ statLines t tm, HeaderLine l ∧ scanLength (l ++ crlf) = none := by
  intro l hl
  simp only [statLines, List.mem_cons, List.not_mem_nil, or_false] at hl
  rcases hl with rfl | rfl | rfl | rfl | rfl | rfl | rfl | rfl | rfl
  · exact ⟨headerLine_append (by decide) (isValue_timestamp htm.taskArrival),
      scanLength_of_ne _ (by decide) _⟩
  · exact ⟨headerLine_append (by decide) (isValue_timestamp htm.taskDispatch),
      scanLength_of_ne _ (by decide) _⟩
  · exact ⟨headerLine_append (by decide) (isValue_timestamp htm.logEnter),
      scanLength_of_ne _ (by decide) _⟩
  · exact ⟨headerLine_append (by decide) (isValue_timestamp htm.logExit),
      scanLength_of_ne _ (by decide) _⟩
  · exact ⟨headerLine_append (by decide) (isValue_decimal ht.id),
      scanLength_of_ne _ (by decide) _⟩
  · exact ⟨headerLine_append (by decide) (isValue_decimal ht.totalReq),
      scanLength_of_ne _ (by decide) _⟩
  · exact ⟨headerLine_append (by decide) (isValue_decimal ht.statReq),
      scanLength_of_ne _ (by decide) _⟩
  · exact ⟨headerLine_append (by decide) (isValue_decimal ht.dynmReq),
      scanLength_of_ne _ (by decide) _⟩
  · exact ⟨headerLine_append (by decide) (isValue_decimal ht.postReq),
      scanLength_of_ne _ (by decide) _⟩

/-- The lengths that the client prints. -/
def announced (lines : List Text) : List ℤ :=
  lines.filterMap fun l => scanLength (l ++ crlf)

theorem announced_append (lines lines' : List Text) :
    announced (lines ++ lines') = announced lines ++ announced lines' :=
  List.filterMap_append

theorem announced_cons_none {l : Text} (h : scanLength (l ++ crlf) = none)
    (lines : List Text) : announced (l :: lines) = announced lines :=
  List.filterMap_cons_none h

theorem announced_cons_some {l : Text} {z : ℤ} (h : scanLength (l ++ crlf) = some z)
    (lines : List Text) : announced (l :: lines) = z :: announced lines :=
  List.filterMap_cons_some h

theorem announced_stats (lines : List Text) (ht : t.InRange) (htm : tm.InRange) :
    announced (lines ++ statLines t tm) = announced lines := by
  have hstats : announced (statLines t tm) = [] :=
    List.filterMap_eq_nil_iff.mpr fun l hl => (statLines_spec ht htm l hl).2
  rw [announced_append, hstats, List.append_nil]

theorem okLines_spec : ∀ l ∈ okLines, HeaderLine l ∧ scanLength (l ++ crlf) = none := by
  intro l hl
  simp only [okLines, List.mem_cons, List.not_mem_nil, or_false] at hl
  rcases hl with rfl | rfl
  · exact ⟨⟨by decide, by decide, by decide⟩, by decide⟩
  · exact ⟨⟨by decide, by decide, by decide⟩, by decide⟩

theorem announced_okLines : announced okLines = [] := by
  decide

theorem headerLine_contentLength {len : ℤ} (hlen : IsInt len) :
    HeaderLine ("Content-Length: ".toList ++ decimal len) :=
  headerLine_append (by decide) (isValue_decimal hlen)

theorem isValue_filetype (filename : Text) : IsValue (requestGetFiletype filename) := by
  unfold requestGetFiletype
  split
  · decide
  · split
    · decide
    · split <;> decide

theorem sizedLines_headerLine {len : ℤ} (hlen : IsInt len) {filetype : Text}
    (hfiletype : IsValue filetype) : ∀ l ∈ sizedLines len filetype, HeaderLine l := by
  intro l hl
  rcases List.mem_append.mp hl with hl | hl
  · exact (okLines_spec l hl).1
  · simp only [List.mem_cons, List.not_mem_nil, or_false] at hl
    rcases hl with rfl | rfl
    · exact headerLine_contentLength hlen
    · exact headerLine_append (by decide) hfiletype

theorem announced_sizedLines {len : ℤ} (hlen : IsInt len) (filetype : Text) :
    announced (sizedLines len filetype) = [len] := by
  have htype := scanLength_of_ne "Content-Type: ".toList (by decide) filetype
  rw [sizedLines, announced_append, announced_okLines,
    announced_cons_some (scanLength_decimal hlen), announced_cons_none htype]
  rfl

/-- The header lines of an error, before the statistics. -/
def errorLines (errnum shortmsg : Text) (len : ℤ) : List Text :=
  ["HTTP/1.0 ".toList ++ (errnum ++ " ".toList ++ shortmsg), "Content-Type: text/html".toList,
    "Content-Length: ".toList ++ decimal len]

theorem requestError_lines (cause errnum shortmsg longmsg : Text) (tm : TimeStats)
    (t : ThreadsStats) :
    Server.requestError cause errnum shortmsg longmsg tm t =
      Server.appendStats ((errorLines errnum shortmsg
        (errorPieces cause errnum shortmsg longmsg).flatten.length).flatMap (· ++ lineEnd)) t tm ++
        (errorPieces cause errnum shortmsg longmsg).flatten := by
  have hcrlf : crlf = lineEnd := by decide
  have htype : "Content-Type: text/html\r\n".toList =
      "Content-Type: text/html".toList ++ lineEnd := by decide
  simp only [Server.requestError, errorLines, errorPieces, hcrlf, htype, List.flatten_cons,
    List.flatten_nil, List.flatMap_cons, List.flatMap_nil, List.append_assoc,
    List.append_nil]

theorem errorLines_headerLine {errnum shortmsg : Text} {len : ℤ} (hlen : IsInt len)
    (hstatus : IsValue (errnum ++ " ".toList ++ shortmsg)) :
    ∀ l ∈ errorLines errnum shortmsg len, HeaderLine l := by
  intro l hl
  simp only [errorLines, List.mem_cons, List.not_mem_nil, or_false] at hl
  rcases hl with rfl | rfl | rfl
  · exact headerLine_append (by decide) hstatus
  · exact ⟨by decide, by decide, by decide⟩
  · exact headerLine_contentLength hlen

theorem announced_errorLines (errnum shortmsg : Text) {len : ℤ} (hlen : IsInt len) :
    announced (errorLines errnum shortmsg len) = [len] := by
  have hstatus := scanLength_of_ne "HTTP/1.0 ".toList (by decide)
    (errnum ++ " ".toList ++ shortmsg)
  rw [errorLines, announced_cons_none hstatus, announced_cons_none (by decide),
    announced_cons_some (scanLength_decimal hlen)]
  rfl

end ServerLines

/-! ## The response -/

section Response

variable {host : Host} {uri : Text} {t t' : ThreadsStats} {tm : TimeStats}

theorem isInt_of_int {n m : ℤ} (h : int n = some m) : IsInt m :=
  wrap_of_int h ▸ isInt_wrap n

theorem length_parsed_filename_le (uri : Text) :
    (Server.requestParseURI uri).filename.length ≤ uri.length + 18 := by
  have htake := (List.takeWhile_prefix (fun c : Char => decide (c ≠ '?'))
    (l := uri)).length_le
  have hpublic : "./public/".toList.length = 9 := rfl
  have hhome : "home.html".toList.length = 9 := rfl
  have hdefault : "./public/home.html".toList.length = 18 := rfl
  rw [Server.requestParseURI]
  split
  · exact Nat.le_add_left _ _
  · split
    · split <;> simp only [List.length_append] <;> omega
    · rw [List.length_append]
      omega

/-- An error names its cause in a page that is not much longer. -/
def IsRefusal (bound : ℕ) : Prepared → Prop
  | .refused cause errnum shortmsg longmsg =>
      IsValue (errnum ++ " ".toList ++ shortmsg) ∧
        (errorPieces cause errnum shortmsg longmsg).flatten.length ≤ 171 + bound
  | _ => True

theorem isRefusal_of_overhead {errnum shortmsg longmsg cause : Text} {n bound : ℕ}
    (hpage : PageOverhead errnum shortmsg longmsg n)
    (hstatus : IsValue (errnum ++ " ".toList ++ shortmsg)) (hn : n + cause.length ≤ 171 + bound) :
    IsRefusal bound (.refused cause errnum shortmsg longmsg) := by
  refine ⟨hstatus, ?_⟩
  rw [length_errorPieces, hpage.length_eq]
  exact hn

theorem prepare_spec {prepared : Prepared}
    (h : prepare host method uri t = some (t', prepared)) (ht : t.InRange) :
    t'.InRange ∧ IsRefusal (method.length + uri.length) prepared := by
  have hfile := length_parsed_filename_le uri
  obtain ⟨total, htotal, h⟩ := Option.bind_eq_some_iff.mp h
  have ht₁ : ThreadsStats.InRange { t with totalReq := total } :=
    { ht with totalReq := isInt_of_int htotal }
  dsimp only at h
  split at h
  · split at h
    · cases h
      exact ⟨ht₁, isRefusal_of_overhead overhead_not_found (by decide) (by omega)⟩
    · split at h
      · split at h
        · cases h
          exact ⟨ht₁, isRefusal_of_overhead overhead_not_readable (by decide) (by omega)⟩
        · obtain ⟨count, hcount, h⟩ := Option.bind_eq_some_iff.mp h
          obtain ⟨body, -, h⟩ := Option.bind_eq_some_iff.mp h
          cases h
          exact ⟨{ ht₁ with statReq := isInt_of_int hcount }, trivial⟩
      · split at h
        · cases h
          exact ⟨ht₁, isRefusal_of_overhead overhead_not_executable (by decide) (by omega)⟩
        · obtain ⟨count, hcount, h⟩ := Option.bind_eq_some_iff.mp h
          obtain ⟨⟨body, len⟩, -, h⟩ := Option.bind_eq_some_iff.mp h
          cases h
          exact ⟨{ ht₁ with dynmReq := isInt_of_int hcount }, trivial⟩
  · split at h
    · obtain ⟨count, hcount, h⟩ := Option.bind_eq_some_iff.mp h
      cases h
      exact ⟨{ ht₁ with postReq := isInt_of_int hcount }, trivial⟩
    · cases h
      exact ⟨ht₁, isRefusal_of_overhead overhead_not_implemented (by decide) (by omega)⟩

variable {method : Text} {log : LogBuffer} {ok : Bool} {bytes : Text}

/-- Every response is a block of header lines, the statistics among them, and a body.
The length it tells is that of the body, except where a request is answered with
status 200 and its length is not told. -/
theorem requestHandle_spec (ht : t.InRange) (hlog : 0 ≤ log.length)
    (hmethod : method.length < maxLine) (huri : uri.length < maxLine)
    (h : Server.requestHandle host method uri tm t log = some (ok, bytes)) :
    ∃ lines body t', t'.InRange ∧ (∀ l ∈ lines, HeaderLine l) ∧
      bytes = Server.appendStats (lines.flatMap (· ++ lineEnd)) t' tm ++ body ∧
      (announced lines = [(body.length : ℤ)] ↔ (ok = true → TellsLength host method uri)) := by
  obtain ⟨⟨t', prepared⟩, hprepare, h⟩ := Option.bind_eq_some_iff.mp h
  obtain ⟨ht', hrefusal⟩ := prepare_spec hprepare ht
  cases prepared with
  | refused cause errnum shortmsg longmsg =>
      cases h
      obtain ⟨hstatus, hlength⟩ := hrefusal
      have hmax : maxLine = 8192 := rfl
      have hlen : IsInt (errorPieces cause errnum shortmsg longmsg).flatten.length :=
        ⟨by omega, by omega⟩
      refine ⟨errorLines errnum shortmsg _, _, t', ht', errorLines_headerLine hlen hstatus,
        requestError_lines cause errnum shortmsg longmsg tm t', ?_⟩
      rw [announced_errorLines _ _ hlen]
      exact iff_of_true rfl fun h => absurd h Bool.false_ne_true
  | get headers body len =>
      cases h
      obtain ⟨hget, hkind⟩ := prepare_get_cases hprepare
      rcases hkind with ⟨hstatic, sbuf, hstat, hlen, hbody, hheaders⟩ | ⟨hdynamic, hheaders⟩
      · have hint : IsInt len := hlen ▸ isInt_wrap sbuf.size
        rw [hlen] at hbody
        refine ⟨_, _, t', ht', sizedLines_headerLine hint (isValue_filetype _),
          congrArg (Server.appendStats · t' tm ++ _) hheaders, ?_⟩
        rw [announced_sizedLines hint, List.singleton_inj, eq_comm, hlen,
          length_static_body hbody]
        simp only [TellsLength, hget, hstatic, hstat, Bool.true_eq_false, false_or, true_and,
          Option.some.injEq, exists_eq_left', true_imp_iff]
      · rw [okHeaders_lines] at hheaders
        refine ⟨okLines, _, t', ht', fun l hl => (okLines_spec l hl).1,
          congrArg (Server.appendStats · t' tm ++ _) hheaders, ?_⟩
        rw [announced_okLines]
        apply iff_of_false (List.cons_ne_nil _ _).symm
        intro htells
        rcases htells rfl with hpost | ⟨hstatic, -⟩
        · rw [hget] at hpost
          cases hpost
        · rw [hdynamic] at hstatic
          cases hstatic
  | post =>
      obtain ⟨⟨dst, len⟩, hgetLog, h⟩ := Option.bind_eq_some_iff.mp h
      cases h
      have hlen := isInt_getLog hgetLog
      refine ⟨sizedLines len "text/plain".toList, _, t', ht',
        sizedLines_headerLine hlen (by decide),
        congrArg (Server.appendStats · t' tm ++ _) (postHeaders_lines len), ?_⟩
      rw [announced_sizedLines hlen, length_post_body hlog hgetLog]
      exact iff_of_true rfl fun _ => Or.inl (not_get_of_post hprepare)

/-- However a response arrives, the client prints its header lines one by one and then
its body, and it prints one length, that of the body, except for a request answered with
status 200 whose length is not told. -/
theorem response_printed (host : Host) (method uri : Text) (tm : TimeStats)
    (t : ThreadsStats) (log : LogBuffer) (ok : Bool) (bytes : Text) (ht : t.InRange)
    (htm : tm.InRange) (hlog : 0 ≤ log.length) (hmethod : method.length < maxLine)
    (huri : uri.length < maxLine)
    (h : Server.requestHandle host method uri tm t log = some (ok, bytes)) :
    ∃ lines body, bytes = lines.flatMap (· ++ crlf) ++ crlf ++ body ∧
      (∀ l ∈ lines, HeaderLine l) ∧
      (∀ conn fuel buf, delivered conn = bytes → bytes.length < fuel →
        clientPrint fuel conn buf = some (printedResponse lines body)) ∧
      ('\x00' ∉ body → printedBody (streamLines body) = body) ∧
      (announced lines = [(body.length : ℤ)] ↔
        (ok = true → TellsLength host method uri)) := by
  obtain ⟨lines, body, t', ht', hlines, rfl, hlength⟩ :=
    requestHandle_spec ht hlog hmethod huri h
  have hcrlf : crlf = lineEnd := by decide
  have hall : ∀ l ∈ lines ++ statLines t' tm, HeaderLine l := fun l hl =>
    (List.mem_append.mp hl).elim (hlines l) fun hl => (statLines_spec ht' htm l hl).1
  have hbytes : Server.appendStats (lines.flatMap (· ++ lineEnd)) t' tm ++ body =
      (lines ++ statLines t' tm).flatMap (· ++ crlf) ++ crlf ++ body := by
    rw [appendStats_lines, hcrlf]
  refine ⟨lines ++ statLines t' tm, body, hbytes, hall, ?_, printedBody_eq, ?_⟩
  · intro conn fuel buf hconn hfuel
    rw [← hconn] at hfuel
    exact clientPrint_block hall (hconn.trans hbytes) hfuel buf
  · rw [announced_stats lines ht' htm]
    exact hlength

/-- The response to a CGI request tells no length. -/
theorem response_printed_cgi : ∃ bytes lines body,
    Server.requestHandle cgiHost "GET".toList "/output.cgi".toList noTimes noStats
      (createLog fun _ => 'x') = some (true, bytes) ∧
    bytes = lines.flatMap (· ++ crlf) ++ crlf ++ body ∧
    (∀ conn fuel buf, delivered conn = bytes → bytes.length < fuel →
      clientPrint fuel conn buf = some (printedResponse lines body)) ∧
    announced lines ≠ [(body.length : ℤ)] := by
  obtain ⟨lines, body, hbytes, -, hprinted, -, hlength⟩ :=
    response_printed cgiHost "GET".toList "/output.cgi".toList noTimes noStats
      (createLog fun _ => 'x') true _ noStats_inRange noTimes_inRange (Int.le_refl 0)
      (by decide) (by decide) rfl
  refine ⟨_, lines, body, rfl, hbytes, hprinted, fun h => ?_⟩
  rcases hlength.mp h rfl with hpost | ⟨hstatic, -⟩
  · exact absurd hpost (by decide)
  · exact absurd hstatic (by decide)

end Response

end OsCoursework.Server
