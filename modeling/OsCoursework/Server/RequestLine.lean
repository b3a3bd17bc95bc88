import OsCoursework.Server.Reading
import OsCoursework.Server.Request

/-!
# The strings of a request

`requestHandle` with the arrays it works on: each of them holds 8192 bytes and is
not initialised.  Reading an array that nothing was written to and formatting a
text that leaves no byte for the NUL are faults.  The number of tokens that
`sscanf` found is not checked, nor is the length of anything that is formatted
with a token in it.

`requestReadhdrs` has returned when the handling of a GET goes on here.
-/

namespace OsCoursework.Server

/-! ## Machine values -/

/-- The values of an `int`. -/
def IsInt (z : ℤ) : Prop :=
  -2147483648 ≤ z ∧ z < 2147483648

/-- The values of a `long`. -/
def IsLong (z : ℤ) : Prop :=
  -9223372036854775808 ≤ z ∧ z < 9223372036854775808

structure ThreadsStats.InRange (t : ThreadsStats) : Prop where
  id : IsInt t.id
  statReq : IsInt t.statReq
  dynmReq : IsInt t.dynmReq
  postReq : IsInt t.postReq
  totalReq : IsInt t.totalReq

def Timeval.InRange (t : Timeval) : Prop :=
  IsLong t.sec ∧ IsLong t.usec

structure TimeStats.InRange (tm : TimeStats) : Prop where
  taskArrival : tm.taskArrival.InRange
  taskDispatch : tm.taskDispatch.InRange
  logEnter : tm.logEnter.InRange
  logExit : tm.logExit.InRange

namespace Checked

/-! ## Arrays -/

inductive Fault where
  | unwritten
  | overrun
  deriving DecidableEq

/-- Read an array; `none` when nothing has been written to it. -/
def read : Option Text → Except Fault Text
  | some text => .ok text
  | none => .error .unwritten

/-- Put a text and its NUL into an array. -/
def format (text : Text) : Except Fault Text :=
  if text.length < maxLine then .ok text else .error .overrun

/-- `sprintf(buf + strlen(buf), ..)`, once for each piece. -/
def appendAll : Text → List Text → Except Fault Text
  | buf, [] => .ok buf
  | buf, piece :: pieces => do
      let buf ← format (buf ++ piece)
      appendAll buf pieces

/-! ## `sscanf` -/

/-- The text in an array ends at its first NUL. -/
def cString (bytes : Text) : Text :=
  bytes.takeWhile (· ≠ '\x00')

def isspace (c : Char) : Bool :=
  c ∈ [' ', '\t', '\n', '\x0b', '\x0c', '\r']

/-- The tokens that at most `n` conversions `%s` find. -/
def scanTokens : ℕ → Text → List Text
  | 0, _ => []
  | n + 1, s =>
      let s := s.dropWhile isspace
      if s = [] then []
      else s.takeWhile (! isspace ·) :: scanTokens n (s.dropWhile (! isspace ·))

/-- `sscanf(buf, "%s %s %s", method, uri, version)`; arrays without a token stay
as they are. -/
def sscanf (buf : Text) :
    Except Fault (Option Text × Option Text × Option Text) := do
  let tokens ← (scanTokens 3 (cString buf)).mapM format
  .ok (tokens[0]?, tokens[1]?, tokens[2]?)

/-! ## `request.c` -/

/-- What the calls of `sprintf` in `append_stats` write. -/
def statPieces (tStats : ThreadsStats) (tmStats : TimeStats) : List Text :=
  ["Stat-Req-Arrival:: ".toList ++ timestamp tmStats.taskArrival ++ crlf,
    "Stat-Req-Dispatch:: ".toList ++ timestamp tmStats.taskDispatch ++ crlf,
    "Stat-Log-Arrival:: ".toList ++ timestamp tmStats.logEnter ++ crlf,
    "Stat-Log-Dispatch:: ".toList ++ timestamp tmStats.logExit ++ crlf,
    "Stat-Thread-Id:: ".toList ++ decimal tStats.id ++ crlf,
    "Stat-Thread-Count:: ".toList ++ decimal tStats.totalReq ++ crlf,
    "Stat-Thread-Static:: ".toList ++ decimal tStats.statReq ++ crlf,
    "Stat-Thread-Dynamic:: ".toList ++ decimal tStats.dynmReq ++ crlf,
    "Stat-Thread-Post:: ".toList ++ decimal tStats.postReq ++ crlf ++ crlf]

def appendStats (buf : Text) (tStats : ThreadsStats) (tmStats : TimeStats) :
    Except Fault Text :=
  appendAll buf (statPieces tStats tmStats)

def errorPieces (cause errnum shortmsg longmsg : Text) : List Text :=
  ["<html><title>OS-HW3 Error</title>".toList,
    "<body bgcolor=\"fffff\">\r\n".toList,
    errnum ++ ": ".toList ++ shortmsg ++ crlf,
    "<p>".toList ++ longmsg ++ ": ".toList ++ cause ++ crlf,
    "<hr>OS-HW3 Web Server\r\n".toList]

/-- The bytes that `requestError` sends. -/
def requestError (cause errnum shortmsg longmsg : Text) (tmStats : TimeStats)
    (tStats : ThreadsStats) : Except Fault Text := do
  let body ← appendAll [] (errorPieces cause errnum shortmsg longmsg)
  let buf ← appendAll []
    ["HTTP/1.0 ".toList ++ errnum ++ " ".toList ++ shortmsg ++ crlf,
      "Content-Type: text/html\r\n".toList,
      "Content-Length: ".toList ++ decimal body.length ++ crlf]
  let buf ← appendStats buf tStats tmStats
  .ok (buf ++ body)

structure ParsedUri where
  isStatic : Bool
  filename : Text
  cgiargs : Option Text

def requestParseURI (uri : Option Text) : Except Fault ParsedUri := do
  let uri ← read uri
  if "..".toList <:+: uri then
    let filename ← format "./public/home.html".toList
    .ok ⟨true, filename, none⟩
  else if ¬ "cgi".toList <:+: uri then
    let cgiargs ← format []
    let filename ← format ("./public/".toList ++ uri)
    if uri.getLast? = some '/' then
      let filename ← format (filename ++ "home.html".toList)
      .ok ⟨true, filename, some cgiargs⟩
    else .ok ⟨true, filename, some cgiargs⟩
  else
    let cgiargs ← format (uri.dropWhile (· ≠ '?')).tail
    let filename ← format ("./public/".toList ++ uri.takeWhile (· ≠ '?'))
    .ok ⟨false, filename, some cgiargs⟩

/-- An answer with an error. -/
def refuse (cause errnum shortmsg longmsg : Text) (tmStats : TimeStats)
    (tStats : ThreadsStats) : Except Fault (Option (Bool × Text)) := do
  let bytes ← requestError cause errnum shortmsg longmsg tmStats tStats
  .ok (some (false, bytes))

/-- `resp_headers` is written, extended by the statistics and sent with the body. -/
def respond (headers : List Text) (body : Option Text) (bodyLen : ℤ)
    (tmStats : TimeStats) (tStats : ThreadsStats) :
    Except Fault (Option (Bool × Text)) := do
  let respHeaders ← appendAll []
    (["HTTP/1.0 200 OK\r\n".toList, "Server: OS-HW3 Web Server\r\n".toList] ++
      headers)
  let respHeaders ← appendStats respHeaders tStats tmStats
  .ok (some (true, respHeaders ++ (rioWriten body bodyLen).getD []))

/-- `requestHandle` for a GET of a file. -/
def handleStatic (host : Host) (parsed : ParsedUri) (sbuf : FileInfo)
    (tmStats : TimeStats) (t : ThreadsStats) :
    Except Fault (Option (Bool × Text)) :=
  if ¬ sbuf.isReg ∨ ¬ sbuf.readable then
    refuse parsed.filename "403".toList "Forbidden".toList
      "OS-HW3 Server could not read this file".toList tmStats t
  else do
    let t := { t with statReq := wrap (t.statReq + 1) }
    let filetype ← format (requestGetFiletype parsed.filename)
    let bodyLen := wrap sbuf.size
    match requestPrepareStatic host parsed.filename bodyLen with
    | none => .ok none
    | some body =>
        respond ["Content-Length: ".toList ++ decimal bodyLen ++ crlf,
          "Content-Type: ".toList ++ filetype ++ crlf] body bodyLen tmStats t

/-- `requestHandle` for a GET of a CGI program. -/
def handleDynamic (host : Host) (parsed : ParsedUri) (sbuf : FileInfo)
    (tmStats : TimeStats) (t : ThreadsStats) :
    Except Fault (Option (Bool × Text)) :=
  if ¬ sbuf.isReg ∨ ¬ sbuf.executable then
    refuse parsed.filename "403".toList "Forbidden".toList
      "OS-HW3 Server could not run this CGI program".toList tmStats t
  else do
    let t := { t with dynmReq := wrap (t.dynmReq + 1) }
    let cgiargs ← read parsed.cgiargs
    match requestPrepareDynamic host parsed.filename cgiargs with
    | none => .ok none
    | some (body, bodyLen) => respond [] body bodyLen tmStats t

/-- The branch for GET, after `requestReadhdrs` and `requestParseURI`. -/
def handleFile (host : Host) (parsed : ParsedUri) (tmStats : TimeStats)
    (t : ThreadsStats) : Except Fault (Option (Bool × Text)) :=
  match host.stat parsed.filename with
  | none =>
      refuse parsed.filename "404".toList "Not found".toList
        "OS-HW3 Server could not find this file".toList tmStats t
  | some sbuf =>
      if parsed.isStatic then handleStatic host parsed sbuf tmStats t
      else handleDynamic host parsed sbuf tmStats t

def handleGet (host : Host) (uri : Option Text) (tmStats : TimeStats)
    (t : ThreadsStats) : Except Fault (Option (Bool × Text)) := do
  let parsed ← requestParseURI uri
  handleFile host parsed tmStats t

def handlePost (tmStats : TimeStats) (t : ThreadsStats) (log : LogBuffer) :
    Except Fault (Option (Bool × Text)) :=
  let t := { t with postReq := wrap (t.postReq + 1) }
  match getLog log with
  | none => .ok none
  | some (dst, len) =>
      respond ["Content-Length: ".toList ++ decimal len ++ crlf,
        "Content-Type: text/plain\r\n".toList] (some dst) len tmStats t

/-- `requestHandle` when `Rio_readlineb` has written `buf`; the result is missing
where the server ends itself. -/
def requestHandle (host : Host) (buf : Option Text) (tmStats : TimeStats)
    (tStats : ThreadsStats) (log : LogBuffer) :
    Except Fault (Option (Bool × Text)) := do
  let buf ← read buf
  let (method, uri, _) ← sscanf buf
  let t := { tStats with totalReq := wrap (tStats.totalReq + 1) }
  let method ← read method
  if strcasecmpEq method "GET".toList then handleGet host uri tmStats t
  else if strcasecmpEq method "POST".toList then handlePost tmStats t log
  else
    refuse method "501".toList "Not Implemented".toList
      "OS-HW3 Server does not implement this method".toList tmStats t

/-! ## Formatting -/

section Formatting

variable {text buf : Text} {pieces : List Text}

theorem format_of_lt (h : text.length < maxLine) : format text = .ok text :=
  if_pos h

theorem format_of_ge (h : maxLine ≤ text.length) : format text = .error .overrun :=
  if_neg (Nat.not_lt.mpr h)

/-- Only the whole text counts, since it never gets shorter. -/
theorem appendAll_eq (h : buf.length < maxLine) :
    appendAll buf pieces = format (buf ++ pieces.flatten) := by
  induction pieces generalizing buf with
  | nil => rw [appendAll, List.flatten_nil, List.append_nil, format_of_lt h]
  | cons piece pieces ih =>
      rw [List.flatten_cons, ← List.append_assoc]
      rcases Nat.lt_or_ge (buf ++ piece).length maxLine with hlt | hge
      · rw [← ih hlt, appendAll, format_of_lt hlt]
        rfl
      · rw [appendAll, format_of_ge hge, format_of_ge]
        · rfl
        · rw [List.length_append]
          omega

theorem appendAll_nil_eq : appendAll [] pieces = format pieces.flatten :=
  appendAll_eq (by decide)

theorem length_flatten_le {bound : ℕ} (h : ∀ piece ∈ pieces, piece.length ≤ bound) :
    pieces.flatten.length ≤ pieces.length * bound := by
  induction pieces with
  | nil => exact Nat.zero_le _
  | cons piece pieces ih =>
      have hhead := h piece List.mem_cons_self
      have htail := ih fun p hp => h p (List.mem_cons_of_mem _ hp)
      rw [List.flatten_cons, List.length_append, List.length_cons, Nat.succ_mul]
      omega

end Formatting

/-! ## The statistics -/

section Statistics

theorem length_decimal_le {z : ℤ} {k : ℕ} (hk : 0 < k) (h : z.natAbs < 10 ^ k) :
    (decimal z).length ≤ k + 1 := by
  have hdigits := (Nat.length_toDigits_le_iff (b := 10) (by decide) hk).mpr h
  rw [decimal]
  split
  · rw [List.length_cons]
    omega
  · omega

theorem length_decimal_of_isInt {z : ℤ} (h : IsInt z) : (decimal z).length ≤ 11 := by
  obtain ⟨hlow, hhigh⟩ := h
  apply length_decimal_le (by decide)
  omega

theorem length_decimal_of_isLong {z : ℤ} (h : IsLong z) :
    (decimal z).length ≤ 20 := by
  obtain ⟨hlow, hhigh⟩ := h
  apply length_decimal_le (by decide)
  omega

theorem length_timestamp_le {t : Timeval} (h : t.InRange) :
    (timestamp t).length ≤ 60 := by
  have hsec := length_decimal_of_isLong h.1
  have husec := length_decimal_of_isLong h.2
  have hdigits : (Nat.toDigits 10 t.usec.natAbs).length ≤ 20 := by
    rw [decimal] at husec
    split at husec
    · rw [List.length_cons] at husec
      omega
    · exact husec
  have hpadded : (zeroPadded 6 t.usec).length ≤ 27 := by
    rw [zeroPadded]
    split
    · rw [List.length_append, List.length_cons, List.length_replicate]
      omega
    · rw [List.length_append, List.length_replicate]
      omega
  have hdot : ".".toList.length = 1 := rfl
  rw [timestamp, List.length_append, List.length_append, hdot]
  omega

/-- A line of the statistics. -/
theorem length_statPiece_le {name value : Text} (hname : name.length ≤ 24)
    (hvalue : value.length ≤ 60) : (name ++ value ++ crlf).length ≤ 86 := by
  have hcrlf : crlf.length = 2 := rfl
  rw [List.length_append, List.length_append, hcrlf]
  omega

theorem length_statPieces_le {t : ThreadsStats} {tm : TimeStats} (ht : t.InRange)
    (htm : tm.InRange) : (statPieces t tm).flatten.length ≤ 792 := by
  have hint {z : ℤ} (hz : IsInt z) : (decimal z).length ≤ 60 :=
    (length_decimal_of_isInt hz).trans (by decide)
  have hpost : ("Stat-Thread-Post:: ".toList ++ decimal t.postReq ++
      crlf).length ≤ 86 := length_statPiece_le (by decide) (hint ht.postReq)
  have hcrlf : crlf.length = 2 := rfl
  have hall : ∀ piece ∈ statPieces t tm, piece.length ≤ 88 := by
    intro piece hpiece
    simp only [statPieces, List.mem_cons, List.not_mem_nil, or_false] at hpiece
    rcases hpiece with rfl | rfl | rfl | rfl | rfl | rfl | rfl | rfl | rfl
    · exact (length_statPiece_le (by decide)
        (length_timestamp_le htm.taskArrival)).trans (by decide)
    · exact (length_statPiece_le (by decide)
        (length_timestamp_le htm.taskDispatch)).trans (by decide)
    · exact (length_statPiece_le (by decide)
        (length_timestamp_le htm.logEnter)).trans (by decide)
    · exact (length_statPiece_le (by decide)
        (length_timestamp_le htm.logExit)).trans (by decide)
    · exact (length_statPiece_le (by decide) (hint ht.id)).trans (by decide)
    · exact (length_statPiece_le (by decide) (hint ht.totalReq)).trans (by decide)
    · exact (length_statPiece_le (by decide) (hint ht.statReq)).trans (by decide)
    · exact (length_statPiece_le (by decide) (hint ht.dynmReq)).trans (by decide)
    · rw [List.length_append, hcrlf]
      omega
  have hpieces : (statPieces t tm).length = 9 := rfl
  have hle := length_flatten_le hall
  omega

theorem appendStats_flatten (buf : Text) (t : ThreadsStats) (tm : TimeStats) :
    Server.appendStats buf t tm = buf ++ (statPieces t tm).flatten := by
  simp only [Server.appendStats, statPieces, List.flatten_cons, List.flatten_nil,
    List.append_assoc, List.append_nil]

/-- There is room for the statistics behind every short text. -/
theorem appendStats_eq {buf : Text} (hbuf : buf.length ≤ 7000) {t : ThreadsStats}
    {tm : TimeStats} (ht : t.InRange) (htm : tm.InRange) :
    appendStats buf t tm = .ok (Server.appendStats buf t tm) := by
  have hlength := length_statPieces_le ht htm
  have hmax : maxLine = 8192 := rfl
  rw [appendStats, appendAll_eq (by omega), appendStats_flatten, format_of_lt]
  rw [List.length_append]
  omega

end Statistics

/-! ## Answers -/

section Answers

variable {t : ThreadsStats} {tm : TimeStats}

theorem length_errorPieces (cause errnum shortmsg longmsg : Text) :
    (errorPieces cause errnum shortmsg longmsg).flatten.length =
      (errorPieces [] errnum shortmsg longmsg).flatten.length + cause.length := by
  simp only [errorPieces, List.flatten_cons, List.flatten_nil, List.length_append,
    List.length_nil]
  omega

/-- The page with the error is all that may be too long. -/
theorem requestError_eq (cause : Text) {errnum shortmsg : Text} (longmsg : Text)
    (hshort : errnum.length + shortmsg.length ≤ 100) (ht : t.InRange)
    (htm : tm.InRange) :
    requestError cause errnum shortmsg longmsg tm t =
      (format (errorPieces cause errnum shortmsg longmsg).flatten).map fun _ =>
        Server.requestError cause errnum shortmsg longmsg tm t := by
  let page := (errorPieces cause errnum shortmsg longmsg).flatten
  rw [requestError, appendAll_nil_eq]
  rcases Nat.lt_or_ge page.length maxLine with hlt | hge
  · have hmax : maxLine = 8192 := rfl
    have hdecimal : (decimal page.length).length ≤ 5 := by
      apply length_decimal_le (by decide)
      omega
    let headers : List Text :=
      ["HTTP/1.0 ".toList ++ errnum ++ " ".toList ++ shortmsg ++ crlf,
        "Content-Type: text/html\r\n".toList,
        "Content-Length: ".toList ++ decimal page.length ++ crlf]
    have hheaders : headers.flatten.length ≤ 7000 := by
      have hone : ("HTTP/1.0 ".toList).length = 9 := rfl
      have htwo : ("Content-Type: text/html\r\n".toList).length = 25 := rfl
      have hthree : ("Content-Length: ".toList).length = 16 := rfl
      have hblank : (" ".toList).length = 1 := rfl
      have hcrlf : crlf.length = 2 := rfl
      simp only [headers, List.flatten_cons, List.flatten_nil,
        List.length_append, List.length_nil]
      omega
    rw [format_of_lt hlt]
    change (appendAll [] headers).bind _ = _
    rw [appendAll_nil_eq, format_of_lt (by omega)]
    change (appendStats headers.flatten t tm).bind _ = _
    rw [appendStats_eq hheaders ht htm]
    simp only [Except.bind, Except.map, Server.requestError, headers, page,
      errorPieces, List.flatten_cons, List.flatten_nil, List.append_assoc,
      List.append_nil]
  · rw [format_of_ge hge]
    rfl

theorem refuse_eq (cause : Text) {errnum shortmsg : Text} (longmsg : Text)
    (hshort : errnum.length + shortmsg.length ≤ 100) (ht : t.InRange)
    (htm : tm.InRange) :
    refuse cause errnum shortmsg longmsg tm t =
      (format (errorPieces cause errnum shortmsg longmsg).flatten).map fun _ =>
        some (false, Server.requestError cause errnum shortmsg longmsg tm t) := by
  rw [refuse, requestError_eq cause longmsg hshort ht htm]
  cases format (errorPieces cause errnum shortmsg longmsg).flatten with
  | error fault => rfl
  | ok page => rfl

/-- The headers of an answer with status 200 are always short enough. -/
theorem respond_eq {headers : List Text} (hheaders : headers.flatten.length ≤ 6000)
    (body : Option Text) (bodyLen : ℤ) (ht : t.InRange) (htm : tm.InRange) :
    respond headers body bodyLen tm t =
      .ok (some (true, Server.appendStats (okHeaders ++ headers.flatten) t tm ++
        (rioWriten body bodyLen).getD [])) := by
  have hflatten (a b : Text) :
      ([a, b] ++ headers).flatten = a ++ b ++ headers.flatten := by
    simp
  have hok : okHeaders.length = 44 := by decide +kernel
  have hshort : (okHeaders ++ headers.flatten).length ≤ 7000 := by
    rw [List.length_append]
    omega
  have hmax : maxLine = 8192 := rfl
  rw [respond, appendAll_nil_eq, hflatten]
  change (format (okHeaders ++ headers.flatten)).bind _ = _
  rw [format_of_lt (by omega)]
  change (appendStats (okHeaders ++ headers.flatten) t tm).bind _ = _
  rw [appendStats_eq hshort ht htm]
  rfl

end Answers

/-! ## Tokens and the file name -/

section Parsing

theorem length_of_mem_scanTokens {n : ℕ} {s token : Text}
    (h : token ∈ scanTokens n s) : token.length ≤ s.length := by
  induction n generalizing s with
  | zero => cases h
  | succ n ih =>
      have hdrop := (List.dropWhile_suffix isspace (l := s)).length_le
      rw [scanTokens] at h
      split at h
      · cases h
      · rcases List.mem_cons.mp h with rfl | h
        · exact (List.takeWhile_prefix _).length_le.trans hdrop
        · exact (ih h).trans ((List.dropWhile_suffix _).length_le.trans hdrop)

theorem length_of_token {line : Text} (hline : line.length < maxLine) {token : Text}
    (htoken : token ∈ scanTokens 3 (cString line)) : token.length < maxLine := by
  have hstarts := (List.takeWhile_prefix (fun c : Char => decide (c ≠ '\x00'))
    (l := line)).length_le
  exact ((length_of_mem_scanTokens htoken).trans hstarts).trans_lt hline

/-- Every token of a request line fits its array. -/
theorem sscanf_eq {line : Text} (h : line.length < maxLine) :
    sscanf line = .ok ((scanTokens 3 (cString line))[0]?,
      (scanTokens 3 (cString line))[1]?, (scanTokens 3 (cString line))[2]?) := by
  have hall : ∀ tokens : List Text, (∀ token ∈ tokens, token.length < maxLine) →
      tokens.mapM format = .ok tokens := by
    intro tokens
    induction tokens with
    | nil => exact fun _ => rfl
    | cons token tokens ih =>
        intro hshort
        rw [List.mapM_cons, format_of_lt (hshort token List.mem_cons_self)]
        change (tokens.mapM format).bind _ = _
        rw [ih fun x hx => hshort x (List.mem_cons_of_mem _ hx)]
        rfl
  rw [sscanf, hall]
  · rfl
  · exact fun token htoken => length_of_token h htoken

/-- The file name is all that may be too long. -/
theorem requestParseURI_eq {uri : Text} (h : uri.length < maxLine) :
    requestParseURI (some uri) =
      (format (Server.requestParseURI uri).filename).map fun filename =>
        ⟨(Server.requestParseURI uri).isStatic, filename,
          if "..".toList <:+: uri then none
          else some (Server.requestParseURI uri).cgiargs⟩ := by
  have hempty : format [] = .ok [] := format_of_lt (by decide)
  change (if "..".toList <:+: uri then _ else _) = _
  rw [Server.requestParseURI]
  by_cases hdots : "..".toList <:+: uri
  · simp only [if_pos hdots]
    cases format "./public/home.html".toList with
    | error fault => rfl
    | ok filename => rfl
  · by_cases hcgi : ¬ "cgi".toList <:+: uri
    · let filename := "./public/".toList ++ uri
      simp only [if_neg hdots, if_pos hcgi, hempty]
      by_cases hslash : uri.getLast? = some '/'
      · simp only [if_pos hslash]
        rcases Nat.lt_or_ge filename.length maxLine with hlt | hge
        · change (format filename).bind _ = _
          rw [format_of_lt hlt]
          change (format (filename ++ _)).bind _ = _
          cases format (filename ++ "home.html".toList) with
          | error fault => rfl
          | ok whole => rfl
        · have hwhole : maxLine ≤ (filename ++ "home.html".toList).length := by
            rw [List.length_append]
            omega
          change (format filename).bind _ = _
          rw [format_of_ge hge, format_of_ge hwhole]
          rfl
      · simp only [if_neg hslash]
        change (format filename).bind _ = _
        cases format filename with
        | error fault => rfl
        | ok whole => rfl
    · simp only [if_neg hdots, if_neg hcgi]
      have htail : (uri.dropWhile (· ≠ '?')).tail.length < maxLine := by
        have hdrop := (List.dropWhile_suffix (fun c => decide (c ≠ '?'))
          (l := uri)).length_le
        rw [List.length_tail]
        omega
      rw [format_of_lt htail]
      change (format ("./public/".toList ++ _)).bind _ = _
      cases format ("./public/".toList ++ uri.takeWhile (· ≠ '?')) with
      | error fault => rfl
      | ok whole => rfl

end Parsing

/-! ## Which requests are safe -/

end Checked

/-- The file name of this URI is short enough for `requestError`'s page that it was
not found.  The other pages are about names that `stat` looks up, which are shorter
than `PATH_MAX`. -/
def UriFits (uri : Text) : Prop :=
  if "..".toList <:+: uri then True
  else if ¬ "cgi".toList <:+: uri then
    if uri.getLast? = some '/' then uri.length + 159 < maxLine
    else uri.length + 150 < maxLine
  else (uri.takeWhile (· ≠ '?')).length + 150 < maxLine

/-- There is a first token; a GET has a second one that fits, and another method
than GET and POST fits `requestError`'s page about it. -/
def RequestFits (line : Text) : Prop :=
  match Checked.scanTokens 3 (Checked.cString line) with
  | [] => False
  | method :: rest =>
      if strcasecmpEq method "GET".toList then
        ∃ uri, rest.head? = some uri ∧ UriFits uri
      else strcasecmpEq method "POST".toList = true ∨
        method.length + 153 < maxLine

/-- Whatever the files, the statistics and the log are, handling this request line
reads no array that was not written and formats no text that is too long. -/
def StringsSafe (line : Text) : Prop :=
  ∀ host tmStats tStats log, tmStats.InRange → tStats.InRange →
    ∃ answer, Checked.requestHandle host (some line) tmStats tStats log = .ok answer

namespace Checked

section Safe

variable {host : Host} {uri : Text} {t : ThreadsStats} {tm : TimeStats}

/-- With this message, `n` bytes of the page are not the cause. -/
structure PageOverhead (errnum shortmsg longmsg : Text) (n : ℕ) : Prop where
  length_eq : (errorPieces [] errnum shortmsg longmsg).flatten.length = n
  short : errnum.length + shortmsg.length ≤ 100

theorem overhead_not_found : PageOverhead "404".toList "Not found".toList
    "OS-HW3 Server could not find this file".toList 141 :=
  ⟨by decide +kernel, by decide⟩

theorem overhead_not_readable : PageOverhead "403".toList "Forbidden".toList
    "OS-HW3 Server could not read this file".toList 141 :=
  ⟨by decide +kernel, by decide⟩

theorem overhead_not_executable : PageOverhead "403".toList "Forbidden".toList
    "OS-HW3 Server could not run this CGI program".toList 147 :=
  ⟨by decide +kernel, by decide⟩

theorem overhead_not_implemented : PageOverhead "501".toList "Not Implemented".toList
    "OS-HW3 Server does not implement this method".toList 153 :=
  ⟨by decide +kernel, by decide⟩

section Refuse

variable {cause errnum shortmsg longmsg : Text} {n : ℕ}

/-- The answer when there is room for the page. -/
theorem refuse_of_lt (hpage : PageOverhead errnum shortmsg longmsg n)
    (ht : t.InRange) (htm : tm.InRange) (hlt : n + cause.length < maxLine) :
    refuse cause errnum shortmsg longmsg tm t =
      .ok (some (false, Server.requestError cause errnum shortmsg longmsg tm t)) := by
  rw [← hpage.length_eq, ← length_errorPieces] at hlt
  rw [refuse_eq cause longmsg hpage.short ht htm, format_of_lt hlt]
  rfl

theorem refuse_of_ge (hpage : PageOverhead errnum shortmsg longmsg n)
    (ht : t.InRange) (htm : tm.InRange) (hge : maxLine ≤ n + cause.length) :
    refuse cause errnum shortmsg longmsg tm t = .error .overrun := by
  rw [← hpage.length_eq, ← length_errorPieces] at hge
  rw [refuse_eq cause longmsg hpage.short ht htm, format_of_ge hge]
  rfl

end Refuse

/-- What `UriFits` says about the file name. -/
theorem uriFits_iff :
    UriFits uri ↔ 141 + (Server.requestParseURI uri).filename.length < maxLine := by
  have hpublic : "./public/".toList.length = 9 := rfl
  have hhome : "home.html".toList.length = 9 := rfl
  have hdefault : "./public/home.html".toList.length = 18 := rfl
  have hmax : maxLine = 8192 := rfl
  rw [UriFits, Server.requestParseURI]
  split
  · simp only [true_iff]
    omega
  · split
    · split
      · simp only [List.length_append]
        omega
      · simp only [List.length_append]
        omega
    · simp only [List.length_append]
      omega

theorem isInt_wrap (n : ℤ) : IsInt (wrap n) :=
  wrap_lt n

/-- Counting a request keeps the statistics in range. -/
theorem inRange_totalReq (ht : t.InRange) (n : ℤ) :
    ThreadsStats.InRange { t with totalReq := wrap n } :=
  ⟨ht.id, ht.statReq, ht.dynmReq, ht.postReq, isInt_wrap n⟩

theorem length_requestGetFiletype_le (filename : Text) :
    (requestGetFiletype filename).length ≤ 10 := by
  unfold requestGetFiletype
  split
  · decide
  · split
    · decide
    · split
      · decide
      · decide

theorem length_contentLength_le {n : ℤ} (h : IsInt n) :
    ("Content-Length: ".toList ++ decimal n ++ crlf).length ≤ 29 := by
  have hname : "Content-Length: ".toList.length = 16 := rfl
  have hcrlf : crlf.length = 2 := rfl
  have hdecimal := length_decimal_of_isInt h
  rw [List.length_append, List.length_append, hname, hcrlf]
  omega

variable {parsed : ParsedUri} {sbuf : FileInfo}

/-- The answer to a GET of a file, when there is room for every text. -/
def staticAnswer (host : Host) (filename : Text) (sbuf : FileInfo) (tm : TimeStats)
    (t : ThreadsStats) : Option (Bool × Text) :=
  if ¬ sbuf.isReg ∨ ¬ sbuf.readable then
    some (false, Server.requestError filename "403".toList "Forbidden".toList
      "OS-HW3 Server could not read this file".toList tm t)
  else
    (requestPrepareStatic host filename (wrap sbuf.size)).map fun body =>
      (true, Server.appendStats (okHeaders ++
        ("Content-Length: ".toList ++ decimal (wrap sbuf.size) ++ crlf) ++
        ("Content-Type: ".toList ++ requestGetFiletype filename ++ crlf))
        { t with statReq := wrap (t.statReq + 1) } tm ++
        (rioWriten body (wrap sbuf.size)).getD [])

/-- The answer to a GET of a CGI program, when there is room for every text. -/
def dynamicAnswer (host : Host) (filename cgiargs : Text) (sbuf : FileInfo)
    (tm : TimeStats) (t : ThreadsStats) : Option (Bool × Text) :=
  if ¬ sbuf.isReg ∨ ¬ sbuf.executable then
    some (false, Server.requestError filename "403".toList "Forbidden".toList
      "OS-HW3 Server could not run this CGI program".toList tm t)
  else
    (requestPrepareDynamic host filename cgiargs).map fun r =>
      (true, Server.appendStats okHeaders
        { t with dynmReq := wrap (t.dynmReq + 1) } tm ++ (rioWriten r.1 r.2).getD [])

/-- The answer to a GET, when there is room for every text. -/
def fileAnswer (host : Host) (parsed : Server.ParsedUri) (tm : TimeStats)
    (t : ThreadsStats) : Option (Bool × Text) :=
  match host.stat parsed.filename with
  | none =>
      some (false, Server.requestError parsed.filename "404".toList
        "Not found".toList "OS-HW3 Server could not find this file".toList tm t)
  | some sbuf =>
      if parsed.isStatic then staticAnswer host parsed.filename sbuf tm t
      else dynamicAnswer host parsed.filename parsed.cgiargs sbuf tm t

theorem handleStatic_eq (hpath : parsed.filename.length < pathMax)
    (ht : t.InRange) (htm : tm.InRange) :
    handleStatic host parsed sbuf tm t =
      .ok (staticAnswer host parsed.filename sbuf tm t) := by
  have hmax : maxLine = 8192 := rfl
  rw [pathMax] at hpath
  rw [handleStatic, staticAnswer]
  split
  · exact refuse_of_lt overhead_not_readable ht htm (by omega)
  · have hfiletype := length_requestGetFiletype_le parsed.filename
    rw [format_of_lt (by omega)]
    change (match requestPrepareStatic host parsed.filename (wrap sbuf.size) with
      | none => _ | some body => _) = _
    cases requestPrepareStatic host parsed.filename (wrap sbuf.size) with
    | none => rfl
    | some body =>
        have hlength := length_contentLength_le (isInt_wrap sbuf.size)
        have ht' : ThreadsStats.InRange
            { t with statReq := wrap (t.statReq + 1) } :=
          ⟨ht.id, isInt_wrap _, ht.dynmReq, ht.postReq, ht.totalReq⟩
        refine (respond_eq ?_ body (wrap sbuf.size) ht' htm).trans ?_
        · have htype : ("Content-Type: ".toList ++
              requestGetFiletype parsed.filename ++ crlf).length ≤ 26 := by
            have hname : "Content-Type: ".toList.length = 14 := rfl
            have hcrlf : crlf.length = 2 := rfl
            rw [List.length_append, List.length_append, hname, hcrlf]
            omega
          rw [List.flatten_cons, List.flatten_cons, List.flatten_nil,
            List.append_nil, List.length_append]
          omega
        · rw [List.flatten_cons, List.flatten_cons, List.flatten_nil,
            List.append_nil, ← List.append_assoc]
          rfl

theorem handleDynamic_eq (hpath : parsed.filename.length < pathMax)
    {cgiargs : Text} (hargs : parsed.cgiargs = some cgiargs) (ht : t.InRange)
    (htm : tm.InRange) :
    handleDynamic host parsed sbuf tm t =
      .ok (dynamicAnswer host parsed.filename cgiargs sbuf tm t) := by
  have hmax : maxLine = 8192 := rfl
  rw [pathMax] at hpath
  rw [handleDynamic, dynamicAnswer]
  split
  · exact refuse_of_lt overhead_not_executable ht htm (by omega)
  · rw [hargs]
    change (match requestPrepareDynamic host parsed.filename cgiargs with
      | none => _ | some (body, bodyLen) => _) = _
    cases requestPrepareDynamic host parsed.filename cgiargs with
    | none => rfl
    | some r =>
        have ht' : ThreadsStats.InRange
            { t with dynmReq := wrap (t.dynmReq + 1) } :=
          ⟨ht.id, ht.statReq, isInt_wrap _, ht.postReq, ht.totalReq⟩
        refine (respond_eq (Nat.zero_le _) r.1 r.2 ht' htm).trans ?_
        rw [List.flatten_nil, List.append_nil]
        rfl

/-- The length of the log that `get_log` returns is an `int`. -/
theorem isInt_getLog {log : LogBuffer} {dst : Text} {len : ℤ}
    (h : getLog log = some (dst, len)) : IsInt len := by
  obtain ⟨size, hint, h⟩ := Option.bind_eq_some_iff.mp h
  obtain ⟨dst', hcopy, h⟩ := Option.bind_eq_some_iff.mp h
  obtain ⟨rfl, rfl⟩ := Prod.mk.inj (Option.some.inj h)
  rw [int] at hint
  split at hint
  · next hrange =>
    cases hint
    rw [copyOut] at hcopy
    split at hcopy
    · next hsize => exact ⟨by omega, by omega⟩
    · cases hcopy
  · cases hint

theorem handlePost_eq (log : LogBuffer) (ht : t.InRange) (htm : tm.InRange) :
    handlePost tm t log = .ok ((getLog log).map fun r =>
      (true, Server.appendStats (postHeaders r.2)
        { t with postReq := wrap (t.postReq + 1) } tm ++
        (rioWriten (some r.1) r.2).getD [])) := by
  rw [handlePost]
  cases hlog : getLog log with
  | none => rfl
  | some r =>
      have hlength := length_contentLength_le (isInt_getLog hlog)
      have ht' : ThreadsStats.InRange
          { t with postReq := wrap (t.postReq + 1) } :=
        ⟨ht.id, ht.statReq, ht.dynmReq, isInt_wrap _, ht.totalReq⟩
      refine (respond_eq ?_ (some r.1) r.2 ht' htm).trans ?_
      · have htype : "Content-Type: text/plain\r\n".toList.length = 26 := rfl
        rw [List.flatten_cons, List.flatten_cons, List.flatten_nil,
          List.append_nil, List.length_append, htype]
        omega
      · rw [List.flatten_cons, List.flatten_cons, List.flatten_nil,
          List.append_nil, ← List.append_assoc]
        rfl

/-- `requestParseURI` when the file name fits. -/
theorem requestParseURI_of_lt (hlen : uri.length < maxLine)
    (hfilename : (Server.requestParseURI uri).filename.length < maxLine) :
    requestParseURI (some uri) = .ok ⟨(Server.requestParseURI uri).isStatic,
      (Server.requestParseURI uri).filename, if "..".toList <:+: uri then none
        else some (Server.requestParseURI uri).cgiargs⟩ := by
  rw [requestParseURI_eq hlen, format_of_lt hfilename]
  rfl

/-- `cgiargs` is written for every URI that leads to a CGI program. -/
theorem not_dots_of_dynamic (h : (Server.requestParseURI uri).isStatic = false) :
    ¬ "..".toList <:+: uri := by
  intro hdots
  rw [Server.requestParseURI, if_pos hdots] at h
  cases h

theorem handleGet_eq (hlen : uri.length < maxLine) (huri : UriFits uri)
    (ht : t.InRange) (htm : tm.InRange) :
    handleGet host (some uri) tm t =
      .ok (fileAnswer host (Server.requestParseURI uri) tm t) := by
  rw [uriFits_iff] at huri
  have hfilename : (Server.requestParseURI uri).filename.length < maxLine := by
    omega
  rw [handleGet, requestParseURI_of_lt hlen hfilename, fileAnswer]
  change handleFile host _ tm t = _
  rw [handleFile]
  dsimp only
  cases hstat : host.stat (Server.requestParseURI uri).filename with
  | none => exact refuse_of_lt overhead_not_found ht htm huri
  | some sbuf =>
      have hpath := host.stat_lt _ _ hstat
      cases hstatic : (Server.requestParseURI uri).isStatic with
      | true => exact handleStatic_eq hpath ht htm
      | false =>
          exact handleDynamic_eq hpath (if_neg (not_dots_of_dynamic hstatic)) ht htm

/-- A host without files. -/
def emptyHost : Host where
  stat := fun _ => none
  stat_lt := by simp
  contents := fun _ => none
  cgi := fun _ _ => .noPipe
  stale := fun _ => 'x'
  malloc := fun _ => false
  malloc_lt := by simp

/-- There every GET is refused. -/
theorem uriFits_of_handleGet (hlen : uri.length < maxLine) (ht : t.InRange)
    (htm : tm.InRange) {answer : Option (Bool × Text)}
    (h : handleGet emptyHost (some uri) tm t = .ok answer) : UriFits uri := by
  rw [uriFits_iff]
  by_contra hge
  rw [Nat.not_lt] at hge
  rcases Nat.lt_or_ge (Server.requestParseURI uri).filename.length maxLine with
    hlt | hlong
  · rw [handleGet, requestParseURI_of_lt hlen hlt] at h
    change handleFile emptyHost _ tm t = _ at h
    cases (refuse_of_ge overhead_not_found ht htm hge).symm.trans h
  · rw [handleGet, requestParseURI_eq hlen, format_of_ge hlong] at h
    cases h

end Safe

/-! ## Request lines -/

section Lines

variable {host : Host} {line : Text} {t : ThreadsStats} {tm : TimeStats}
  {log : LogBuffer}

/-- Without a token the method that is compared was never written. -/
theorem requestHandle_of_nil (hline : line.length < maxLine)
    (htokens : scanTokens 3 (cString line) = []) :
    requestHandle host (some line) tm t log = .error .unwritten := by
  rw [requestHandle]
  change (sscanf line).bind _ = _
  rw [sscanf_eq hline, htokens]
  rfl

/-- `requestHandle` after `sscanf`. -/
theorem requestHandle_of_cons (hline : line.length < maxLine) {method : Text}
    {rest : List Text} (htokens : scanTokens 3 (cString line) = method :: rest) :
    requestHandle host (some line) tm t log =
      if strcasecmpEq method "GET".toList then
        handleGet host rest.head? tm { t with totalReq := wrap (t.totalReq + 1) }
      else if strcasecmpEq method "POST".toList then
        handlePost tm { t with totalReq := wrap (t.totalReq + 1) } log
      else
        refuse method "501".toList "Not Implemented".toList
          "OS-HW3 Server does not implement this method".toList tm
          { t with totalReq := wrap (t.totalReq + 1) } := by
  rw [requestHandle]
  change (sscanf line).bind _ = _
  rw [sscanf_eq hline, htokens, List.head?_eq_getElem?]
  rfl

theorem requestHandle_ok (hline : line.length < maxLine) (hfits : RequestFits line)
    (ht : t.InRange) (htm : tm.InRange) :
    ∃ answer, requestHandle host (some line) tm t log = .ok answer := by
  have ht' := inRange_totalReq ht (t.totalReq + 1)
  rw [RequestFits] at hfits
  cases htokens : scanTokens 3 (cString line) with
  | nil =>
      rw [htokens] at hfits
      exact hfits.elim
  | cons method rest =>
      rw [htokens] at hfits
      dsimp only at hfits
      rw [requestHandle_of_cons hline htokens]
      split
      · next hget =>
        rw [if_pos hget] at hfits
        obtain ⟨uri, hhead, huri⟩ := hfits
        have hmem : uri ∈ scanTokens 3 (cString line) := by
          rw [htokens]
          exact List.mem_cons_of_mem _ (List.mem_of_mem_head? hhead)
        rw [hhead]
        exact ⟨_, handleGet_eq (length_of_token hline hmem) huri ht' htm⟩
      · next hget =>
        rw [if_neg hget] at hfits
        split
        · exact ⟨_, handlePost_eq log ht' htm⟩
        · next hpost =>
          have hlt := hfits.resolve_left hpost
          refine ⟨_, refuse_of_lt overhead_not_implemented ht' htm ?_⟩
          omega

/-- An `int` that does not overflow does not wrap around. -/
theorem wrap_of_int {n m : ℤ} (h : int n = some m) : wrap n = m := by
  rw [int] at h
  split at h
  · next hrange =>
    cases h
    exact wrap_of_lt hrange.1 (by omega)
  · cases h

/-- A GET is answered as `Server.requestHandle` says, where that has an answer. -/
theorem fileAnswer_of_answer {uri method : Text}
    (hget : strcasecmpEq method "GET".toList = true) {answer : Bool × Text}
    (h : Server.requestHandle host method uri tm t log = some answer) :
    fileAnswer host (Server.requestParseURI uri) tm
      { t with totalReq := wrap (t.totalReq + 1) } = some answer := by
  obtain ⟨⟨t', prepared⟩, hprepare, h⟩ := Option.bind_eq_some_iff.mp h
  obtain ⟨total, htotal, hprepare⟩ := Option.bind_eq_some_iff.mp hprepare
  dsimp only at h hprepare
  rw [if_pos hget] at hprepare
  rw [wrap_of_int htotal, fileAnswer]
  cases hstat : host.stat (Server.requestParseURI uri).filename with
  | none =>
      rw [hstat] at hprepare
      cases hprepare
      exact h
  | some sbuf =>
      rw [hstat] at hprepare
      dsimp only at hprepare ⊢
      cases hstatic : (Server.requestParseURI uri).isStatic with
      | true =>
          rw [hstatic, if_pos rfl] at hprepare
          rw [if_pos rfl, staticAnswer]
          split at hprepare
          · next hrefused =>
            cases hprepare
            rw [if_pos hrefused]
            exact h
          · next hrefused =>
            obtain ⟨count, hcount, hprepare⟩ :=
              Option.bind_eq_some_iff.mp hprepare
            obtain ⟨body, hbody, hprepare⟩ :=
              Option.bind_eq_some_iff.mp hprepare
            cases hprepare
            rw [if_neg hrefused, hbody, wrap_of_int hcount]
            exact h
      | false =>
          rw [hstatic, if_neg Bool.false_ne_true] at hprepare
          rw [if_neg Bool.false_ne_true, dynamicAnswer]
          split at hprepare
          · next hrefused =>
            cases hprepare
            rw [if_pos hrefused]
            exact h
          · next hrefused =>
            obtain ⟨count, hcount, hprepare⟩ :=
              Option.bind_eq_some_iff.mp hprepare
            obtain ⟨⟨body, bodyLen⟩, hbody, hprepare⟩ :=
              Option.bind_eq_some_iff.mp hprepare
            cases hprepare
            rw [if_neg hrefused, hbody, wrap_of_int hcount]
            exact h

/-- Without faults every request is answered as `Server.requestHandle` says. -/
theorem requestHandle_of_answer (hline : line.length < maxLine)
    (hfits : RequestFits line) (ht : t.InRange) (htm : tm.InRange) {method : Text}
    {rest : List Text} (htokens : scanTokens 3 (cString line) = method :: rest)
    {answer : Bool × Text}
    (h : Server.requestHandle host method (rest.head?.getD []) tm t log =
      some answer) :
    requestHandle host (some line) tm t log = .ok (some answer) := by
  rw [RequestFits, htokens] at hfits
  dsimp only at hfits
  rw [requestHandle_of_cons hline htokens]
  by_cases hget : strcasecmpEq method "GET".toList = true
  · rw [if_pos hget] at hfits ⊢
    obtain ⟨uri, hhead, huri⟩ := hfits
    have hmem : uri ∈ scanTokens 3 (cString line) := by
      rw [htokens]
      exact List.mem_cons_of_mem _ (List.mem_of_mem_head? hhead)
    rw [hhead] at h ⊢
    rw [← fileAnswer_of_answer hget h]
    exact handleGet_eq (length_of_token hline hmem) huri (inRange_totalReq ht _) htm
  · rw [if_neg hget] at hfits ⊢
    obtain ⟨⟨t', prepared⟩, hprepare, h⟩ := Option.bind_eq_some_iff.mp h
    obtain ⟨total, htotal, hprepare⟩ := Option.bind_eq_some_iff.mp hprepare
    dsimp only at h hprepare
    rw [if_neg hget] at hprepare
    have ht' := inRange_totalReq ht (t.totalReq + 1)
    rw [wrap_of_int htotal] at ht' ⊢
    by_cases hpost : strcasecmpEq method "POST".toList = true
    · rw [if_pos hpost] at hprepare ⊢
      obtain ⟨count, hcount, hprepare⟩ := Option.bind_eq_some_iff.mp hprepare
      cases hprepare
      obtain ⟨⟨dst, len⟩, hlog, h⟩ := Option.bind_eq_some_iff.mp h
      cases h
      refine (handlePost_eq log ht' htm).trans ?_
      dsimp only
      rw [hlog, wrap_of_int hcount]
      rfl
    · rw [if_neg hpost] at hprepare ⊢
      cases hprepare
      cases h
      have hlt := hfits.resolve_left hpost
      apply refuse_of_lt overhead_not_implemented ht' htm
      omega

/-- On a host without files, an answer without a fault needs a request that fits. -/
theorem requestFits_of_ok (hline : line.length < maxLine) (ht : t.InRange)
    (htm : tm.InRange) {answer : Option (Bool × Text)}
    (h : requestHandle emptyHost (some line) tm t log = .ok answer) :
    RequestFits line := by
  have ht' := inRange_totalReq ht (t.totalReq + 1)
  rw [RequestFits]
  cases htokens : scanTokens 3 (cString line) with
  | nil =>
      rw [requestHandle_of_nil hline htokens] at h
      cases h
  | cons method rest =>
      rw [requestHandle_of_cons hline htokens] at h
      dsimp only
      split at h
      · next hget =>
        rw [if_pos hget]
        cases hhead : rest.head? with
        | none =>
            rw [hhead] at h
            cases h
        | some uri =>
            have hmem : uri ∈ scanTokens 3 (cString line) := by
              rw [htokens]
              exact List.mem_cons_of_mem _ (List.mem_of_mem_head? hhead)
            rw [hhead] at h
            exact ⟨uri, rfl,
              uriFits_of_handleGet (length_of_token hline hmem) ht' htm h⟩
      · next hget =>
        rw [if_neg hget]
        split at h
        · next hpost => exact Or.inl hpost
        · right
          by_contra hge
          have hpage : maxLine ≤ 153 + method.length := by omega
          cases (refuse_of_ge overhead_not_implemented ht' htm hpage).symm.trans h

end Lines

end Checked

/-! ## The exact condition -/

/-- Statistics of a worker and times that are all zero. -/
def noStats : ThreadsStats := ⟨0, 0, 0, 0, 0⟩
def noTimes : TimeStats := ⟨⟨0, 0⟩, ⟨0, 0⟩, ⟨0, 0⟩, ⟨0, 0⟩⟩

theorem noStats_inRange : noStats.InRange := by
  have hzero : IsInt 0 := ⟨by decide, by decide⟩
  exact ⟨hzero, hzero, hzero, hzero, hzero⟩

theorem noTimes_inRange : noTimes.InRange := by
  have hzero : Timeval.InRange ⟨0, 0⟩ :=
    ⟨⟨by decide, by decide⟩, ⟨by decide, by decide⟩⟩
  exact ⟨hzero, hzero, hzero, hzero⟩

theorem StringsSafe.requestFits {line : Text} (hline : line.length < maxLine)
    (h : StringsSafe line) : RequestFits line := by
  obtain ⟨answer, hanswer⟩ := h Checked.emptyHost noTimes noStats
    (createLog fun _ => 'x') noTimes_inRange noStats_inRange
  exact Checked.requestFits_of_ok hline noStats_inRange noTimes_inRange hanswer

/-- Of the request lines that fit the array they are read into, exactly those are
handled without a fault that have their tokens and are short enough for the file
name and for the page about it. -/
theorem stringsSafe_iff (line : Text) (hline : line.length < maxLine) :
    StringsSafe line ↔ RequestFits line :=
  ⟨fun h => h.requestFits hline, fun hfits _ _ _ _ htm ht =>
    Checked.requestHandle_ok hline hfits ht htm⟩

/-- The request line of `truncatedRequest` is safe. -/
theorem stringsSafe_root : StringsSafe "GET / HTTP/1.0\r\n".toList := by
  have hmem : "GET / HTTP/1.0\r\n".toList ∈
      streamLines (delivered truncatedRequest) := by
    decide +kernel
  apply (stringsSafe_iff _ (length_of_mem_streamLines hmem)).mpr
  have htokens : Checked.scanTokens 3 (Checked.cString "GET / HTTP/1.0\r\n".toList) =
      ["GET".toList, "/".toList, "HTTP/1.0".toList] := by
    decide +kernel
  have huri : UriFits "/".toList := by
    rw [UriFits]
    decide +kernel
  rw [RequestFits, htokens]
  exact ⟨"/".toList, rfl, huri⟩

/-- After a method alone the URI is read without ever being written. -/
theorem not_stringsSafe_get : ¬ StringsSafe "GET\r\n".toList := by
  intro h
  have hfits := h.requestFits (by decide)
  have htokens : Checked.scanTokens 3 (Checked.cString "GET\r\n".toList) =
      ["GET".toList] := by
    decide +kernel
  rw [RequestFits, htokens] at hfits
  obtain ⟨uri, hhead, -⟩ := hfits
  cases hhead

end OsCoursework.Server
