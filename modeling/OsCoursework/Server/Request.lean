import Mathlib.Algebra.Group.Int.Defs
import Mathlib.Algebra.Group.Nat.Defs
import Mathlib.Data.List.Infix
import OsCoursework.Server.Log

/-!
# Handling a request

`request.c` up to its two calls into the log, and what it sends after them.  The
file system, `malloc` and the CGI programs are the `Host` a request finds.  Where
the server ends itself (`exit`) or an `int` overflows, a function is undefined.
-/

namespace OsCoursework.Server

/-! ## The host -/

/-- The fields of `struct stat` that are read. -/
structure FileInfo where
  isReg : Bool
  readable : Bool
  executable : Bool
  size : ℕ

/-- A call of `pipe`, and what the program writes to it. -/
inductive CgiRun where
  | noPipe
  | output (bytes : Text)

/-- `PATH_MAX`, with the terminating NUL. -/
def pathMax : ℕ := 4096

/-- What the functions outside the server answer.  `stale` is what fresh memory
holds, no path of `PATH_MAX` bytes or more is looked up (`ENAMETOOLONG`), and no
object is larger than `PTRDIFF_MAX`. -/
structure Host where
  stat : Text → Option FileInfo
  stat_lt : ∀ path info, stat path = some info → path.length < pathMax
  contents : Text → Option Text
  cgi : Text → Text → CgiRun
  stale : ℕ → Char
  malloc : ℕ → Bool
  malloc_lt : ∀ size, malloc size = true → size < 2 ^ 63

def maxBuf : ℕ := 8192

/-- An `int` passed for a `size_t`. -/
def toSizeT (n : ℤ) : ℕ :=
  (n % 2 ^ 64).toNat

/-- `strcasecmp(s, t) == 0`. -/
def strcasecmpEq (s t : Text) : Bool :=
  s.map Char.toLower = t.map Char.toLower

/-! ## Statistics and errors -/

/-- `buf` holds its text up to the terminating NUL. -/
def appendStats (buf : Text) (tStats : ThreadsStats) (tmStats : TimeStats) :
    Text :=
  buf ++
  ("Stat-Req-Arrival:: ".toList ++ timestamp tmStats.taskArrival ++ crlf) ++
  ("Stat-Req-Dispatch:: ".toList ++ timestamp tmStats.taskDispatch ++ crlf) ++
  ("Stat-Log-Arrival:: ".toList ++ timestamp tmStats.logEnter ++ crlf) ++
  ("Stat-Log-Dispatch:: ".toList ++ timestamp tmStats.logExit ++ crlf) ++
  ("Stat-Thread-Id:: ".toList ++ decimal tStats.id ++ crlf) ++
  ("Stat-Thread-Count:: ".toList ++ decimal tStats.totalReq ++ crlf) ++
  ("Stat-Thread-Static:: ".toList ++ decimal tStats.statReq ++ crlf) ++
  ("Stat-Thread-Dynamic:: ".toList ++ decimal tStats.dynmReq ++ crlf) ++
  ("Stat-Thread-Post:: ".toList ++ decimal tStats.postReq ++ crlf ++ crlf)

/-- The bytes that `requestError` sends. -/
def requestError (cause errnum shortmsg longmsg : Text) (tmStats : TimeStats)
    (tStats : ThreadsStats) : Text :=
  let body :=
    "<html><title>OS-HW3 Error</title>".toList ++
    "<body bgcolor=\"fffff\">\r\n".toList ++
    (errnum ++ ": ".toList ++ shortmsg ++ crlf) ++
    ("<p>".toList ++ longmsg ++ ": ".toList ++ cause ++ crlf) ++
    "<hr>OS-HW3 Web Server\r\n".toList
  let buf :=
    ("HTTP/1.0 ".toList ++ errnum ++ " ".toList ++ shortmsg ++ crlf) ++
    "Content-Type: text/html\r\n".toList ++
    ("Content-Length: ".toList ++ decimal body.length ++ crlf)
  appendStats buf tStats tmStats ++ body

/-! ## The file -/

structure ParsedUri where
  isStatic : Bool
  filename : Text
  cgiargs : Text

/-- The first branch leaves `cgiargs` as it was; nobody reads it there. -/
def requestParseURI (uri : Text) : ParsedUri :=
  if "..".toList <:+: uri then
    ⟨true, "./public/home.html".toList, []⟩
  else if ¬ "cgi".toList <:+: uri then
    let filename := "./public/".toList ++ uri
    if uri.getLast? = some '/' then ⟨true, filename ++ "home.html".toList, []⟩
    else ⟨true, filename, []⟩
  else
    ⟨false, "./public/".toList ++ uri.takeWhile (· ≠ '?'),
      (uri.dropWhile (· ≠ '?')).tail⟩

def requestGetFiletype (filename : Text) : Text :=
  if ".html".toList <:+: filename then "text/html".toList
  else if ".gif".toList <:+: filename then "image/gif".toList
  else if ".jpg".toList <:+: filename then "image/jpeg".toList
  else "text/plain".toList

/-- `malloc` and `Rio_readn`: bytes that the file does not have keep their stale
value.  The inner option is the pointer. -/
def requestPrepareStatic (host : Host) (filename : Text) (filesize : ℤ) :
    Option (Option Text) := do
  let contents ← host.contents filename
  if host.malloc (toSizeT filesize) then
    some (some ((List.range (toSizeT filesize)).map fun i =>
      contents.getD i (host.stale i)))
  else some none

/-- The buffer and `*out_len`; reading into a `NULL` buffer ends the server. -/
def requestPrepareDynamic (host : Host) (filename cgiargs : Text) :
    Option (Option Text × ℤ) :=
  match host.cgi filename cgiargs with
  | .noPipe => some (none, 0)
  | .output bytes =>
      if host.malloc maxBuf then
        some (some (bytes.take maxBuf), (bytes.take maxBuf).length)
      else if bytes = [] then some (none, 0)
      else none

/-! ## Before the log -/

/-- What the handler has when it comes to the log. -/
inductive Prepared where
  | refused (cause errnum shortmsg longmsg : Text)
  | get (headers : Text) (body : Option Text) (bodyLen : ℤ)
  | post

def Prepared.isGet : Prepared → Bool
  | .get _ _ _ => true
  | _ => false

def okHeaders : Text :=
  "HTTP/1.0 200 OK\r\n".toList ++ "Server: OS-HW3 Web Server\r\n".toList

/-- `requestHandle` up to the log, with the updated statistics. -/
def prepare (host : Host) (method uri : Text) (tStats : ThreadsStats) :
    Option (ThreadsStats × Prepared) := do
  let total ← int (tStats.totalReq + 1)
  let t := { tStats with totalReq := total }
  if strcasecmpEq method "GET".toList then
    let parsed := requestParseURI uri
    match host.stat parsed.filename with
    | none =>
        some (t, .refused parsed.filename "404".toList "Not found".toList
          "OS-HW3 Server could not find this file".toList)
    | some sbuf =>
        if parsed.isStatic then
          if ¬ sbuf.isReg ∨ ¬ sbuf.readable then
            some (t, .refused parsed.filename "403".toList "Forbidden".toList
              "OS-HW3 Server could not read this file".toList)
          else
            let count ← int (t.statReq + 1)
            let bodyLen := wrap sbuf.size
            let body ← requestPrepareStatic host parsed.filename bodyLen
            some ({ t with statReq := count }, .get (okHeaders ++
              ("Content-Length: ".toList ++ decimal bodyLen ++ crlf) ++
              ("Content-Type: ".toList ++ requestGetFiletype parsed.filename ++
                crlf)) body bodyLen)
        else if ¬ sbuf.isReg ∨ ¬ sbuf.executable then
          some (t, .refused parsed.filename "403".toList "Forbidden".toList
            "OS-HW3 Server could not run this CGI program".toList)
        else
          let count ← int (t.dynmReq + 1)
          let (body, bodyLen) ←
            requestPrepareDynamic host parsed.filename parsed.cgiargs
          some ({ t with dynmReq := count }, .get okHeaders body bodyLen)
  else if strcasecmpEq method "POST".toList then
    let count ← int (t.postReq + 1)
    some ({ t with postReq := count }, .post)
  else
    some (t, .refused method "501".toList "Not Implemented".toList
      "OS-HW3 Server does not implement this method".toList)

/-! ## After the log -/

/-- The headers of the answer to a POST. -/
def postHeaders (bodyLen : ℤ) : Text :=
  okHeaders ++ ("Content-Length: ".toList ++ decimal bodyLen ++ crlf) ++
    "Content-Type: text/plain\r\n".toList

/-- What `Rio_writen` sends of the body.  Sending from `NULL` fails, which ends the
server. -/
def rioWriten (body : Option Text) (n : ℤ) : Option Text :=
  match body with
  | some bytes => some (bytes.take (toSizeT n))
  | none => if n = 0 then some [] else none

/-- The bytes that `requestHandle` sends, and whether the status is 200.  `tmStats`
holds the times that the log has filled in; the body is missing when sending it
ends the server. -/
def requestHandle (host : Host) (method uri : Text) (tmStats : TimeStats)
    (tStats : ThreadsStats) (log : LogBuffer) : Option (Bool × Text) := do
  let (t, prepared) ← prepare host method uri tStats
  match prepared with
  | .refused cause errnum shortmsg longmsg =>
      some (false, requestError cause errnum shortmsg longmsg tmStats t)
  | .get headers body bodyLen =>
      some (true, appendStats headers t tmStats ++
        (rioWriten body bodyLen).getD [])
  | .post => do
      let (dst, len) ← getLog log
      some (true, appendStats (postHeaders len) t tmStats ++
        (rioWriten (some dst) len).getD [])

end OsCoursework.Server
