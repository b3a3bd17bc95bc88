import OsCoursework.Server.Log
import OsCoursework.Support.LineCutting

/-!
# Reading the headers of a request

The buffered input of `segel.c` and `requestReadhdrs`.  A connection is the list
of what the calls of `read` bring until the client closes its end; from then on
`read` returns 0.  A call that fails for another reason than a signal ends the
server in `Rio_readlineb`.

`rio_readlineb` hands out the lines of the stream one by one and leaves the
buffer alone at the end of it.  `requestReadhdrs` waits for an empty line and
does not look at the return value, so it goes on forever when the stream has none.
-/

namespace OsCoursework.Server

open OsCoursework.LineCutting

/-! ## Buffered input -/

def rioBufsize : ℕ := 8192
def maxLine : ℕ := 8192

/-- What a call of `read` brings. -/
inductive Delivery where
  | interrupted
  | bytes (data : Text) (ne : data ≠ []) (le : data.length ≤ rioBufsize)

/-- What the client sends. -/
def delivered : List Delivery → Text
  | [] => []
  | .interrupted :: rest => delivered rest
  | .bytes data _ _ :: rest => data ++ delivered rest

/-- The unread bytes of `rio_buf`, and what `read` will bring. -/
structure Rio where
  unread : Text
  pending : List Delivery

def rioReadinitb (pending : List Delivery) : Rio :=
  ⟨[], pending⟩

/-- The bytes that are still to be read. -/
def Rio.stream (rp : Rio) : Text :=
  rp.unread ++ delivered rp.pending

/-- The `while` loop of `rio_read`. -/
def refill : List Delivery → Rio
  | [] => ⟨[], []⟩
  | .interrupted :: rest => refill rest
  | .bytes data _ _ :: rest => ⟨data, rest⟩

/-- `rio_read`: the bytes it copies, none at the end of the stream. -/
def rioRead (rp : Rio) (n : ℕ) : Rio × Text :=
  let rp := if rp.unread = [] then refill rp.pending else rp
  (⟨rp.unread.drop n, rp.pending⟩, rp.unread.take n)

/-- The `for` loop of `rio_readlineb` with `room` bytes to go; `none` is its
`return 0`. -/
def readlineLoop : ℕ → Rio → Text → Rio × Option Text
  | 0, rp, line => (rp, some line)
  | room + 1, rp, line =>
      match rioRead rp 1 with
      | (rp, c :: _) =>
          if c = '\n' then (rp, some (line ++ [c]))
          else readlineLoop room rp (line ++ [c])
      | (rp, []) => (rp, if line = [] then none else some line)

/-- A `char` array with what it happens to hold. -/
abbrev Buffer := ℕ → Char

/-- Write a text and the NUL behind it. -/
def storeText (buf : Buffer) (text : Text) : Buffer :=
  fun i => if i ≤ text.length then text.getD i '\x00' else buf i

/-- `rio_readlineb`: the buffer and the return value. -/
def rioReadlineb (rp : Rio) (usrbuf : Buffer) (maxlen : ℕ) : Rio × Buffer × ℕ :=
  match readlineLoop (maxlen - 1) rp [] with
  | (rp, none) => (rp, usrbuf, 0)
  | (rp, some line) => (rp, storeText usrbuf line,
      if line.getLast? = some '\n' then line.length else line.length + 1)

/-- `strcmp(buf, t) == 0`. -/
def strcmpEq (buf : Buffer) (t : Text) : Bool :=
  (List.range (t.length + 1)).map buf = t ++ ['\x00']

/-! ## `requestReadhdrs` -/

/-- The `while` loop, for at most `fuel` tests. -/
def readhdrsLoop : ℕ → Rio → Buffer → Option Rio
  | 0, _, _ => none
  | fuel + 1, rp, buf =>
      if strcmpEq buf crlf then some rp
      else
        let (rp, buf, _) := rioReadlineb rp buf maxLine
        readhdrsLoop fuel rp buf

/-- `requestReadhdrs`; `buf` is what its array holds at first. -/
def requestReadhdrs (fuel : ℕ) (rp : Rio) (buf : Buffer) : Option Rio :=
  let (rp, buf, _) := rioReadlineb rp buf maxLine
  readhdrsLoop fuel rp buf

/-- `requestReadhdrs` returns. -/
def HeadersEnd (rp : Rio) (buf : Buffer) : Prop :=
  ∃ fuel rp', requestReadhdrs fuel rp buf = some rp'

/-! ## The lines that are read -/

/-- The lines that `Rio_readlineb` makes of a stream. -/
def streamLines (stream : Text) : List Text :=
  cutLines '\n' (maxLine - 1) stream

/-- Every line leaves a byte of the array for the NUL. -/
theorem length_of_mem_streamLines {stream line : Text}
    (h : line ∈ streamLines stream) : line.length < maxLine :=
  Nat.lt_of_le_pred (by decide) (length_le_of_mem (by decide) h)

theorem refill_spec (pending : List Delivery) :
    (refill pending).stream = delivered pending ∧
      ((refill pending).unread = [] → delivered pending = []) := by
  induction pending with
  | nil => exact ⟨rfl, fun _ => rfl⟩
  | cons delivery rest ih =>
      cases delivery with
      | interrupted => exact ih
      | bytes data ne le => exact ⟨rfl, fun h => absurd h ne⟩

variable {rp : Rio} {buf : Buffer}

/-- Reading one byte takes it off the stream. -/
theorem rioRead_spec {rp rp' : Rio} {got : Text} (h : rioRead rp 1 = (rp', got)) :
    got = rp.stream.take 1 ∧ rp'.stream = rp.stream.drop 1 := by
  obtain ⟨hstream, hempty⟩ := refill_spec rp.pending
  rw [rioRead] at h
  split at h
  · next hunread =>
    obtain ⟨rfl, rfl⟩ := Prod.mk.inj h
    have hsame : rp.stream = (refill rp.pending).stream := by
      rw [hstream, Rio.stream, hunread, List.nil_append]
    rw [hsame]
    cases hfill : (refill rp.pending).unread with
    | nil =>
        have hnone := hstream.trans (hempty hfill)
        have hpending := hnone
        rw [Rio.stream, hfill, List.nil_append] at hpending
        rw [hnone]
        exact ⟨rfl, hpending⟩
    | cons c rest => simp [Rio.stream, hfill]
  · next hunread =>
    obtain ⟨rfl, rfl⟩ := Prod.mk.inj h
    obtain ⟨c, rest, heq⟩ := List.exists_cons_of_ne_nil hunread
    simp [Rio.stream, heq]

/-- The loop reads up to the end of the current line. -/
theorem readlineLoop_spec {limit : ℕ} {room : ℕ} (hroom : 0 < room) {rp rp' : Rio}
    {line : Text} {result : Option Text}
    (h : readlineLoop room rp line = (rp', result)) :
    (result = none ∧ cut '\n' limit room line rp.stream = [] ∧ rp'.stream = []) ∨
    ∃ l, result = some l ∧ cut '\n' limit room line rp.stream =
      l :: cutLines '\n' limit rp'.stream := by
  induction room generalizing rp line with
  | zero => cases hroom
  | succ room ih =>
      obtain ⟨rp₁, got, hread⟩ : ∃ rp₁ got, rioRead rp 1 = (rp₁, got) :=
        ⟨_, _, rfl⟩
      obtain ⟨hgot, hrest⟩ := rioRead_spec hread
      rw [readlineLoop, hread] at h
      cases hstream : rp.stream with
      | nil =>
          rw [hstream] at hgot hrest
          rw [hgot] at h
          obtain ⟨rfl, rfl⟩ := Prod.mk.inj h
          by_cases hline : line = []
          · exact Or.inl ⟨if_pos hline, if_pos hline, hrest⟩
          · refine Or.inr ⟨line, if_neg hline, ?_⟩
            rw [hrest, List.drop_nil, cutLines_nil, cut_nil hline]
      | cons c s =>
          rw [hstream] at hgot hrest
          rw [hgot] at h
          change rp₁.stream = s at hrest
          change (if c = '\n' then (rp₁, some (line ++ [c]))
            else readlineLoop room rp₁ (line ++ [c])) = (rp', result) at h
          rw [← hrest]
          split at h
          · next hc =>
            obtain ⟨rfl, rfl⟩ := Prod.mk.inj h
            exact Or.inr ⟨_, rfl, cut_cons_of_end (Or.inl hc)⟩
          · next hc =>
            rcases Nat.eq_zero_or_pos room with rfl | hpos
            · obtain ⟨rfl, rfl⟩ := Prod.mk.inj h
              exact Or.inr ⟨_, rfl, cut_cons_of_end (Or.inr (Nat.le_refl _))⟩
            · rw [cut_cons_of_not_end hc (by omega)]
              exact ih hpos h

/-- `Rio_readlineb` hands out the next line, or leaves the buffer alone at the end
of the stream. -/
theorem rioReadlineb_spec {rp rp' : Rio} {buf buf' : Buffer} {n : ℕ}
    (h : rioReadlineb rp buf maxLine = (rp', buf', n)) :
    (streamLines rp.stream = [] ∧ buf' = buf ∧ streamLines rp'.stream = []) ∨
    ∃ l, streamLines rp.stream = l :: streamLines rp'.stream ∧
      buf' = storeText buf l := by
  obtain ⟨rp₁, result, hloop⟩ : ∃ rp₁ result,
      readlineLoop (maxLine - 1) rp [] = (rp₁, result) := ⟨_, _, rfl⟩
  rw [rioReadlineb, hloop] at h
  have hroom : 0 < maxLine - 1 := by decide
  rcases readlineLoop_spec hroom hloop with ⟨rfl, hcut, hend⟩ | ⟨l, rfl, hcut⟩
  · obtain ⟨rfl, hrest⟩ := Prod.mk.inj h
    obtain ⟨rfl, -⟩ := Prod.mk.inj hrest
    refine Or.inl ⟨hcut, rfl, ?_⟩
    rw [hend]
    exact cutLines_nil
  · obtain ⟨rfl, hrest⟩ := Prod.mk.inj h
    obtain ⟨rfl, -⟩ := Prod.mk.inj hrest
    exact Or.inr ⟨l, hcut, rfl⟩

/-- A line that was read compares equal to the empty line only if it is one. -/
theorem strcmpEq_storeText {buf : Buffer} {l : Text} (h : '\n' ∉ l.dropLast) :
    strcmpEq (storeText buf l) crlf = true ↔ l = crlf := by
  have hcrlf : crlf = ['\r', '\n'] := by decide
  have hiff : strcmpEq (storeText buf l) crlf = true ↔
      storeText buf l 0 = '\r' ∧ storeText buf l 1 = '\n' ∧
        storeText buf l 2 = '\x00' := by
    simp [strcmpEq, hcrlf, List.range_succ]
  rw [hiff, hcrlf]
  rcases l with _ | ⟨a, _ | ⟨b, _ | ⟨c, rest⟩⟩⟩
  · simp [storeText]
  · simp [storeText]
  · simp [storeText]
  · -- A longer line has its newline at the end.
    have hb : b ≠ '\n' := by
      rintro rfl
      simp at h
    simp [storeText, hb]

/-! ## Termination -/

/-- The buffer holds an empty line, or one is still to come. -/
def Awaited (rp : Rio) (buf : Buffer) : Prop :=
  strcmpEq buf crlf = true ∨ crlf ∈ streamLines rp.stream

/-- Reading a line does not lose the empty line; the buffer counts only when there
is nothing to read. -/
theorem awaited_iff_of_read {rp rp' : Rio} {buf buf' : Buffer} {n : ℕ}
    (h : rioReadlineb rp buf maxLine = (rp', buf', n)) :
    Awaited rp' buf' ↔ crlf ∈ streamLines rp.stream ∨
      (streamLines rp.stream = [] ∧ strcmpEq buf crlf = true) := by
  rcases rioReadlineb_spec h with ⟨hlines, rfl, hend⟩ | ⟨l, hlines, rfl⟩
  · simp [Awaited, hlines, hend]
  · have hmem : l ∈ cutLines '\n' (maxLine - 1) rp.stream := by
      change l ∈ streamLines rp.stream
      rw [hlines]
      exact List.mem_cons_self
    have hl := delim_not_mem_dropLast hmem
    rw [Awaited, strcmpEq_storeText hl, hlines, List.mem_cons, eq_comm]
    simp

/-- The loop ends exactly when it waits for an empty line that comes. -/
theorem readhdrsLoop_iff {rp : Rio} {buf : Buffer} :
    (∃ fuel rp', readhdrsLoop fuel rp buf = some rp') ↔ Awaited rp buf := by
  constructor
  · rintro ⟨fuel, rp', hrun⟩
    induction fuel generalizing rp buf with
    | zero => cases hrun
    | succ fuel ih =>
        rw [readhdrsLoop] at hrun
        split at hrun
        · next heq => exact Or.inl heq
        · next hne =>
          rcases (awaited_iff_of_read rfl).mp (ih hrun) with hmem | ⟨-, heq⟩
          · exact Or.inr hmem
          · exact absurd heq hne
  · intro hawaited
    -- One line of the stream is gone after each call.
    generalize hcount : (streamLines rp.stream).length = count
    induction count generalizing rp buf with
    | zero =>
        rcases hawaited with heq | hmem
        · exact ⟨1, rp, by rw [readhdrsLoop, if_pos heq]⟩
        · rw [List.eq_nil_of_length_eq_zero hcount] at hmem
          cases hmem
    | succ count ih =>
        by_cases heq : strcmpEq buf crlf = true
        · exact ⟨1, rp, by rw [readhdrsLoop, if_pos heq]⟩
        · obtain ⟨rp₁, buf₁, n, hread⟩ : ∃ rp₁ buf₁ n,
              rioReadlineb rp buf maxLine = (rp₁, buf₁, n) := ⟨_, _, _, rfl⟩
          have hnext := (awaited_iff_of_read hread).mpr
            (Or.inl (hawaited.resolve_left heq))
          rcases rioReadlineb_spec hread with ⟨hnil, -, -⟩ | ⟨l, hlines, -⟩
          · rw [hnil] at hcount
            cases hcount
          · rw [hlines, List.length_cons, Nat.add_right_cancel_iff] at hcount
            obtain ⟨fuel, rp', hrun⟩ := ih hnext hcount
            refine ⟨fuel + 1, rp', ?_⟩
            rw [readhdrsLoop, if_neg heq, hread]
            exact hrun

/-- `requestReadhdrs` returns exactly when an empty line is still to come, or
nothing at all is and its array happens to hold one. -/
theorem headersEnd_iff {rp : Rio} {buf : Buffer} :
    HeadersEnd rp buf ↔ crlf ∈ streamLines rp.stream ∨
      (streamLines rp.stream = [] ∧ strcmpEq buf crlf = true) :=
  readhdrsLoop_iff.trans (awaited_iff_of_read rfl)

/-- The state of the input when `requestHandle` has read the request line. -/
def afterRequestLine (conn : List Delivery) (buf : Buffer) : Rio :=
  (rioReadlineb (rioReadinitb conn) buf maxLine).1

/-- The lines that `requestReadhdrs` finds. -/
theorem streamLines_afterRequestLine (conn : List Delivery) (buf : Buffer) :
    streamLines (afterRequestLine conn buf).stream =
      (streamLines (delivered conn)).tail := by
  have hstream : (rioReadinitb conn).stream = delivered conn := List.nil_append _
  obtain ⟨rp, buf', n, hread⟩ : ∃ rp buf' n,
      rioReadlineb (rioReadinitb conn) buf maxLine = (rp, buf', n) :=
    ⟨_, _, _, rfl⟩
  rw [afterRequestLine, hread]
  rcases rioReadlineb_spec hread with ⟨hlines, -, hend⟩ | ⟨l, hlines, -⟩
  · rw [hstream] at hlines
    rw [hlines]
    exact hend
  · rw [hstream] at hlines
    rw [hlines, List.tail_cons]

/-- However the client's bytes arrive, `requestReadhdrs` returns exactly when one
of the lines after the first is empty, or there is none and its array happens to
hold an empty line. -/
theorem requestReadhdrs_returns_iff (conn : List Delivery) (line buf : Buffer) :
    HeadersEnd (afterRequestLine conn line) buf ↔
      crlf ∈ (streamLines (delivered conn)).tail ∨
        ((streamLines (delivered conn)).tail = [] ∧
          strcmpEq buf crlf = true) := by
  rw [headersEnd_iff, streamLines_afterRequestLine]

/-- A request that ends after its only header. -/
def truncatedRequest : List Delivery :=
  [.bytes "GET / HTTP/1.0\r\nHost: x\r\n".toList (by decide) (by decide)]

theorem truncatedRequest_hangs :
    ¬ ∃ line buf, HeadersEnd (afterRequestLine truncatedRequest line) buf := by
  rintro ⟨line, buf, hends⟩
  have hlines : (streamLines (delivered truncatedRequest)).tail =
      ["Host: x\r\n".toList] := by decide
  rw [headersEnd_iff, streamLines_afterRequestLine, hlines] at hends
  rcases hends with hmem | ⟨hnil, -⟩
  · exact absurd hmem (by decide)
  · cases hnil

end OsCoursework.Server
