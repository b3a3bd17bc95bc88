import OsCoursework.Server.Reading
import OsCoursework.Server.Request

/-!
# Reading the output of a CGI program

`requestPrepareDynamic` with the pipe it reads from.  `rio_readn` goes on until its
buffer is full or the pipe is at its end, and the loop around it until `rio_readn`
brings nothing.  It brings nothing as soon as the buffer of `MAXBUF` bytes is full,
so the rest of a longer output is lost.
-/

namespace OsCoursework.Server

/-! ## Bytes in a buffer -/

/-- The first `n` bytes of a buffer. -/
def firstBytes (buf : Buffer) (n : ℕ) : Text :=
  (List.range n).map buf

/-- Write `data` from position `pos` on. -/
def storeBytes (buf : Buffer) (pos : ℕ) (data : Text) : Buffer :=
  fun i => if pos ≤ i ∧ i < pos + data.length then data.getD (i - pos) '\x00'
    else buf i

theorem length_firstBytes (buf : Buffer) (n : ℕ) : (firstBytes buf n).length = n := by
  simp [firstBytes]

/-- What is written behind the first bytes comes behind them. -/
theorem firstBytes_storeBytes (buf : Buffer) (pos : ℕ) (data : Text) :
    firstBytes (storeBytes buf pos data) (pos + data.length) =
      firstBytes buf pos ++ data := by
  apply List.ext_getElem
  · simp [firstBytes]
  · intro i hi _
    rw [length_firstBytes] at hi
    by_cases hpos : pos ≤ i
    · have hlt : i - pos < data.length := by omega
      rw [List.getElem_append_right (by rw [length_firstBytes]; exact hpos)]
      simp [firstBytes, storeBytes, hpos, hi, List.getElem?_eq_getElem hlt]
    · have hlt : i < (firstBytes buf pos).length := by
        rw [length_firstBytes]
        exact Nat.lt_of_not_le hpos
      rw [List.getElem_append_left hlt]
      simp [firstBytes, storeBytes, hpos]

/-! ## `rio_readn` -/

/-- The `while` loop of `rio_readn`, with `bufp` as a position in the array: the
array, `nleft`, and what is left in the pipe. -/
def readnLoop : List Delivery → Buffer → ℕ → ℕ → Buffer × ℕ × List Delivery
  | pipe, buf, _, 0 => (buf, 0, pipe)
  | [], buf, _, nleft + 1 => (buf, nleft + 1, [])
  | .interrupted :: rest, buf, bufp, nleft + 1 => readnLoop rest buf bufp (nleft + 1)
  | .bytes data _ le :: rest, buf, bufp, nleft + 1 =>
      if h : nleft + 1 < data.length then
        (storeBytes buf bufp (data.take (nleft + 1)), 0,
          .bytes (data.drop (nleft + 1)) (by simpa using h)
            (by rw [List.length_drop]; omega) :: rest)
      else
        readnLoop rest (storeBytes buf bufp data) (bufp + data.length)
          (nleft + 1 - data.length)

/-- `Rio_readn`: the array, the return value and what is left in the pipe. -/
def rioReadn (pipe : List Delivery) (buf : Buffer) (bufp n : ℕ) :
    Buffer × ℕ × List Delivery :=
  let (buf, nleft, pipe) := readnLoop pipe buf bufp n
  (buf, n - nleft, pipe)

/-- The loop moves bytes from the pipe into the array until the pipe or the room is
at its end. -/
theorem readnLoop_spec {pipe pipe' : List Delivery} {buf buf' : Buffer}
    {bufp n nleft : ℕ} (h : readnLoop pipe buf bufp n = (buf', nleft, pipe')) :
    nleft = n - (delivered pipe).length ∧
      firstBytes buf' (bufp + (n - nleft)) =
        firstBytes buf bufp ++ (delivered pipe).take n ∧
      delivered pipe' = (delivered pipe).drop n := by
  fun_induction readnLoop pipe buf bufp n with
  | case1 pipe buf bufp =>
      obtain ⟨rfl, hrest⟩ := Prod.mk.inj h
      obtain ⟨rfl, rfl⟩ := Prod.mk.inj hrest
      simp
  | case2 buf bufp nleft₀ =>
      obtain ⟨rfl, hrest⟩ := Prod.mk.inj h
      obtain ⟨rfl, rfl⟩ := Prod.mk.inj hrest
      simp [delivered]
  | case3 rest buf bufp nleft₀ ih => exact ih h
  | case4 data ne le rest buf bufp nleft₀ hlt =>
      obtain ⟨rfl, hrest⟩ := Prod.mk.inj h
      obtain ⟨rfl, rfl⟩ := Prod.mk.inj hrest
      have hlen : (data.take (nleft₀ + 1)).length = nleft₀ + 1 := by
        rw [List.length_take, Nat.min_eq_left hlt.le]
      have hstore := firstBytes_storeBytes buf bufp (data.take (nleft₀ + 1))
      rw [hlen] at hstore
      rw [delivered, List.take_append_of_le_length hlt.le,
        List.drop_append_of_le_length hlt.le, Nat.sub_zero, delivered]
      refine ⟨?_, hstore, rfl⟩
      rw [List.length_append]
      omega
  | case5 data ne le rest buf bufp nleft₀ hge ih =>
      obtain ⟨hleft, hbuf, hpipe⟩ := ih h
      have hle : data.length ≤ nleft₀ + 1 := Nat.le_of_not_lt hge
      rw [firstBytes_storeBytes, List.append_assoc] at hbuf
      rw [delivered, List.take_append, List.drop_append,
        List.take_of_length_le hle, List.drop_of_length_le hle, List.length_append]
      refine ⟨by omega, ?_, hpipe⟩
      rw [← hbuf]
      congr 1
      omega

/-- `Rio_readn` reads as many bytes as there are, up to `n`. -/
theorem rioReadn_spec {pipe pipe' : List Delivery} {buf buf' : Buffer}
    {bufp n got : ℕ} (h : rioReadn pipe buf bufp n = (buf', got, pipe')) :
    got = min n (delivered pipe).length ∧
      firstBytes buf' (bufp + got) =
        firstBytes buf bufp ++ (delivered pipe).take n ∧
      delivered pipe' = (delivered pipe).drop n := by
  obtain ⟨buf₁, nleft, pipe₁, hloop⟩ : ∃ buf₁ nleft pipe₁,
      readnLoop pipe buf bufp n = (buf₁, nleft, pipe₁) := ⟨_, _, _, rfl⟩
  rw [rioReadn, hloop] at h
  obtain ⟨rfl, hrest⟩ := Prod.mk.inj h
  obtain ⟨rfl, rfl⟩ := Prod.mk.inj hrest
  obtain ⟨hleft, hbuf, hpipe⟩ := readnLoop_spec hloop
  exact ⟨by omega, hbuf, hpipe⟩

/-! ## `requestPrepareDynamic` -/

/-- The `while` loop of `requestPrepareDynamic`; `body` holds `MAXBUF` bytes. -/
def readOutput (pipe : List Delivery) (body : Buffer) (totalRead : ℕ) :
    Buffer × ℕ × List Delivery :=
  match _h : rioReadn pipe body totalRead (maxBuf - totalRead) with
  | (body, n, pipe) =>
      if _hn : 0 < n then readOutput pipe body (totalRead + n)
      else (body, totalRead, pipe)
termination_by maxBuf - totalRead
decreasing_by
  have hle : n ≤ maxBuf - totalRead := (rioReadn_spec _h).1 ▸ Nat.min_le_left _ _
  omega

/-- `WaitPid`: the program ends when the bytes that nobody reads fit into the pipe,
which holds `capacity` bytes. -/
def programEnds (capacity : ℕ) (pipe : List Delivery) : Bool :=
  (delivered pipe).length ≤ capacity

/-- `requestPrepareDynamic` with what its reads from the pipe bring, if there is a
pipe: the buffer and `*out_len`.  It is undefined where the server ends itself,
which it does when it has to read into a `NULL` buffer, and where it waits forever. -/
def Piped.requestPrepareDynamic (host : Host) (capacity : ℕ)
    (pipe : Option (List Delivery)) : Option (Option Buffer × ℕ) :=
  match pipe with
  | none => some (none, 0)
  | some pipe =>
      if host.malloc maxBuf then
        match readOutput pipe host.stale 0 with
        | (body, totalRead, rest) =>
            if programEnds capacity rest then some (some body, totalRead) else none
      else if delivered pipe = [] then some (none, 0)
      else none

theorem readOutput_eq {pipe pipe₁ : List Delivery} {body body₁ : Buffer}
    {totalRead n : ℕ}
    (h : rioReadn pipe body totalRead (maxBuf - totalRead) = (body₁, n, pipe₁)) :
    readOutput pipe body totalRead =
      if 0 < n then readOutput pipe₁ body₁ (totalRead + n)
      else (body₁, totalRead, pipe₁) := by
  rw [readOutput]
  split
  next body₂ n₂ pipe₂ h₂ =>
  rw [h] at h₂
  obtain ⟨rfl, hrest⟩ := Prod.mk.inj h₂
  obtain ⟨rfl, rfl⟩ := Prod.mk.inj hrest
  rw [dite_eq_ite]

/-- The loop reads until the buffer is full or the output is at its end. -/
theorem readOutput_spec {pipe rest : List Delivery} {body body' : Buffer}
    {totalRead len : ℕ} (h : readOutput pipe body totalRead = (body', len, rest)) :
    firstBytes body' len = firstBytes body totalRead ++
        (delivered pipe).take (maxBuf - totalRead) ∧
      delivered rest = (delivered pipe).drop (maxBuf - totalRead) := by
  generalize hroom : maxBuf - totalRead = room at *
  induction room using Nat.strong_induction_on generalizing pipe body totalRead with
  | h room ih =>
      obtain ⟨body₁, n, pipe₁, hread⟩ : ∃ body₁ n pipe₁,
          rioReadn pipe body totalRead room = (body₁, n, pipe₁) := ⟨_, _, _, rfl⟩
      obtain ⟨hgot, hbuf, hpipe⟩ := rioReadn_spec hread
      rw [readOutput_eq (hroom ▸ hread)] at h
      split at h
      · next hn =>
        obtain ⟨hbody, hrest⟩ := ih (room - n) (by omega) h (by omega)
        rw [hpipe] at hbody hrest
        rw [List.drop_drop] at hrest
        -- After a first success there is no room left, or there are no bytes left.
        rcases Nat.le_total room (delivered pipe).length with hfull | hend
        · rw [Nat.min_eq_left hfull] at hgot
          rw [hgot, Nat.sub_self, List.take_zero, List.append_nil] at hbody
          rw [hgot, Nat.sub_self, Nat.add_zero] at hrest
          exact ⟨hbody.trans (hgot ▸ hbuf), hrest⟩
        · rw [List.drop_of_length_le hend, List.take_nil, List.append_nil] at hbody
          rw [List.drop_of_length_le (hend.trans (Nat.le_add_right _ _))] at hrest
          rw [List.drop_of_length_le hend]
          exact ⟨hbody.trans hbuf, hrest⟩
      · next hn =>
        obtain ⟨rfl, hpair⟩ := Prod.mk.inj h
        obtain ⟨rfl, rfl⟩ := Prod.mk.inj hpair
        rw [Nat.eq_zero_of_not_pos hn, Nat.add_zero] at hbuf
        exact ⟨hbuf, hpipe⟩

/-- The buffer ends up with the first `MAXBUF` bytes of the output. -/
theorem readOutput_start {pipe rest : List Delivery} {stale body : Buffer} {len : ℕ}
    (h : readOutput pipe stale 0 = (body, len, rest)) :
    firstBytes body len = (delivered pipe).take maxBuf ∧
      delivered rest = (delivered pipe).drop maxBuf := by
  exact readOutput_spec h

/-- What the rest of the server sees of the pipe. -/
theorem Piped.requestPrepareDynamic_refines {host : Host} {capacity : ℕ}
    {filename cgiargs : Text} {pipe : List Delivery} {body : Option Buffer} {len : ℕ}
    (hcgi : host.cgi filename cgiargs = .output (delivered pipe))
    (h : Piped.requestPrepareDynamic host capacity (some pipe) = some (body, len)) :
    Server.requestPrepareDynamic host filename cgiargs =
      some (body.map (firstBytes · len), (len : ℤ)) := by
  rw [Piped.requestPrepareDynamic] at h
  rw [Server.requestPrepareDynamic, hcgi]
  dsimp only at h ⊢
  split at h
  · next hmalloc =>
    rw [if_pos hmalloc]
    obtain ⟨body₁, len₁, rest, hread⟩ : ∃ body₁ len₁ rest,
        readOutput pipe host.stale 0 = (body₁, len₁, rest) := ⟨_, _, _, rfl⟩
    rw [hread] at h
    dsimp only at h
    obtain ⟨hbody, -⟩ := readOutput_start hread
    split at h
    · obtain ⟨rfl, rfl⟩ := Prod.mk.inj (Option.some.inj h)
      rw [← hbody, length_firstBytes]
      rfl
    · cases h
  · next hmalloc =>
    rw [if_neg hmalloc]
    split at h
    · next hempty =>
      obtain ⟨rfl, rfl⟩ := Prod.mk.inj (Option.some.inj h)
      rw [if_pos hempty]
      rfl
    · cases h

/-- `requestPrepareDynamic` returns a buffer whose first `*out_len` bytes are what
the program wrote. -/
def DeliversWhole (host : Host) (capacity : ℕ) (pipe : List Delivery) : Prop :=
  ∃ body len, Piped.requestPrepareDynamic host capacity (some pipe) =
    some (some body, len) ∧ firstBytes body len = delivered pipe

theorem deliversWhole_iff {host : Host} {capacity : ℕ} {pipe : List Delivery} :
    DeliversWhole host capacity pipe ↔
      host.malloc maxBuf = true ∧ (delivered pipe).length ≤ maxBuf := by
  obtain ⟨body, len, rest, hread⟩ : ∃ body len rest,
      readOutput pipe host.stale 0 = (body, len, rest) := ⟨_, _, _, rfl⟩
  obtain ⟨hbody, hrest⟩ := readOutput_start hread
  rw [DeliversWhole, Piped.requestPrepareDynamic]
  constructor
  · rintro ⟨body', len', h, hwhole⟩
    dsimp only at h
    split at h
    · next hmalloc =>
      rw [hread] at h
      dsimp only at h
      split at h
      · obtain ⟨hbody', rfl⟩ := Prod.mk.inj (Option.some.inj h)
        rw [← Option.some.inj hbody', hbody] at hwhole
        have hlen := congrArg List.length hwhole
        rw [List.length_take] at hlen
        exact ⟨hmalloc, by omega⟩
      · cases h
    · split at h
      · cases h
      · cases h
  · rintro ⟨hmalloc, hle⟩
    have hends : programEnds capacity rest = true := by
      rw [programEnds, hrest, List.drop_of_length_le hle]
      simp
    refine ⟨body, len, ?_, by rw [hbody, List.take_of_length_le hle]⟩
    dsimp only
    rw [if_pos hmalloc, hread]
    dsimp only
    rw [if_pos hends]

/-- However the output of a CGI program arrives, it is delivered whole exactly when
it fits into the buffer of `MAXBUF` bytes, and there is one. -/
theorem cgi_output_whole_iff (host : Host) (capacity : ℕ) (pipe : List Delivery) :
    DeliversWhole host capacity pipe ↔
      host.malloc maxBuf = true ∧ (delivered pipe).length ≤ maxBuf :=
  deliversWhole_iff

/-- One byte more than the buffer holds. -/
def longOutput : List Delivery :=
  [.bytes (List.replicate maxBuf 'x') (by decide) (by rw [List.length_replicate]; decide),
    .bytes ['x'] (by decide) (by decide)]

theorem longOutput_not_whole :
    ¬ ∃ host capacity, DeliversWhole host capacity longOutput := by
  rintro ⟨host, capacity, hwhole⟩
  have hlen : (delivered longOutput).length = maxBuf + 1 := by
    simp [longOutput, delivered]
  have hle := (deliversWhole_iff.mp hwhole).2
  omega

end OsCoursework.Server
