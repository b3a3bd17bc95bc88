import OsCoursework.Shell.Numbers
import OsCoursework.Support.CString
import OsCoursework.Support.Pieces

/-!
# The user of the shell

`whoami` looks for a line in two files.  Each file is read into a buffer by one `read`,
and the buffer is then taken apart in place: `strtok` cuts off the lines, and `strchr`
finds the colons that end the fields of a line.  The calls on the descriptors are those
of `findInFile`; here the texts are followed.
-/

namespace OsCoursework.Shell

open OsCoursework.CString OsCoursework.Delimiter OsCoursework.Pieces OsCoursework.Words

/-! ## The two files -/

/-- `strtoul(str, nullptr, 10)`: `ULONG_MAX` for what is too large, 0 without digits. -/
def strtoul (str : Text) : UInt64 :=
  let str := str.dropWhile isSpace
  let (negative, digits) : Bool × Text :=
    match str with
    | '-' :: rest => (true, rest)
    | '+' :: rest => (false, rest)
    | _ => (false, str)
  let value := Nat.ofDigitChars 10 (digits.takeWhile Char.isDigit) 0
  if 2 ^ 64 ≤ value then UInt64.ofNat (2 ^ 64 - 1)
  else if negative = true then -UInt64.ofNat value else UInt64.ofNat value

/-- What `get_name_gid_and_dir` stores. -/
structure PwEntry where
  name : Text
  gid : UInt32
  dir : Text
  deriving DecidableEq

/-- The buffer after one `read` that returns all that there is room for. -/
def readBuffer (content : Text) : Text :=
  content.take (maxBuffSize - 1) ++ [nul]

/-- The loop over the lines from position `p` on, with what is done for a line.  It
returns `none` when the rounds run out. -/
def lineLoop {β : Type} (body : Text → ℕ → Text × Option β) :
    ℕ → Text → ℕ → Option (Option β)
  | 0, _, _ => none
  | rounds + 1, buf, p =>
      match strtok nul '\n' buf p with
      | none => some none
      | some (line, buf, next) =>
          match body buf line with
          | (_, some found) => some (some found)
          | (buf, none) => lineLoop body rounds buf next

/-- The line `Uid:` in `get_uid`. -/
def uidLine (buf : Text) (line : ℕ) : Text × Option UInt32 :=
  let text := stringAt nul buf line
  if text.take 4 = "Uid:".toList then
    let p := (text.drop 4).dropWhile fun c => c = ' ' || c = '\t'
    (buf, some (strtoul p).toUInt32)
  else (buf, none)

/-- The loop over the colons of a line, while there is room for `room` more fields. -/
def fieldLoop : ℕ → Text → ℕ → List ℕ → Text × List ℕ
  | 0, buf, _, fields => (buf, fields)
  | room + 1, buf, p, fields =>
      match strchr nul buf p ':' with
      | none => (buf, fields)
      | some colon =>
          fieldLoop room (buf.set colon nul) (colon + 1) (fields ++ [colon + 1])

/-- The test of the fields of a line; there must be six. -/
def checkFields (uid : UInt32) : List Text → Option PwEntry
  | name :: _ :: fileUid :: gid :: _ :: dir :: _ =>
      if (strtoul fileUid).toUInt32 = uid then some ⟨name, (strtoul gid).toUInt32, dir⟩
      else none
  | _ => none

/-- A line in `get_name_gid_and_dir`. -/
def passwdLine (uid : UInt32) (buf : Text) (line : ℕ) : Text × Option PwEntry :=
  let (buf, fields) := fieldLoop 6 buf line [line]
  (buf, checkFields uid (fields.map (stringAt nul buf)))

/-- `get_uid` on the text of the file. -/
def getUid (status : Text) : Option (Option UInt32) :=
  let buf := readBuffer status
  lineLoop uidLine buf.length buf 0

/-- `get_name_gid_and_dir` on the text of the file. -/
def getNameGidAndDir (uid : UInt32) (passwd : Text) : Option (Option PwEntry) :=
  let buf := readBuffer passwd
  lineLoop (passwdLine uid) buf.length buf 0

/-- What `whoami` prints. -/
def whoAmI (status passwd : Text) : Option Text := do
  let uid ← (← getUid status)
  let entry ← (← getNameGidAndDir uid passwd)
  pure (entry.name ++ '\n' :: decimal uid.toNat ++ '\n' :: decimal entry.gid.toNat ++
    '\n' :: entry.dir ++ ['\n'])

/-! ## The fields of a line -/

variable {buf : Text} {p : ℕ} {s : Text}

/-- The fields are the pieces of the line, and nothing outside of it is written. -/
theorem fieldLoop_spec {room : ℕ} (fields : List ℕ) (h : Stands nul buf p s) :
    ∃ buf' more, fieldLoop room buf p fields = (buf', fields ++ more) ∧
      (p :: more).map (stringAt nul buf') = firstPieces ':' room s ∧
      ∀ i, i < p ∨ p + s.length ≤ i → buf'[i]? = buf[i]? := by
  induction room generalizing buf p s fields with
  | zero =>
      refine ⟨buf, [], ?_, ?_, fun _ _ => rfl⟩
      · rw [fieldLoop, List.append_nil]
      · rw [List.map_singleton, h.stringAt, firstPieces]
  | succ room ih =>
      by_cases hcolon : ':' ∈ s
      swap
      · refine ⟨buf, [], ?_, ?_, fun _ _ => rfl⟩
        · rw [fieldLoop, h.strchr_eq_none hcolon, List.append_nil]
        · rw [List.map_singleton, h.stringAt, firstPieces_single _ hcolon]
      obtain ⟨front, rest, rfl, hfront⟩ := List.eq_append_cons_of_mem hcolon
      obtain ⟨hfirst, hrest⟩ := h.cut
      obtain ⟨buf', more, hloop, hmore, hframe⟩ :=
        ih (fields ++ [p + front.length + 1]) hrest
      -- The first field ends in front of the bytes that are written from now on.
      have hkeep : Stands nul buf' p front :=
        hfirst.congr fun i _ hi => hframe i (Or.inl (Nat.lt_succ_of_le hi))
      refine ⟨buf', (p + front.length + 1) :: more, ?_, ?_, ?_⟩
      · rw [fieldLoop, h.strchr_eq_some hfront]
        dsimp only
        rw [hloop, List.append_assoc, List.singleton_append]
      · rw [List.map_cons, hkeep.stringAt, hmore, firstPieces_cons room hfront]
      · intro i hi
        rw [List.length_append, List.length_cons] at hi
        rw [hframe i (by omega), List.getElem?_set_ne (by omega)]

/-- The test looks at the first six fields only. -/
theorem checkFields_take (uid : UInt32) (fields : List Text) :
    checkFields uid (fields.take 6) = checkFields uid fields := by
  rcases fields with - | ⟨_, - | ⟨_, - | ⟨_, - | ⟨_, - | ⟨_, - | ⟨_, _⟩⟩⟩⟩⟩⟩ <;> rfl

/-- The entry of a line, with all of its fields. -/
def entryOf (uid : UInt32) (line : Text) : Option PwEntry :=
  checkFields uid (line.splitOn ':')

theorem passwdLine_spec (uid : UInt32) (h : Stands nul buf p s) :
    ∃ buf', passwdLine uid buf p = (buf', entryOf uid s) ∧
      ∀ i, p + s.length ≤ i → buf'[i]? = buf[i]? := by
  obtain ⟨buf', more, hloop, hmore, hframe⟩ := @fieldLoop_spec buf p s 6 [p] h
  refine ⟨buf', ?_, fun i hi => hframe i (Or.inr hi)⟩
  rw [passwdLine, hloop]
  dsimp only
  rw [List.singleton_append, hmore, entryOf, ← checkFields_take, take_firstPieces,
    checkFields_take]

/-! ## The lines of a file -/

/-- Enough rounds bring the loop to the first line with a result.  The body may write into
its line, and not behind it. -/
theorem lineLoop_eq {β : Type} {body : Text → ℕ → Text × Option β} {f : Text → Option β}
    (hbody : ∀ {buf line s}, Stands nul buf line s → ∃ buf', body buf line = (buf', f s) ∧
      ∀ i, line + s.length ≤ i → buf'[i]? = buf[i]?) {rounds : ℕ}
    (h : Stands nul buf p s) (hrounds : s.length < rounds) :
    lineLoop body rounds buf p = some ((words (· == '\n') s).findSome? f) := by
  induction rounds generalizing buf p s with
  | zero => exact absurd hrounds (Nat.not_lt_zero _)
  | succ rounds ih =>
      by_cases hblank : Blank (· == '\n') s
      · rw [lineLoop, h.strtok_eq_none hblank, words_eq_nil hblank]
        rfl
      obtain ⟨line, cut, next, rest, hstrtok, hline, hrest, hnext, hwords, hlen⟩ :=
        h.strtok_eq_some hblank
      obtain ⟨buf', hrun, hframe⟩ := hbody hline
      rw [lineLoop, hstrtok]
      dsimp only
      rw [hrun, words_eq_cons hblank, List.findSome?_cons]
      cases f (word (· == '\n') s) with
      | some found => rfl
      | none =>
          -- What the next round starts from has not been written.
          have hkeep : Stands nul buf' next rest :=
            hrest.congr fun i hi _ => hframe i (hnext.trans hi)
          rw [← hwords]
          exact ih hkeep (by omega)

/-- The text that the parser gets to see: up to the first NUL of what fits the buffer. -/
def visible (content : Text) : Text :=
  (content.take (maxBuffSize - 1)).takeWhile (· ≠ nul)

theorem stands_readBuffer (content : Text) :
    Stands nul (readBuffer content) 0 (visible content) := by
  have hmark : nul ∉ visible content := fun hmem => by
    simpa using List.mem_takeWhile_imp hmem
  rw [readBuffer, visible]
  by_cases hnul : nul ∈ content.take (maxBuffSize - 1)
  · obtain ⟨front, rest, heq, hfront⟩ := List.eq_append_cons_of_mem hnul
    rw [visible] at hmark
    rw [heq, takeWhile_append_cons hfront, List.append_assoc]
    exact stands_append hfront _
  · rw [takeWhile_eq_self hnul]
    exact stands_append hnul []

theorem lineLoop_readBuffer {β : Type} {body : Text → ℕ → Text × Option β}
    {f : Text → Option β}
    (hbody : ∀ {buf line s}, Stands nul buf line s → ∃ buf', body buf line = (buf', f s) ∧
      ∀ i, line + s.length ≤ i → buf'[i]? = buf[i]?) (hnil : f [] = none)
    (content : Text) :
    lineLoop body (readBuffer content).length (readBuffer content) 0 =
      some (((visible content).splitOn '\n').findSome? f) := by
  have hlen : (visible content).length < (readBuffer content).length := by
    have hle := (List.takeWhile_prefix (l := content.take (maxBuffSize - 1))
      fun c => decide (c ≠ nul)).length_le
    rw [readBuffer, List.length_append, List.length_singleton]
    exact Nat.lt_succ_of_le hle
  rw [lineLoop_eq hbody (stands_readBuffer content) hlen, findSome?_words hnil,
    List.splitOn_eq_splitOnP]

/-- `get_name_gid_and_dir` goes through the lines that it gets to see. -/
theorem getNameGidAndDir_eq (uid : UInt32) (passwd : Text) :
    getNameGidAndDir uid passwd =
      some (((visible passwd).splitOn '\n').findSome? (entryOf uid)) :=
  lineLoop_readBuffer (passwdLine_spec uid) rfl passwd

/-- The number of a line `Uid:`. -/
def uidOf (line : Text) : Option UInt32 :=
  if line.take 4 = "Uid:".toList then
    some (strtoul ((line.drop 4).dropWhile fun c => c = ' ' || c = '\t')).toUInt32
  else none

theorem getUid_eq (status : Text) :
    getUid status = some (((visible status).splitOn '\n').findSome? uidOf) := by
  apply lineLoop_readBuffer ?_ rfl
  intro buf line s h
  refine ⟨buf, ?_, fun _ _ => rfl⟩
  rw [uidLine, h.stringAt, uidOf]
  split
  · rfl
  · rfl

/-- What is printed comes from the first line `Uid:` and the first line of the other file
that passes the test. -/
theorem whoAmI_eq (status passwd : Text) :
    whoAmI status passwd = (do
      let uid ← ((visible status).splitOn '\n').findSome? uidOf
      let entry ← ((visible passwd).splitOn '\n').findSome? (entryOf uid)
      pure (entry.name ++ '\n' :: decimal uid.toNat ++ '\n' :: decimal entry.gid.toNat ++
        '\n' :: entry.dir ++ ['\n'])) := by
  simp only [whoAmI, getUid_eq, getNameGidAndDir_eq]
  rfl

end OsCoursework.Shell
