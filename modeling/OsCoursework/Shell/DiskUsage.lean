import Mathlib.Algebra.Order.Floor.Div
import Mathlib.GroupTheory.GroupAction.Ring
import OsCoursework.Shell.DirectoryTree
import OsCoursework.Shell.Jobs

/-!
# Disk usage

`getDirSize` and `DiskUsageCommand`, down to the bytes of the buffers that
`getdents64` fills.  The directory that is added up and the order in which its names
come are those of `DirectoryTree`; `Files` follows the same calls for the sake of
their descriptors only.
-/

namespace OsCoursework.Shell.DiskUsage

open OsCoursework.Calls OsCoursework.Delimiter

/-! ## The program -/

/-- The calls of `du`. -/
inductive TreeCall where
  | undefined
  | openDir (path : Text)
  | getdents64 (fd : ℕ)
  | lstat (path : Text)
  | close (fd : ℕ)
  | print (o : Output)

/-- The answers; `none` and `false` are -1. -/
@[reducible] def TreeCall.Answer : TreeCall → Type
  | .undefined => Empty
  | .openDir _ => Option ℕ
  | .getdents64 _ => Option Text
  | .lstat _ => Option Stat
  | .close _ => Bool
  | .print _ => Unit

abbrev TreeM := Prog TreeCall TreeCall.Answer

def treeCall (o : TreeCall) : TreeM o.Answer :=
  Prog.perform o

def undefined {α : Type} : TreeM α :=
  .call .undefined nofun

def perror (text : String) : TreeM Unit :=
  treeCall (.print (.cerr text.toList))

/-- `d_reclen` and `d_name` of the record at the front. -/
def readRecord (buf : Text) : Option (ℕ × Text) :=
  match buf.drop 16 with
  | low :: high :: _ :: rest =>
      if nul ∈ rest then
        some (low.toNat + 256 * high.toNat, rest.takeWhile (· ≠ nul))
      else none
  | _ => none

/-- What is done with a record. -/
def addEntry (getDirSize : Text → TreeM ℕ) (path name : Text) (totalAllocatedBytes : ℕ) :
    TreeM ℕ :=
  if name = ".".toList ∨ name = "..".toList then pure totalAllocatedBytes
  else do
    let fullPath := join path name
    match ← treeCall (.lstat fullPath) with
    | none => do
        perror "smash error: lstat failed"
        pure totalAllocatedBytes
    | some st =>
        if st.isDir then do
          let size ← getDirSize fullPath
          pure ((totalAllocatedBytes + size) % 2 ^ 64)
        else pure ((totalAllocatedBytes + st.blocks * 512) % 2 ^ 64)

/-- The loop over the records; `buf` is what the buffer holds from `bpos` on.  Undefined
where a record is read beyond these bytes, and for a record of length 0, where the loop
does not end. -/
def recordLoop (getDirSize : Text → TreeM ℕ) (path buf : Text)
    (totalAllocatedBytes : ℕ) : TreeM ℕ :=
  if buf = [] then pure totalAllocatedBytes
  else
    match readRecord buf with
    | none => undefined
    | some (reclen, name) =>
        if 0 < reclen then do
          let total ← addEntry getDirSize path name totalAllocatedBytes
          recordLoop getDirSize path (buf.drop reclen) total
        else undefined
termination_by buf.length
decreasing_by
  have hlen := List.length_pos_of_ne_nil ‹¬ buf = []›
  rw [List.length_drop]
  omega

/-- The loop over the buffers. -/
def dirLoop (getDirSize : Text → TreeM ℕ) (path : Text) (fd : ℕ) : ℕ → ℕ → TreeM ℕ
  | 0, _ => undefined
  | rounds + 1, totalAllocatedBytes => do
      match ← treeCall (.getdents64 fd) with
      | none => do
          perror "smash error: getdents64 failed"
          pure totalAllocatedBytes
      | some [] => pure totalAllocatedBytes
      | some buf => do
          let total ← recordLoop getDirSize path buf totalAllocatedBytes
          dirLoop getDirSize path fd rounds total

def getDirSize : ℕ → Text → TreeM ℕ
  | 0, _ => undefined
  | depth + 1, path => do
      match ← treeCall (.openDir path) with
      | none => do
          perror "smash error: open failed"
          pure 0
      | some fd => do
          let total ← dirLoop (getDirSize depth) path fd depth 0
          let _ ← treeCall (.close fd)
          pure total

def usage (totalKB : ℕ) : Output :=
  .cout ("Total disk usage: ".toList ++ decimal totalKB ++ " KB".toList)

/-- `DiskUsageCommand::execute`. -/
def diskUsageExecute (depth : ℕ) (args : List Text) : TreeM Unit :=
  if args[1]? ≠ none ∧ args[2]? ≠ none then
    treeCall (.print (.cerr "smash error: du: too many arguments".toList))
  else do
    let totalBytes ← getDirSize depth (args[1]?.getD ".".toList)
    treeCall (.print (usage ((totalBytes + 1023) % 2 ^ 64 / 1024)))

/-! ## The system -/

/-- The buffers that an open directory still has, and what was printed. -/
structure TreeState where
  streams : ℕ → Option (List Text)
  printed : List Output
  spare : ∃ n, ∀ fd ≥ n, streams fd = none

namespace TreeState

def set (s : TreeState) (fd : ℕ) (bufs : Option (List Text)) : TreeState where
  streams := Function.update s.streams fd bufs
  printed := s.printed
  spare := by
    obtain ⟨n, hn⟩ := s.spare
    refine ⟨max n (fd + 1), fun fd' hge => ?_⟩
    have hne : fd' ≠ fd := by omega
    rw [Function.update_of_ne hne]
    exact hn fd' (by omega)

def print (s : TreeState) (o : Output) : TreeState :=
  { s with printed := s.printed ++ [o] }

end TreeState

def TreeStep (fs : FileSystem) (s : TreeState) :
    (o : TreeCall) → o.Answer → TreeState → Prop
  | .undefined => fun _ _ => False
  | .openDir path => fun x s' =>
      match fs.lookup path with
      | some (.dir entries) => ∃ fd bufs, s.streams fd = none ∧ Lists entries bufs ∧
          x = some fd ∧ s' = s.set fd (some bufs)
      | _ => x = none ∧ s' = s
  | .getdents64 fd => fun x s' =>
      match s.streams fd with
      | none => x = none ∧ s' = s
      | some [] => x = some [] ∧ s' = s
      | some (buf :: bufs) => x = some buf ∧ s' = s.set fd (some bufs)
  | .lstat path => fun x s' => s' = s ∧
      match fs.lookup path with
      | none => x = none
      | some tree => ∃ st, x = some st ∧ tree.HasStat st
  | .close fd => fun x s' => x = (s.streams fd).isSome ∧ s' = s.set fd none
  | .print o => fun _ s' => s' = s.print o

namespace TreeState

variable {s : TreeState} {fd : ℕ}

theorem set_set (bufs bufs' : Option (List Text)) :
    (s.set fd bufs).set fd bufs' = s.set fd bufs' := by
  simp only [set, Function.update_idem]

theorem set_same {bufs : Option (List Text)} (h : s.streams fd = bufs) :
    s.set fd bufs = s := by
  simp only [set, ← h, Function.update_eq_self]

theorem set_streams (bufs : Option (List Text)) : (s.set fd bufs).streams fd = bufs := by
  change Function.update s.streams fd bufs fd = bufs
  rw [Function.update_self]

end TreeState

variable {fs : FileSystem} {visit : Text → TreeM ℕ} {path name : Text} {s : TreeState}

section Rules

variable {α : Type} {Q : α → TreeState → Prop} {fd : ℕ} {entries : List (Text × Tree)}

theorem openDir_ends {f : Option ℕ → TreeM α}
    (hpath : fs.lookup path = some (.dir entries))
    (h : ∀ fd bufs, s.streams fd = none → Lists entries bufs →
      Ends (TreeStep fs) (f (some fd)) (s.set fd (some bufs)) Q) :
    Ends (TreeStep fs) (treeCall (.openDir path) >>= f) s Q := by
  apply Ends.call
  · obtain ⟨n, hn⟩ := s.spare
    obtain ⟨bufs, hbufs⟩ := exists_lists (fs.proper path entries hpath)
    refine ⟨some n, s.set n (some bufs), ?_⟩
    rw [TreeStep, hpath]
    exact ⟨n, bufs, hn n (Nat.le_refl n), hbufs, rfl, rfl⟩
  · intro x s' hstep
    rw [TreeStep, hpath] at hstep
    obtain ⟨fd, bufs, hfd, hbufs, rfl, rfl⟩ := hstep
    exact h fd bufs hfd hbufs

/-- The last call for a directory. -/
theorem getdents64_ends_nil {f : Option Text → TreeM α} (hstream : s.streams fd = some [])
    (h : Ends (TreeStep fs) (f (some [])) s Q) :
    Ends (TreeStep fs) (treeCall (.getdents64 fd) >>= f) s Q := by
  apply Ends.call
  · refine ⟨some [], s, ?_⟩
    rw [TreeStep, hstream]
    exact ⟨rfl, rfl⟩
  · intro x s' hstep
    rw [TreeStep, hstream] at hstep
    obtain ⟨rfl, rfl⟩ := hstep
    exact h

theorem getdents64_ends_cons {f : Option Text → TreeM α} {buf : Text} {bufs : List Text}
    (hstream : s.streams fd = some (buf :: bufs))
    (h : Ends (TreeStep fs) (f (some buf)) (s.set fd (some bufs)) Q) :
    Ends (TreeStep fs) (treeCall (.getdents64 fd) >>= f) s Q := by
  apply Ends.call
  · refine ⟨some buf, s.set fd (some bufs), ?_⟩
    rw [TreeStep, hstream]
    exact ⟨rfl, rfl⟩
  · intro x s' hstep
    rw [TreeStep, hstream] at hstep
    obtain ⟨rfl, rfl⟩ := hstep
    exact h

theorem lstat_ends {f : Option Stat → TreeM α} {tree : Tree}
    (htree : fs.lookup path = some tree)
    (h : ∀ st, tree.HasStat st → Ends (TreeStep fs) (f (some st)) s Q) :
    Ends (TreeStep fs) (treeCall (.lstat path) >>= f) s Q := by
  apply Ends.call
  · obtain ⟨st, hst⟩ := exists_stat tree
    refine ⟨some st, s, rfl, ?_⟩
    rw [htree]
    exact ⟨st, rfl, hst⟩
  · rintro x s' ⟨rfl, hx⟩
    rw [htree] at hx
    obtain ⟨st, rfl, hst⟩ := hx
    exact h st hst

theorem close_ends {f : Bool → TreeM α}
    (h : ∀ ok, Ends (TreeStep fs) (f ok) (s.set fd none) Q) :
    Ends (TreeStep fs) (treeCall (.close fd) >>= f) s Q := by
  apply Ends.call
  · exact ⟨_, _, rfl, rfl⟩
  · rintro ok s' ⟨-, rfl⟩
    exact h ok

end Rules

/-! ## Reading a buffer -/

theorem charOfNat_toNat {n : ℕ} (hn : n < 256) : (Char.ofNat n).toNat = n := by
  have hvalid : n.isValidChar := Or.inl (by omega)
  rw [Char.ofNat, dif_pos hvalid]
  rfl

theorem readRecord_append (r : Record) (rest : Text) :
    readRecord (r.bytes ++ rest) = some (r.reclen, r.name) := by
  have hdrop : (r.bytes ++ rest).drop 16 =
      Char.ofNat (r.reclen % 256) :: Char.ofNat (r.reclen / 256) :: r.dType ::
        (r.name ++ nul :: (r.padding ++ rest)) := by
    rw [Record.bytes, List.append_assoc, List.drop_append_of_le_length r.header_length.ge,
      List.drop_eq_nil_of_le r.header_length.le]
    simp
  have hmem : nul ∈ r.name ++ nul :: (r.padding ++ rest) :=
    List.mem_append_right _ List.mem_cons_self
  have hfits := r.fits
  have hhigh : r.reclen / 256 < 256 := by
    rw [Record.reclen]
    omega
  have hlen : r.reclen % 256 + 256 * (r.reclen / 256) = r.reclen := Nat.mod_add_div _ _
  rw [readRecord, hdrop]
  dsimp only
  rw [if_pos hmem, charOfNat_toNat (Nat.mod_lt _ (by decide)), charOfNat_toNat hhigh, hlen,
    takeWhile_append_cons r.no_nul]

/-- The loop goes on behind the first record. -/
theorem recordLoop_append (r : Record) (rest : Text) (total : ℕ) :
    recordLoop visit path (r.bytes ++ rest) total =
      addEntry visit path r.name total >>= recordLoop visit path rest := by
  have hne : r.bytes ++ rest ≠ [] := by
    apply List.append_ne_nil_of_left_ne_nil
    apply List.ne_nil_of_length_pos
    rw [r.length_bytes]
    exact r.reclen_pos
  rw [recordLoop, if_neg hne, readRecord_append]
  dsimp only
  rw [if_pos r.reclen_pos, List.drop_append_of_le_length r.length_bytes.ge,
    List.drop_eq_nil_of_le r.length_bytes.le, List.nil_append]

/-! ## Adding up -/

/-- The total for so many blocks. -/
def allocated (blocks : ℕ) : ℕ :=
  512 * blocks % 2 ^ 64

theorem allocated_add (n m : ℕ) :
    (allocated n + allocated m) % 2 ^ 64 = allocated (n + m) := by
  simp only [allocated]
  omega

theorem allocated_add_mul (n m : ℕ) :
    (allocated n + m * 512) % 2 ^ 64 = allocated (n + m) := by
  simp only [allocated]
  omega

/-- The blocks that a name stands for. -/
def blocksAt (fs : FileSystem) (path name : Text) : ℕ :=
  if name = ".".toList ∨ name = "..".toList then 0
  else ((fs.lookup (join path name)).map Tree.blocks).getD 0

/-- The call for a path, if it is a directory, adds up what is below it. -/
def AddsUp (fs : FileSystem) (visit : Text → TreeM ℕ) (path : Text) : Prop :=
  ∀ entries, fs.lookup path = some (.dir entries) →
    ∀ s, Ends (TreeStep fs) (visit path) s fun total s' =>
      total = allocated (blocksBelow entries) ∧ s' = s

/-- A name that can be found and whose directory, if it is one, is added up. -/
def Counted (fs : FileSystem) (visit : Text → TreeM ℕ) (path name : Text) : Prop :=
  name ∈ dots ∨ (∃ tree, fs.lookup (join path name) = some tree) ∧
    AddsUp fs visit (join path name)

theorem addEntry_ends (h : Counted fs visit path name) (n : ℕ) :
    Ends (TreeStep fs) (addEntry visit path name (allocated n)) s fun total s' =>
      total = allocated (n + blocksAt fs path name) ∧ s' = s := by
  rw [addEntry, blocksAt]
  by_cases hdots : name = ".".toList ∨ name = "..".toList
  · rw [if_pos hdots, if_pos hdots, Nat.add_zero]
    exact Ends.pure ⟨rfl, rfl⟩
  · obtain ⟨⟨tree, htree⟩, hvisit⟩ := h.resolve_left (mem_dots.not.mpr hdots)
    rw [if_neg hdots, if_neg hdots, htree]
    apply lstat_ends htree
    intro st hst
    dsimp only
    cases tree with
    | file blocks =>
        obtain ⟨hfile, rfl⟩ := hst
        rw [if_neg (Bool.eq_false_iff.mp hfile)]
        exact Ends.pure ⟨allocated_add_mul n _, rfl⟩
    | dir entries =>
        have hdir : st.isDir = true := hst
        rw [if_pos hdir]
        refine Ends.seq (hvisit entries htree s) ?_
        rintro size s' ⟨rfl, rfl⟩
        exact Ends.pure ⟨allocated_add n _, rfl⟩

/-- The loop over a buffer of whole records. -/
theorem recordLoop_ends {records : List Record}
    (h : ∀ r ∈ records, Counted fs visit path r.name) (n : ℕ) :
    Ends (TreeStep fs) (recordLoop visit path (encode records) (allocated n)) s
      fun total s' =>
        total = allocated (n + ((records.map Record.name).map (blocksAt fs path)).sum) ∧
          s' = s := by
  induction records generalizing n s with
  | nil =>
      rw [encode, recordLoop]
      exact Ends.pure ⟨rfl, rfl⟩
  | cons r records ih =>
      have hencode : encode (r :: records) = r.bytes ++ encode records := rfl
      rw [hencode, recordLoop_append]
      refine Ends.seq (addEntry_ends (h r List.mem_cons_self) n) ?_
      rintro total s' ⟨rfl, rfl⟩
      refine (ih (fun r' hr' => h r' (List.mem_cons_of_mem r hr')) _).mono ?_
      rintro total s'' ⟨rfl, rfl⟩
      rw [List.map_cons, List.map_cons, List.sum_cons, Nat.add_assoc]
      exact ⟨rfl, rfl⟩

theorem encode_ne_nil {records : List Record} (h : records ≠ []) :
    encode records ≠ [] := by
  obtain ⟨r, rest, rfl⟩ := List.exists_cons_of_ne_nil h
  have hlen := r.reclen_pos
  rw [← r.length_bytes] at hlen
  exact List.append_ne_nil_of_left_ne_nil (List.ne_nil_of_length_pos hlen) _

/-- The loop over the buffers of a directory. -/
theorem dirLoop_ends {fd : ℕ} {records : List (List Record)}
    (hstream : s.streams fd = some (records.map encode))
    (hne : ∀ buf ∈ records, buf ≠ [])
    (h : ∀ r ∈ records.flatten, Counted fs visit path r.name) {rounds : ℕ}
    (hrounds : records.length < rounds) (n : ℕ) :
    Ends (TreeStep fs) (dirLoop visit path fd rounds (allocated n)) s fun total s' =>
      total = allocated (n +
        ((records.flatten.map Record.name).map (blocksAt fs path)).sum) ∧
        s' = s.set fd (some []) := by
  induction records generalizing n s rounds with
  | nil =>
      obtain ⟨rounds, rfl⟩ := Nat.exists_eq_succ_of_ne_zero (Nat.ne_of_gt hrounds)
      rw [dirLoop]
      apply getdents64_ends_nil hstream
      exact Ends.pure ⟨rfl, (TreeState.set_same hstream).symm⟩
  | cons buf records ih =>
      obtain ⟨rounds, rfl⟩ := Nat.exists_eq_succ_of_ne_zero (Nat.ne_zero_of_lt hrounds)
      have hbuf := encode_ne_nil (hne buf List.mem_cons_self)
      obtain ⟨c, rest, hcons⟩ := List.exists_cons_of_ne_nil hbuf
      rw [dirLoop]
      apply getdents64_ends_cons hstream
      rw [hcons]
      dsimp only
      rw [← hcons]
      have hfirst : ∀ r ∈ buf, Counted fs visit path r.name := fun r hr =>
        h r (List.mem_append_left _ hr)
      refine Ends.seq (recordLoop_ends hfirst n) ?_
      rintro total s' ⟨rfl, rfl⟩
      have hnext : (s.set fd (some (records.map encode))).streams fd =
          some (records.map encode) := TreeState.set_streams _
      have hrest := ih hnext (fun b hb => hne b (List.mem_cons_of_mem buf hb))
        (fun r hr => h r (List.mem_append_right _ hr)) (Nat.lt_of_succ_lt_succ hrounds)
        (n + ((buf.map Record.name).map (blocksAt fs path)).sum)
      refine hrest.mono ?_
      rintro total s' ⟨rfl, rfl⟩
      rw [TreeState.set_set, List.flatten_cons, List.map_append, List.map_append,
        List.sum_append, Nat.add_assoc]
      exact ⟨rfl, rfl⟩

/-! ## Directories -/

section Directory

variable {entries : List (Text × Tree)} {records : List (List Record)} {own : List Text}
  (hpath : fs.lookup path = some (.dir entries)) (hown : own.Sublist dots)
  (hperm : (records.flatten.map Record.name).Perm (own ++ entries.map Prod.fst))

include hpath

theorem blocksAt_entry {entry : Text × Tree} (h : entry ∈ entries) :
    blocksAt fs path entry.1 = entry.2.blocks := by
  have hname := (fs.proper path entries hpath).names entry h
  rw [blocksAt, if_neg (mem_dots.not.mp hname.not_dots),
    fs.below path entries hpath entry h]
  rfl

include hown hperm

/-- Every name is counted once, wherever it stands. -/
theorem sum_blocksAt :
    ((records.flatten.map Record.name).map (blocksAt fs path)).sum =
      blocksBelow entries := by
  have hdots : (own.map (blocksAt fs path)).sum = 0 := by
    apply List.sum_eq_zero
    intro n hn
    obtain ⟨name, hname, rfl⟩ := List.mem_map.mp hn
    rw [blocksAt, if_pos (mem_dots.mp (hown.subset hname))]
  have hentries : (entries.map Prod.fst).map (blocksAt fs path) =
      entries.map fun entry => entry.2.blocks := by
    rw [List.map_map]
    apply List.map_congr_left
    intro entry hentry
    exact blocksAt_entry hpath hentry
  rw [(hperm.map (blocksAt fs path)).sum_eq, List.map_append, List.sum_append, hdots,
    Nat.zero_add, hentries, blocksBelow_eq]

theorem counted_of_mem (hvisit : ∀ entry ∈ entries, AddsUp fs visit (join path entry.1))
    {r : Record} (hr : r ∈ records.flatten) : Counted fs visit path r.name := by
  have hmem := hperm.mem_iff.mp (List.mem_map_of_mem hr)
  rcases List.mem_append.mp hmem with hdots | hentries
  · exact Or.inl (hown.subset hdots)
  · obtain ⟨entry, hentry, hname⟩ := List.mem_map.mp hentries
    rw [← hname]
    exact Or.inr ⟨⟨entry.2, fs.below path entries hpath entry hentry⟩, hvisit entry hentry⟩

omit hpath

/-- There are no more buffers than records. -/
theorem length_records (hne : ∀ buf ∈ records, buf ≠ []) :
    records.length ≤ entries.length + 2 := by
  have hle : records.length ≤ records.flatten.length := by
    rw [List.length_flatten]
    have hone : ∀ n ∈ records.map List.length, 1 ≤ n := by
      intro n hn
      obtain ⟨buf, hbuf, rfl⟩ := List.mem_map.mp hn
      exact List.length_pos_of_ne_nil (hne buf hbuf)
    have hsum := List.length_le_sum_of_one_le _ hone
    rwa [List.length_map] at hsum
  have hlen := hperm.length_eq
  have hdots := hown.length_le
  rw [List.length_map, List.length_append, List.length_map] at hlen
  have htwo : dots.length = 2 := rfl
  omega

end Directory

/-- Every run of `getDirSize` ends with the total, and leaves everything as it was. -/
theorem getDirSize_ends {depth : ℕ} {entries : List (Text × Tree)}
    (hpath : fs.lookup path = some (.dir entries)) (hdepth : needBelow entries < depth) :
    Ends (TreeStep fs) (getDirSize depth path) s fun total s' =>
      total = allocated (blocksBelow entries) ∧ s' = s := by
  induction depth generalizing path entries s with
  | zero => omega
  | succ depth ih =>
      rw [getDirSize]
      apply openDir_ends hpath
      rintro fd bufs hfd ⟨records, rfl, hbufs, own, hown, hperm⟩
      have hne : ∀ buf ∈ records, buf ≠ [] := fun buf hbuf => (hbufs buf hbuf).1
      have hvisit : ∀ entry ∈ entries,
          AddsUp fs (getDirSize depth) (join path entry.1) := by
        intro entry hentry entries' hlookup s'
        have hneed := need_le_of_mem hentry
        rw [fs.below path entries hpath entry hentry] at hlookup
        rw [Option.some.inj hlookup, Tree.need] at hneed
        exact ih (fs.below path entries hpath entry hentry ▸ hlookup) (by omega)
      have hcounted : ∀ r ∈ records.flatten, Counted fs (getDirSize depth) path r.name :=
        fun r hr => counted_of_mem hpath hown hperm hvisit hr
      have hrounds : records.length < depth := by
        have hlen := length_records hown hperm hne
        have hneed := length_le_need entries
        omega
      have hstream : (s.set fd (some (records.map encode))).streams fd =
          some (records.map encode) := TreeState.set_streams _
      refine Ends.seq (dirLoop_ends hstream hne hcounted hrounds 0) ?_
      rintro total s₂ ⟨rfl, rfl⟩
      apply close_ends
      intro ok
      rw [Nat.zero_add, sum_blocksAt hpath hown hperm, TreeState.set_set,
        TreeState.set_set, TreeState.set_same hfd]
      exact Ends.pure ⟨rfl, rfl⟩

/-! ## The printed figure -/

section Command

variable {args : List Text} {entries : List (Text × Tree)} {depth : ℕ}

/-- Whatever runs are made, the size is that of the whole tree, and the figure is this
size in units of 1024 bytes, rounded up. -/
def TellsUsage (fs : FileSystem) (depth : ℕ) (args : List Text)
    (entries : List (Text × Tree)) (s : TreeState) : Prop :=
  (Ends (TreeStep fs) (getDirSize depth (args[1]?.getD ".".toList)) s fun total s' =>
    total = 512 * blocksBelow entries % 2 ^ 64 ∧ s' = s) ∧
  Ends (TreeStep fs) (diskUsageExecute depth args) s fun _ s' =>
    s' = s.print (usage ((512 * blocksBelow entries % 2 ^ 64) ⌈/⌉ 1024))

/-- What is printed. -/
theorem diskUsageExecute_ends (hargs : args.length ≤ 2)
    (hpath : fs.lookup (args[1]?.getD ".".toList) = some (.dir entries))
    (hdepth : needBelow entries < depth) :
    Ends (TreeStep fs) (diskUsageExecute depth args) s fun _ s' =>
      s' = s.print (usage ((allocated (blocksBelow entries) + 1023) % 2 ^ 64 / 1024)) := by
  have hthird : ¬ (args[1]? ≠ none ∧ args[2]? ≠ none) := fun h =>
    h.2 (List.getElem?_eq_none_iff.mpr hargs)
  rw [diskUsageExecute, if_neg hthird]
  refine Ends.seq (getDirSize_ends hpath hdepth) ?_
  rintro total s' ⟨rfl, rfl⟩
  apply Ends.perform
  · exact ⟨(), _, rfl⟩
  · rintro _ s'' rfl
    rfl

/-- The addition in front of the division overflows for one size only. -/
theorem roundUp_eq {total : ℕ} (hlt : total < 2 ^ 64) (hmul : 512 ∣ total)
    (hne : total ≠ 2 ^ 64 - 512) : (total + 1023) % 2 ^ 64 / 1024 = total ⌈/⌉ 1024 := by
  have hno : total + 1023 < 2 ^ 64 := by omega
  rw [Nat.mod_eq_of_lt hno, Nat.ceilDiv_eq_add_pred_div]
  rfl

theorem usage_zero_ne : usage 0 ≠ usage (2 ^ 54) := by
  intro h
  have htext := Output.cout.inj h
  rw [List.append_assoc, List.append_assoc, List.append_cancel_left_eq,
    List.append_cancel_right_eq] at htext
  revert htext
  decide +kernel

theorem tellsUsage_of_ne (hargs : args.length ≤ 2)
    (hpath : fs.lookup (args[1]?.getD ".".toList) = some (.dir entries))
    (hdepth : needBelow entries < depth)
    (hne : 512 * blocksBelow entries % 2 ^ 64 ≠ 2 ^ 64 - 512) :
    TellsUsage fs depth args entries s := by
  refine ⟨getDirSize_ends hpath hdepth, (diskUsageExecute_ends hargs hpath hdepth).mono ?_⟩
  rintro _ s' rfl
  have hmul : 512 ∣ 512 * blocksBelow entries % 2 ^ 64 := by omega
  rw [allocated, roundUp_eq (Nat.mod_lt _ (by decide)) hmul hne]

/-- For this size the figure is 0. -/
theorem not_tellsUsage (hargs : args.length ≤ 2)
    (hpath : fs.lookup (args[1]?.getD ".".toList) = some (.dir entries))
    (hdepth : needBelow entries < depth)
    (heq : 512 * blocksBelow entries % 2 ^ 64 = 2 ^ 64 - 512) :
    ¬ TellsUsage fs depth args entries s := by
  rintro ⟨-, h⟩
  have hprint := diskUsageExecute_ends (s := s) hargs hpath hdepth
  obtain ⟨a, s', hruns⟩ := hprint.exists_run
  have hfirst := hprint.post a s' hruns
  rw [h.post a s' hruns, allocated, heq] at hfirst
  have houts := List.append_cancel_left (congrArg TreeState.printed hfirst)
  exact usage_zero_ne (List.cons.inj houts).1.symm

/-- The printed figure is right unless the size is the largest multiple of 512 that is
an `unsigned long`. -/
theorem diskUsage_iff (fs : FileSystem) (s : TreeState) (hargs : args.length ≤ 2)
    (hpath : fs.lookup (args[1]?.getD ".".toList) = some (.dir entries))
    (hdepth : needBelow entries < depth) :
    TellsUsage fs depth args entries s ↔
      512 * blocksBelow entries % 2 ^ 64 ≠ 2 ^ 64 - 512 := by
  constructor
  · intro h heq
    exact not_tellsUsage hargs hpath hdepth heq h
  · intro hne
    exact tellsUsage_of_ne hargs hpath hdepth hne

end Command

/-! ## Two trees -/

theorem properName_single {c : Char} (hdot : c ≠ '.') (hslash : c ≠ '/') (hnul : c ≠ nul) :
    ProperName [c] where
  not_dots := by
    rw [mem_dots]
    simpa using hdot
  no_slash := by simpa using hslash.symm
  no_nul := by simpa using hnul.symm
  length_le := by simp

theorem properName_f : ProperName "f".toList :=
  properName_single (by decide) (by decide) (by decide)

/-- The working directory holds one file. -/
def oneFile (blocks : ℕ) : FileSystem :=
  .ofList [(".".toList, .dir [("f".toList, .file blocks)]),
      (join ".".toList "f".toList, .file blocks)]
    (by
      simp only [List.forall_mem_cons, Tree.children]
      refine ⟨⟨?_, List.nodup_singleton _⟩, ⟨nofun, List.nodup_nil⟩, nofun⟩
      simpa only [List.forall_mem_cons] using ⟨properName_f, nofun⟩)
    (by
      simp only [List.forall_mem_cons, Tree.children]
      exact ⟨⟨rfl, nofun⟩, nofun, nofun⟩)

/-- No directory is open. -/
def noStreams : TreeState :=
  ⟨fun _ => none, [], 0, fun _ _ => rfl⟩

/-- It holds a file and a directory with another file. -/
def nestedEntries : List (Text × Tree) :=
  [("f".toList, .file 8), ("d".toList, .dir [("g".toList, .file 3)])]

def nested : FileSystem :=
  .ofList [(".".toList, .dir nestedEntries), (join ".".toList "f".toList, .file 8),
      (join ".".toList "d".toList, .dir [("g".toList, .file 3)]),
      (join (join ".".toList "d".toList) "g".toList, .file 3)]
    (by
      have hd : ProperName "d".toList :=
        properName_single (by decide) (by decide) (by decide)
      have hg : ProperName "g".toList :=
        properName_single (by decide) (by decide) (by decide)
      simp only [List.forall_mem_cons, Tree.children, nestedEntries]
      refine ⟨⟨?_, by decide⟩, ⟨nofun, List.nodup_nil⟩, ⟨?_, List.nodup_singleton _⟩,
        ⟨nofun, List.nodup_nil⟩, nofun⟩
      · simpa only [List.forall_mem_cons] using ⟨properName_f, hd, nofun⟩
      · simpa only [List.forall_mem_cons] using ⟨hg, nofun⟩)
    (by
      simp only [List.forall_mem_cons, Tree.children, nestedEntries]
      exact ⟨⟨rfl, rfl, nofun⟩, nofun, ⟨rfl, nofun⟩, nofun, nofun⟩)

/-- The records of the working directory, in two buffers. -/
def nestedRecords : List (List Record) :=
  [[.plain ".".toList (by decide) (by decide), .plain "d".toList (by decide) (by decide)],
    [.plain "..".toList (by decide) (by decide), .plain "f".toList (by decide) (by decide)]]

/-- Eleven blocks, which are found in two directories. -/
theorem diskUsage_iff_nested :
    (TellsUsage nested 12 ["du".toList] nestedEntries noStreams ↔
      512 * blocksBelow nestedEntries % 2 ^ 64 ≠ 2 ^ 64 - 512) ∧
    ∃ next s s', diskUsageExecute 12 ["du".toList] = .call (.openDir ".".toList) next ∧
      TreeStep nested noStreams (.openDir ".".toList) (some 0) s ∧
      s.streams 0 = some (nestedRecords.map encode) ∧
      Runs (TreeStep nested) (next (some 0)) s () s' ∧ s'.printed = [usage 6] := by
  have hiff : TellsUsage nested 12 ["du".toList] nestedEntries noStreams ↔ _ :=
    diskUsage_iff nested noStreams (by decide) rfl (by decide)
  have hlists : Lists nestedEntries (nestedRecords.map encode) := by
    refine ⟨nestedRecords, rfl, ?_, dots, List.Sublist.refl dots, by decide⟩
    simp only [nestedRecords, List.forall_mem_cons]
    exact ⟨⟨by simp, by decide⟩, ⟨by simp, by decide⟩, nofun⟩
  have hopen : TreeStep nested noStreams (.openDir ".".toList) (some 0)
      (noStreams.set 0 (some (nestedRecords.map encode))) :=
    ⟨0, _, rfl, hlists, rfl, rfl⟩
  have hends := (hiff.mpr (by decide)).2.2 (some 0) _ hopen
  obtain ⟨_, s', hruns⟩ := Ends.exists_run hends
  refine ⟨hiff, _, _, s', rfl, hopen, TreeState.set_streams _, hruns, ?_⟩
  rw [hends.post _ s' hruns]
  rfl

/-- A sparse file for which the figure is 0. -/
theorem diskUsage_overflow :
    ¬ TellsUsage (oneFile (2 ^ 55 - 1)) 6 ["du".toList] [("f".toList, .file (2 ^ 55 - 1))]
      noStreams :=
  not_tellsUsage (by decide) rfl (by decide) (by decide)

end OsCoursework.Shell.DiskUsage
