import Mathlib.Algebra.BigOperators.Group.List.Basic
import Mathlib.Algebra.GroupWithZero.Nat
import OsCoursework.Shell.System

/-!
# Directory trees

What the calls of `du` find: a finite tree, and the records in which `getdents64`
hands out the names of a directory.
-/

namespace OsCoursework.Shell

open OsCoursework.Delimiter

/-! ## Trees -/

/-- A directory, or any other file with its `st_blocks`. -/
inductive Tree where
  | file (blocks : ℕ)
  | dir (entries : List (Text × Tree))

mutual

/-- The blocks of all files of the tree. -/
def Tree.blocks : Tree → ℕ
  | .file blocks => blocks
  | .dir entries => blocksBelow entries

def blocksBelow : List (Text × Tree) → ℕ
  | [] => 0
  | (_, tree) :: entries => tree.blocks + blocksBelow entries

end

mutual

/-- As many rounds and calls inside each other are enough for the tree. -/
def Tree.need : Tree → ℕ
  | .file _ => 0
  | .dir entries => needBelow entries + 1

def needBelow : List (Text × Tree) → ℕ
  | [] => 3
  | (_, tree) :: entries => tree.need + needBelow entries + 1

end

/-- What `lstat` may answer; a directory has blocks of its own. -/
def Tree.HasStat : Tree → Stat → Prop
  | .file blocks, st => st.isDir = false ∧ st.blocks = blocks
  | .dir _, st => st.isDir = true

variable {entries : List (Text × Tree)}

theorem exists_stat (tree : Tree) : ∃ st, tree.HasStat st := by
  cases tree with
  | file blocks => exact ⟨⟨false, blocks⟩, rfl, rfl⟩
  | dir entries => exact ⟨⟨true, 0⟩, rfl⟩

theorem blocksBelow_eq (entries : List (Text × Tree)) :
    blocksBelow entries = (entries.map fun entry => entry.2.blocks).sum := by
  induction entries with
  | nil => rfl
  | cons entry entries ih =>
      rw [blocksBelow, ih, List.map_cons, List.sum_cons]

theorem need_le_of_mem {name : Text} {tree : Tree} (h : (name, tree) ∈ entries) :
    tree.need ≤ needBelow entries := by
  induction entries with
  | nil => cases h
  | cons entry entries ih =>
      rw [needBelow]
      rcases List.mem_cons.mp h with rfl | h
      · change tree.need ≤ tree.need + needBelow entries + 1
        omega
      · have hle := ih h
        omega

theorem length_le_need (entries : List (Text × Tree)) :
    entries.length + 3 ≤ needBelow entries := by
  induction entries with
  | nil => exact Nat.le_refl 3
  | cons entry entries ih =>
      rw [needBelow, List.length_cons]
      omega

/-! ## File systems -/

def dots : List Text :=
  [".".toList, "..".toList]

theorem mem_dots {name : Text} : name ∈ dots ↔ name = ".".toList ∨ name = "..".toList := by
  rw [dots, List.mem_cons, List.mem_singleton]

/-- The names that a file system allows. -/
structure ProperName (name : Text) : Prop where
  not_dots : name ∉ dots
  no_slash : '/' ∉ name
  no_nul : nul ∉ name
  length_le : name.length ≤ 255

structure Proper (entries : List (Text × Tree)) : Prop where
  names : ∀ entry ∈ entries, ProperName entry.1
  distinct : (entries.map Prod.fst).Nodup

def join (path name : Text) : Text :=
  path ++ "/".toList ++ name

/-- The tree below each path. -/
structure FileSystem where
  lookup : Text → Option Tree
  proper : ∀ path entries, lookup path = some (.dir entries) → Proper entries
  below : ∀ path entries, lookup path = some (.dir entries) →
    ∀ entry ∈ entries, lookup (join path entry.1) = some entry.2

def Tree.children : Tree → List (Text × Tree)
  | .file _ => []
  | .dir entries => entries

/-- The trees that a list gives to some paths. -/
def FileSystem.ofList (found : List (Text × Tree))
    (hproper : ∀ place ∈ found, Proper place.2.children)
    (hbelow : ∀ place ∈ found, ∀ entry ∈ place.2.children,
      found.lookup (join place.1 entry.1) = some entry.2) : FileSystem where
  lookup path := found.lookup path
  proper path entries h := by
    obtain ⟨_, _, rfl, -⟩ := List.lookup_eq_some_iff.mp h
    exact hproper (path, .dir entries) (List.mem_append_right _ List.mem_cons_self)
  below path entries h := by
    obtain ⟨_, _, rfl, -⟩ := List.lookup_eq_some_iff.mp h
    exact hbelow (path, .dir entries) (List.mem_append_right _ List.mem_cons_self)

/-- The trees below a tree, with their paths. -/
inductive Below (root : Text) (tree : Tree) : Text → Tree → Prop
  | root : Below root tree root tree
  | entry {path : Text} {entries : List (Text × Tree)} {entry : Text × Tree} :
      Below root tree path (.dir entries) → entry ∈ entries →
        Below root tree (join path entry.1) entry.2

theorem length_join (path name : Text) :
    (join path name).length = path.length + 1 + name.length := by
  rw [join, List.length_append, List.length_append]
  rfl

/-- A name is what stands behind the last slash. -/
theorem join_inj {path path' name name' : Text} (hname : '/' ∉ name)
    (hname' : '/' ∉ name') (h : join path name = join path' name') :
    path = path' ∧ name = name' := by
  rw [join, join, List.append_assoc, List.append_assoc] at h
  exact append_cons_inj hname hname' h

section Below

variable {root path : Text} {tree tree' tree'' : Tree}

theorem Below.length_le (h : Below root tree path tree') : root.length ≤ path.length := by
  induction h with
  | root => exact Nat.le_refl _
  | entry h hentry ih =>
      rw [length_join]
      omega

theorem Below.inversion (h : Below root tree path tree') :
    path = root ∧ tree' = tree ∨
      ∃ parent entries entry, path = join parent entry.1 ∧ tree' = entry.2 ∧
        Below root tree parent (.dir entries) ∧ entry ∈ entries := by
  cases h with
  | root => exact Or.inl ⟨rfl, rfl⟩
  | entry h hentry => exact Or.inr ⟨_, _, _, rfl, rfl, h, hentry⟩

/-- Nothing below the root has its path. -/
theorem Below.join_ne {name : Text} (h : Below root tree path tree') :
    join path name ≠ root := by
  intro heq
  have hle := h.length_le
  rw [← heq, length_join] at hle
  omega

/-- A path leads to one tree. -/
theorem Below.unique
    (hproper : ∀ path entries, Below root tree path (.dir entries) → Proper entries)
    (h : Below root tree path tree') (h' : Below root tree path tree'') :
    tree' = tree'' := by
  induction h generalizing tree'' with
  | root =>
      rcases h'.inversion with ⟨-, htree⟩ | ⟨parent, entries, entry, hpath, -, hparent, -⟩
      · exact htree.symm
      · exact absurd hpath.symm hparent.join_ne
  | @entry parent entries entry h hentry ih =>
      rcases h'.inversion with
        ⟨hpath, -⟩ | ⟨parent', entries', entry', hpath, rfl, hparent, hmem⟩
      · exact absurd hpath h.join_ne
      · have hnames := hproper _ _ h
        have hnames' := hproper _ _ hparent
        obtain ⟨rfl, hname⟩ := join_inj (hnames.names _ hentry).no_slash
          (hnames'.names _ hmem).no_slash hpath
        obtain rfl := Tree.dir.inj (ih hparent)
        rw [List.inj_on_of_nodup_map hnames.distinct hentry hmem hname]

open Classical in
/-- Every tree with proper names is found below every path. -/
theorem exists_fileSystem
    (hproper : ∀ path entries, Below root tree path (.dir entries) → Proper entries) :
    ∃ fs : FileSystem, fs.lookup root = some tree := by
  let lookup : Text → Option Tree := fun path =>
    if h : ∃ tree', Below root tree path tree' then some h.choose else none
  have hlookup : ∀ path tree', lookup path = some tree' ↔ Below root tree path tree' := by
    intro path tree'
    constructor
    · intro h
      by_cases hex : ∃ tree', Below root tree path tree'
      · rw [← Option.some.inj ((dif_pos hex).symm.trans h)]
        exact hex.choose_spec
      · cases (dif_neg hex).symm.trans h
    · intro h
      have hex : ∃ tree', Below root tree path tree' := ⟨tree', h⟩
      have heq := Below.unique hproper hex.choose_spec h
      exact (dif_pos hex).trans (congrArg some heq)
  refine ⟨⟨lookup, ?_, ?_⟩, (hlookup root tree).mpr Below.root⟩
  · intro path entries h
    exact hproper path entries ((hlookup path _).mp h)
  · intro path entries h entry hentry
    exact (hlookup _ _).mpr (Below.entry ((hlookup path _).mp h) hentry)

end Below

/-! ## Records -/

/-- A `struct linux_dirent64` as `getdents64` writes it: `header` are `d_ino` and
`d_off`. -/
structure Record where
  header : Text
  dType : Char
  name : Text
  padding : Text
  header_length : header.length = 16
  no_nul : nul ∉ name
  fits : 20 + name.length + padding.length < 2 ^ 16

namespace Record

def reclen (r : Record) : ℕ :=
  20 + r.name.length + r.padding.length

def bytes (r : Record) : Text :=
  r.header ++ Char.ofNat (r.reclen % 256) :: Char.ofNat (r.reclen / 256) :: r.dType ::
    (r.name ++ nul :: r.padding)

end Record

/-- The bytes of a buffer. -/
def encode (records : List Record) : Text :=
  (records.map Record.bytes).flatten

/-- The buffers hand out each name of a directory once, in any order; `.` and `..` may
be among them. -/
def Lists (entries : List (Text × Tree)) (bufs : List Text) : Prop :=
  ∃ records : List (List Record), bufs = records.map encode ∧
    (∀ buf ∈ records, buf ≠ [] ∧ (encode buf).length ≤ maxBuffSize) ∧
    ∃ own, own.Sublist dots ∧
      (records.flatten.map Record.name).Perm (own ++ entries.map Prod.fst)

namespace Record

theorem length_bytes (r : Record) : r.bytes.length = r.reclen := by
  rw [bytes, reclen]
  simp only [List.length_append, List.length_cons, r.header_length]
  omega

theorem reclen_pos (r : Record) : 0 < r.reclen := by
  rw [reclen]
  omega

end Record

/-- The record of a name, without padding. -/
def Record.plain (name : Text) (no_nul : nul ∉ name) (hlen : name.length ≤ 255) :
    Record where
  header := List.replicate 16 nul
  dType := nul
  name := name
  padding := []
  header_length := List.length_replicate
  no_nul := no_nul
  fits := by
    rw [List.length_nil]
    omega

/-- A proper name has a record, which fits into a buffer. -/
theorem exists_record {name : Text} (h : ProperName name) :
    ∃ r : Record, r.name = name ∧ r.bytes.length ≤ maxBuffSize := by
  have hle := h.length_le
  refine ⟨Record.plain name h.no_nul hle, rfl, ?_⟩
  rw [Record.length_bytes, Record.reclen, maxBuffSize]
  dsimp only [Record.plain, List.length_nil]
  omega

/-- Proper names can be handed out, each in a buffer of its own. -/
theorem exists_records {names : List Text} (h : ∀ name ∈ names, ProperName name) :
    ∃ records : List (List Record),
      (∀ buf ∈ records, buf ≠ [] ∧ (encode buf).length ≤ maxBuffSize) ∧
        records.flatten.map Record.name = names := by
  induction names with
  | nil => exact ⟨[], nofun, rfl⟩
  | cons name names ih =>
      obtain ⟨r, hname, hlen⟩ := exists_record (h name List.mem_cons_self)
      obtain ⟨records, hrecords, heq⟩ := ih fun n hn => h n (List.mem_cons_of_mem name hn)
      refine ⟨[r] :: records, ?_, ?_⟩
      · intro buf hbuf
        rcases List.mem_cons.mp hbuf with rfl | hbuf
        · rw [encode, List.map_singleton, List.flatten_singleton]
          exact ⟨List.cons_ne_nil r [], hlen⟩
        · exact hrecords buf hbuf
      · rw [List.flatten_cons, List.map_append, heq, List.map_singleton, hname,
          List.singleton_append]

theorem exists_lists (h : Proper entries) : ∃ bufs, Lists entries bufs := by
  have hnames : ∀ name ∈ entries.map Prod.fst, ProperName name := by
    intro name hname
    obtain ⟨entry, hentry, rfl⟩ := List.mem_map.mp hname
    exact h.names entry hentry
  obtain ⟨records, hrecords, heq⟩ := exists_records hnames
  refine ⟨records.map encode, records, rfl, hrecords, [], List.nil_sublist dots, ?_⟩
  rw [heq, List.nil_append]

end OsCoursework.Shell
