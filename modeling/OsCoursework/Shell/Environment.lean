import OsCoursework.Shell.Alias
import OsCoursework.Support.TerminatedArray

/-!
# Removing environment variables

`UnSetEnvCommand`.  Whether a variable exists is looked up in the first
`MAX_BUFF_SIZE` bytes of the block that the process started with; it is removed from
the array of pointers `__environ`.  The block does not change, so it goes on showing
what was removed, and it does not show what lies behind those bytes.
-/

namespace OsCoursework.Shell

open OsCoursework.Delimiter OsCoursework.TerminatedArray

/-! ## The environment -/

/-- The name of an entry. -/
def key (entry : Text) : Text :=
  entry.takeWhile (· ≠ '=')

/-- Entries of the form `NAME=value`, with different names. -/
structure Environment where
  entries : List Text
  has_equal : ∀ entry ∈ entries, '=' ∈ entry
  no_nul : ∀ entry ∈ entries, nul ∉ entry
  distinct : (entries.map key).Nodup

/-- The bytes of some entries, with a NUL behind each. -/
def block (entries : List Text) : Text :=
  (entries.map (· ++ [nul])).flatten

/-- What is read from `/proc/self/environ`. -/
def snapshot (env : Environment) : Text :=
  (block env.entries).take maxBuffSize

/-! ## The command -/

abbrev EnvArray := ℕ → Option Text

/-- `checkVariableExistence`; `envFile` starts at the current entry.  Undefined where
an entry without a NUL is read beyond the end of the buffer. -/
def checkVariableExistence (var envFile : Text) : Option Bool :=
  if envFile = [] then some false
  else if var ++ ['='] <+: envFile then some true
  else if nul ∈ envFile then
    checkVariableExistence var (envFile.dropWhile (· ≠ nul)).tail
  else none
termination_by envFile.length
decreasing_by
  have hle := (List.dropWhile_suffix (· ≠ nul) (l := envFile)).length_le
  have hpos := List.length_pos_of_ne_nil ‹¬ envFile = []›
  rw [List.length_tail]
  omega

/-- The comparison of an entry with an argument: `strchr`, `strncmp` and `strlen`.
Undefined for an entry without `=`. -/
def isEntryOf (entry arg : Text) : Option Bool :=
  (entry.findIdx? (· = '=')).map fun keyLen =>
    decide (entry.take keyLen = arg.take keyLen ∧ arg.length = keyLen)

/-- The loop over `__environ` from position `i` on. -/
def removeEntry (arg : Text) : ℕ → EnvArray → ℕ → Option EnvArray
  | 0, _, _ => none
  | fuel + 1, env, i =>
      match env i with
      | none => some env
      | some entry => do
          if ← isEntryOf entry arg then closeGap fuel env i
          else removeEntry arg fuel env (i + 1)

def doesNotExist (arg : Text) : Output :=
  .cerr ("smash error: unsetenv: ".toList ++ arg ++ " does not exist".toList)

/-- The loop over the arguments. -/
def unsetLoop (fuel : ℕ) (envFile : Text) :
    List Text → EnvArray → Option (EnvArray × List Output)
  | [], env => some (env, [])
  | arg :: args, env => do
      if ← checkVariableExistence arg envFile then
        let env ← removeEntry arg fuel env 0
        unsetLoop fuel envFile args env
      else some (env, [doesNotExist arg])

/-- `UnSetEnvCommand::execute` after the file was read. -/
def unsetVariables (fuel : ℕ) (envFile : Text) (args : List Text) (env : EnvArray) :
    Option (EnvArray × List Output) :=
  match args with
  | [] => some (env, [.cerr "smash error: unsetenv: not enough arguments".toList])
  | _ => unsetLoop fuel envFile args env

/-- The `unsetenv` commands of a history, one after the other. -/
def runHistory (fuel : ℕ) (envFile : Text) :
    List (List Text) → EnvArray → Option EnvArray
  | [], env => some env
  | args :: history, env => do
      let (env, _) ← unsetVariables fuel envFile args env
      runHistory fuel envFile history env

/-! ## What the command is for -/

/-- Remove the named entries up to the first argument that names none. -/
def unsetSpec : List Text → List Text → List Text × List Output
  | live, [] => (live, [])
  | live, arg :: args =>
      if ∃ entry ∈ live, key entry = arg then
        unsetSpec (live.filter (key · ≠ arg)) args
      else (live, [doesNotExist arg])

/-- The effect of the whole command. -/
def commandSpec (live args : List Text) : List Text × List Output :=
  match args with
  | [] => (live, [.cerr "smash error: unsetenv: not enough arguments".toList])
  | _ => unsetSpec live args

/-- The command ends, with the array and the output that it is for. -/
def UnsetsExactly (fuel : ℕ) (envFile : Text) (env : EnvArray) (live args : List Text) :
    Prop :=
  ∃ env', unsetVariables fuel envFile args env = some (env', (commandSpec live args).2) ∧
    Holds env' (commandSpec live args).1

/-! ## What the snapshot shows -/

/-- The first `room` bytes of the block show the name with its `=`. -/
def Visible (entries : List Text) (room : ℕ) (arg : Text) : Prop :=
  ∃ pre entry post, entries = pre ++ entry :: post ∧ arg ++ ['='] <+: entry ∧
    (block pre).length + (arg.length + 1) ≤ room

/-- The first `room` bytes of the block are whole entries. -/
def WholeEntries (entries : List Text) (room : ℕ) : Prop :=
  ∃ k, (block entries).take room = block (entries.take k)

variable {entries : List Text} {entry arg : Text} {room : ℕ}

theorem block_cons (entry : Text) (entries : List Text) :
    block (entry :: entries) = entry ++ nul :: block entries := by
  rw [block, List.map_cons, List.flatten_cons, List.append_assoc]
  rfl

theorem visible_cons :
    Visible (entry :: entries) room arg ↔
      (arg ++ ['='] <+: entry ∧ arg.length + 1 ≤ room) ∨
        Visible entries (room - (entry.length + 1)) arg := by
  constructor
  · rintro ⟨pre, shown, post, hsplit, hstarts, hroom⟩
    cases pre with
    | nil =>
        obtain ⟨rfl, -⟩ := List.cons.inj hsplit
        rw [block] at hroom
        exact Or.inl ⟨hstarts, by simpa using hroom⟩
    | cons first pre =>
        obtain ⟨rfl, hrest⟩ := List.cons.inj hsplit
        refine Or.inr ⟨pre, shown, post, hrest, hstarts, ?_⟩
        rw [block_cons, List.length_append, List.length_cons] at hroom
        omega
  · rintro (⟨hstarts, hroom⟩ | ⟨pre, shown, post, rfl, hstarts, hroom⟩)
    · exact ⟨[], entry, entries, rfl, hstarts, by simpa [block] using hroom⟩
    · refine ⟨entry :: pre, shown, post, rfl, hstarts, ?_⟩
      rw [block_cons, List.length_append, List.length_cons]
      omega

theorem take_block_of_lt (hlt : entry.length < room) :
    (block (entry :: entries)).take room =
      entry ++ nul :: (block entries).take (room - (entry.length + 1)) := by
  obtain ⟨k, rfl⟩ := Nat.exists_eq_add_of_lt hlt
  rw [block_cons, Nat.add_assoc, List.take_length_add_append, List.take_succ_cons]
  congr 3
  omega

theorem wholeEntries_cons (hlt : entry.length < room) :
    WholeEntries (entry :: entries) room ↔
      WholeEntries entries (room - (entry.length + 1)) := by
  rw [WholeEntries, take_block_of_lt hlt]
  constructor
  · rintro ⟨k, hk⟩
    cases k with
    | zero => simp [block] at hk
    | succ k =>
        rw [List.take_succ_cons, block_cons, List.append_cancel_left_eq] at hk
        exact ⟨k, (List.cons.inj hk).2⟩
  · rintro ⟨k, hk⟩
    exact ⟨k + 1, by rw [List.take_succ_cons, block_cons, hk]⟩

/-- An entry that does not end in the room is cut. -/
theorem not_wholeEntries (entries : List Text) (hnul : nul ∉ entry) (hpos : 0 < room)
    (hle : room ≤ entry.length) : ¬ WholeEntries (entry :: entries) room := by
  rintro ⟨k, hk⟩
  rw [block_cons, List.take_append_of_le_length hle] at hk
  cases k with
  | zero =>
      have hlen : (entry.take room).length = 0 := by
        rw [hk]
        rfl
      rw [List.length_take, Nat.min_eq_left hle] at hlen
      omega
  | succ k =>
      rw [List.take_succ_cons, block_cons] at hk
      apply hnul
      apply List.mem_of_mem_take
      rw [hk]
      exact List.mem_append_right _ List.mem_cons_self

theorem check_nil (arg : Text) : checkVariableExistence arg [] = some false := by
  rw [checkVariableExistence, if_pos rfl]

/-- The lookup at a whole entry. -/
theorem check_append_nul (hentry : nul ∉ entry) (harg : nul ∉ arg) (rest : Text) :
    checkVariableExistence arg (entry ++ nul :: rest) =
      if arg ++ ['='] <+: entry then some true else checkVariableExistence arg rest := by
  have hword : nul ∉ arg ++ ['='] := by
    rw [List.mem_append, not_or]
    exact ⟨harg, by decide⟩
  rw [checkVariableExistence, if_neg (by simp)]
  by_cases hstarts : arg ++ ['='] <+: entry
  · rw [if_pos hstarts, if_pos ((prefix_append_cons hword).mpr hstarts)]
  · rw [if_neg hstarts, if_neg fun h => hstarts ((prefix_append_cons hword).mp h),
      if_pos (List.mem_append_right _ List.mem_cons_self), dropWhile_append_cons hentry,
      List.tail_cons]

/-- The lookup at an entry that is cut. -/
theorem check_of_not_nul (hentry : nul ∉ entry) (hne : entry ≠ []) :
    checkVariableExistence arg entry =
      if arg ++ ['='] <+: entry then some true else none := by
  rw [checkVariableExistence, if_neg hne, if_neg hentry]

theorem not_visible_zero : ¬ Visible entries 0 arg := by
  rintro ⟨pre, entry, post, -, -, hroom⟩
  omega

/-- The lookup in an entry that does not end in the room. -/
theorem check_take_of_le {room : ℕ} (entries : List Text) (hentry : nul ∉ entry)
    (hle : room ≤ entry.length) :
    (checkVariableExistence arg ((block (entry :: entries)).take room) = some true ↔
        arg ++ ['='] <+: entry ∧ arg.length + 1 ≤ room) ∧
      (checkVariableExistence arg ((block (entry :: entries)).take room) = some false ↔
        ¬ (arg ++ ['='] <+: entry ∧ arg.length + 1 ≤ room) ∧
          WholeEntries (entry :: entries) room) := by
  have htake : (block (entry :: entries)).take room = entry.take room := by
    rw [block_cons, List.take_append_of_le_length hle]
  have hstarts : arg ++ ['='] <+: entry.take room ↔
      arg ++ ['='] <+: entry ∧ arg.length + 1 ≤ room := by
    rw [List.prefix_take_iff, List.length_append, List.length_singleton]
  rw [htake, ← hstarts]
  rcases Nat.eq_zero_or_pos room with rfl | hpos
  · have hwhole : WholeEntries (entry :: entries) 0 := ⟨0, rfl⟩
    rw [List.take_zero, check_nil]
    exact ⟨iff_of_false nofun (by simp), iff_of_true rfl ⟨by simp, hwhole⟩⟩
  · have hcut := not_wholeEntries entries hentry hpos hle
    have hne : entry.take room ≠ [] := by
      apply List.ne_nil_of_length_pos
      rw [List.length_take, Nat.min_eq_left hle]
      exact hpos
    rw [check_of_not_nul (fun h => hentry (List.mem_of_mem_take h)) hne]
    by_cases hshown : arg ++ ['='] <+: entry.take room
    · rw [if_pos hshown]
      exact ⟨iff_of_true rfl hshown, iff_of_false nofun fun h => h.1 hshown⟩
    · rw [if_neg hshown]
      exact ⟨iff_of_false nofun hshown, iff_of_false nofun fun h => hcut h.2⟩

/-- The lookup tells what the snapshot shows; where an entry is cut it is undefined
unless the name was found before. -/
theorem check_take (room : ℕ) (hnul : ∀ entry ∈ entries, nul ∉ entry)
    (harg : nul ∉ arg) :
    (checkVariableExistence arg ((block entries).take room) = some true ↔
        Visible entries room arg) ∧
      (checkVariableExistence arg ((block entries).take room) = some false ↔
        ¬ Visible entries room arg ∧ WholeEntries entries room) := by
  induction entries generalizing room with
  | nil =>
      have hno : ¬ Visible [] room arg := by
        rintro ⟨pre, entry, post, heq, -⟩
        exact List.append_ne_nil_of_right_ne_nil pre (List.cons_ne_nil _ _) heq.symm
      have hwhole : WholeEntries [] room := ⟨0, List.take_nil⟩
      have hblock : (block []).take room = [] := List.take_nil
      rw [hblock, check_nil]
      exact ⟨iff_of_false nofun hno, iff_of_true rfl ⟨hno, hwhole⟩⟩
  | cons entry entries ih =>
      have hentry := hnul entry List.mem_cons_self
      rw [visible_cons]
      rcases Nat.lt_or_ge entry.length room with hlt | hge
      · rw [wholeEntries_cons hlt, take_block_of_lt hlt, check_append_nul hentry harg]
        by_cases hstarts : arg ++ ['='] <+: entry
        · have hroom : arg.length + 1 ≤ room := by
            have hle := hstarts.length_le
            rw [List.length_append, List.length_singleton] at hle
            omega
          rw [if_pos hstarts]
          exact ⟨iff_of_true rfl (Or.inl ⟨hstarts, hroom⟩),
            iff_of_false nofun fun h => h.1 (Or.inl ⟨hstarts, hroom⟩)⟩
        · rw [if_neg hstarts]
          simp only [hstarts, false_and, false_or]
          exact ih _ fun e he => hnul e (List.mem_cons_of_mem entry he)
      · have hnone : ¬ Visible entries (room - (entry.length + 1)) arg := by
          rw [Nat.sub_eq_zero_of_le (hge.trans (Nat.le_succ _))]
          exact not_visible_zero
        rw [or_iff_left hnone]
        exact check_take_of_le entries hentry hge

/-! ## The array -/

/-- The comparison of an entry is with its name. -/
theorem isEntryOf_eq (h : '=' ∈ entry) (arg : Text) :
    isEntryOf entry arg = some (decide (key entry = arg)) := by
  obtain ⟨name, value, rfl, hname⟩ := List.eq_append_cons_of_mem h
  have hkey : key (name ++ '=' :: value) = name := takeWhile_append_cons hname value
  have hiff : (name = arg.take name.length ∧ arg.length = name.length) ↔ name = arg := by
    constructor
    · rintro ⟨htake, hlen⟩
      rw [List.take_of_length_le hlen.le] at htake
      exact htake
    · rintro rfl
      exact ⟨List.take_length.symm, rfl⟩
  rw [isEntryOf, findIdx?_append_cons hname, Option.map_some, List.take_left, hkey]
  exact congrArg some (decide_eq_decide.mpr hiff)

/-- The first entry with the name is taken out. -/
theorem removeEntry_holds {env : EnvArray} {pre rest : List Text} {fuel : ℕ}
    (h : Holds env (pre ++ rest)) (hequal : ∀ entry ∈ rest, '=' ∈ entry)
    (hfuel : rest.length < fuel) (arg : Text) :
    ∃ env', removeEntry arg fuel env pre.length = some env' ∧
      Holds env' (pre ++ rest.eraseP (key · = arg)) := by
  induction rest generalizing pre fuel with
  | nil =>
      obtain ⟨fuel, rfl⟩ := Nat.exists_eq_succ_of_ne_zero (Nat.ne_of_gt hfuel)
      have hnone := h.at_length
      rw [List.append_nil] at hnone
      refine ⟨env, ?_, h⟩
      rw [removeEntry, hnone]
  | cons entry rest ih =>
      obtain ⟨fuel, rfl⟩ := Nat.exists_eq_succ_of_ne_zero (Nat.ne_zero_of_lt hfuel)
      rw [List.length_cons] at hfuel
      have hfuel' : rest.length < fuel := by omega
      rw [removeEntry, h.at_append]
      dsimp only
      rw [isEntryOf_eq (hequal entry List.mem_cons_self)]
      by_cases hkey : key entry = arg
      · rw [decide_eq_true hkey, List.eraseP_cons_of_pos (by simpa using hkey)]
        exact h.closeGap hfuel'
      · have hskip : (pre ++ [entry]).length = pre.length + 1 := by simp
        have hnext : Holds env ((pre ++ [entry]) ++ rest) := by
          rw [List.append_assoc]
          exact h
        obtain ⟨env', hrun, hholds⟩ := ih hnext
          (fun e he => hequal e (List.mem_cons_of_mem entry he)) hfuel'
        rw [hskip] at hrun
        rw [List.append_assoc, List.singleton_append] at hholds
        rw [decide_eq_false hkey, List.eraseP_cons_of_neg (by simpa using hkey)]
        exact ⟨env', hrun, hholds⟩

/-- With different names, the first entry with a name is the only one. -/
theorem eraseP_key {live : List Text} (h : (live.map key).Nodup) (arg : Text) :
    live.eraseP (key · = arg) = live.filter (key · ≠ arg) := by
  induction live with
  | nil => rfl
  | cons entry live ih =>
      rw [List.map_cons, List.nodup_cons] at h
      by_cases hkey : key entry = arg
      · rw [List.eraseP_cons_of_pos (by simpa using hkey),
          List.filter_cons_of_neg (by simpa using hkey), List.filter_eq_self.mpr]
        intro other hother
        rw [decide_eq_true_eq]
        rintro rfl
        exact h.1 (hkey ▸ List.mem_map_of_mem hother)
      · rw [List.eraseP_cons_of_neg (by simpa using hkey),
          List.filter_cons_of_pos (by simpa using hkey), ih h.2]

/-! ## The commands -/

/-- The lookup shows the arguments as they are: those up to the first one that names
nothing are seen, and this one is not. -/
def Shown (env : Environment) : List Text → List Text → Prop
  | _, [] => True
  | live, arg :: args =>
      if ∃ entry ∈ live, key entry = arg then
        Visible env.entries maxBuffSize arg ∧ Shown env (live.filter (key · ≠ arg)) args
      else ¬ Visible env.entries maxBuffSize arg ∧ WholeEntries env.entries maxBuffSize

section Commands

variable {env : Environment} {array array' : EnvArray} {live args : List Text}
  {out : List Output} {fuel : ℕ}

theorem doesNotExist_injective {arg' : Text} (h : doesNotExist arg = doesNotExist arg') :
    arg = arg' := by
  have htext := Output.cerr.inj h
  exact List.append_cancel_left (List.append_cancel_right htext)

theorem unsetSpec_sublist (live args : List Text) :
    (unsetSpec live args).1.Sublist live := by
  induction args generalizing live with
  | nil => exact List.Sublist.refl live
  | cons arg args ih =>
      rw [unsetSpec]
      split
      · exact (ih _).trans List.filter_sublist
      · exact List.Sublist.refl live

/-- A step of the loop removes the named entry, if there is one. -/
theorem removeEntry_live (hsub : live.Sublist env.entries)
    (hfuel : env.entries.length < fuel) (h : Holds array live) (arg : Text) :
    ∃ array', removeEntry arg fuel array 0 = some array' ∧
      Holds array' (live.filter (key · ≠ arg)) := by
  have hequal : ∀ entry ∈ live, '=' ∈ entry := fun entry hmem =>
    env.has_equal entry (hsub.subset hmem)
  have hdistinct : (live.map key).Nodup := (hsub.map key).nodup env.distinct
  have hstart : Holds array ([] ++ live) := h
  have hlt : live.length < fuel := hsub.length_le.trans_lt hfuel
  rw [← eraseP_key hdistinct]
  exact removeEntry_holds hstart hequal hlt arg

/-- The array holds a part of the entries after every command. -/
theorem unsetLoop_holds (hsub : live.Sublist env.entries)
    (hfuel : env.entries.length < fuel) (h : Holds array live) {envFile : Text}
    (hrun : unsetLoop fuel envFile args array = some (array', out)) :
    ∃ live', Holds array' live' ∧ live'.Sublist env.entries := by
  induction args generalizing array live with
  | nil =>
      obtain ⟨rfl, -⟩ := Prod.mk.inj (Option.some.inj hrun)
      exact ⟨live, h, hsub⟩
  | cons arg args ih =>
      rw [unsetLoop, Option.bind_eq_bind, Option.bind_eq_some_iff] at hrun
      obtain ⟨found, -, hrun⟩ := hrun
      split at hrun
      · obtain ⟨array₁, hremove, h₁⟩ := removeEntry_live hsub hfuel h arg
        rw [hremove] at hrun
        exact ih (List.filter_sublist.trans hsub) h₁ hrun
      · obtain ⟨rfl, -⟩ := Prod.mk.inj (Option.some.inj hrun)
        exact ⟨live, h, hsub⟩

/-- What is reported was not found. -/
theorem unsetLoop_reports {envFile : Text}
    (hrun : unsetLoop fuel envFile args array = some (array', out))
    (hmem : doesNotExist arg ∈ out) :
    checkVariableExistence arg envFile = some false := by
  induction args generalizing array with
  | nil =>
      obtain ⟨-, rfl⟩ := Prod.mk.inj (Option.some.inj hrun)
      cases hmem
  | cons arg' args ih =>
      rw [unsetLoop, Option.bind_eq_bind, Option.bind_eq_some_iff] at hrun
      obtain ⟨found, hcheck, hrun⟩ := hrun
      split at hrun
      · rw [Option.bind_eq_bind, Option.bind_eq_some_iff] at hrun
        obtain ⟨array₁, -, hrun⟩ := hrun
        exact ih hrun
      · next hfound =>
        obtain ⟨-, rfl⟩ := Prod.mk.inj (Option.some.inj hrun)
        rw [doesNotExist_injective (List.mem_singleton.mp hmem), hcheck]
        exact congrArg some (Bool.eq_false_iff.mpr hfound)

theorem unsetLoop_eq {envFile : Text}
    (hremove : removeEntry arg fuel array 0 = some array') (args : List Text) :
    unsetLoop fuel envFile (arg :: args) array =
      match checkVariableExistence arg envFile with
      | none => none
      | some true => unsetLoop fuel envFile args array'
      | some false => some (array, [doesNotExist arg]) := by
  rw [unsetLoop]
  cases checkVariableExistence arg envFile with
  | none => rfl
  | some found =>
      cases found with
      | true => simp only [Option.bind_eq_bind, Option.bind_some, if_pos, hremove]
      | false => rfl

/-- An argument that names a live entry is not to be passed over. -/
theorem not_holds_unsetSpec (h : Holds array live)
    (hlive : ∃ entry ∈ live, key entry = arg) :
    ¬ Holds array (unsetSpec (live.filter (key · ≠ arg)) args).1 := by
  intro hholds
  have hgone := (unsetSpec_sublist (live.filter (key · ≠ arg)) args).subset
  obtain ⟨entry, hentry, hkey⟩ := hlive
  rw [hholds.unique h] at hgone
  exact of_decide_eq_true (List.mem_filter.mp (hgone hentry)).2 hkey

/-- The loop does what it is for exactly when the lookup shows the arguments as they
are. -/
theorem unsetLoop_iff (hsub : live.Sublist env.entries)
    (hfuel : env.entries.length < fuel) (h : Holds array live)
    (hargs : ∀ arg ∈ args, nul ∉ arg) :
    (∃ array', unsetLoop fuel (snapshot env) args array =
        some (array', (unsetSpec live args).2) ∧ Holds array' (unsetSpec live args).1) ↔
      Shown env live args := by
  induction args generalizing array live with
  | nil => exact iff_of_true ⟨array, rfl, h⟩ trivial
  | cons arg args ih =>
      obtain ⟨hfound, hmissing⟩ := check_take maxBuffSize env.no_nul
        (hargs arg List.mem_cons_self)
      obtain ⟨array₁, hremove, h₁⟩ := removeEntry_live hsub hfuel h arg
      have ih := @ih array₁ (live.filter (key · ≠ arg)) (List.filter_sublist.trans hsub) h₁
        fun a ha => hargs a (List.mem_cons_of_mem arg ha)
      rw [← snapshot] at hfound hmissing
      rw [unsetSpec, Shown, unsetLoop_eq hremove]
      by_cases hlive : ∃ entry ∈ live, key entry = arg
      · rw [if_pos hlive, if_pos hlive, ← ih, ← hfound]
        match checkVariableExistence arg (snapshot env) with
        | none => exact iff_of_false nofun nofun
        | some true => rw [and_iff_right rfl]
        | some false =>
            refine iff_of_false ?_ nofun
            rintro ⟨array', heq, hholds⟩
            obtain ⟨rfl, -⟩ := Prod.mk.inj (Option.some.inj heq)
            exact not_holds_unsetSpec h hlive hholds
      · rw [if_neg hlive, if_neg hlive, ← hmissing]
        cases hcheck : checkVariableExistence arg (snapshot env) with
        | none => exact iff_of_false nofun nofun
        | some found =>
            cases found with
            | true =>
                refine iff_of_false ?_ nofun
                rintro ⟨array', heq, -⟩
                -- A later argument would have to be reported in its place.
                rw [unsetLoop_reports heq List.mem_cons_self] at hcheck
                cases hcheck
            | false => exact iff_of_true ⟨array, rfl, h⟩ rfl

/-- A history leads to an array with a part of the entries. -/
theorem runHistory_holds (hsub : live.Sublist env.entries)
    (hfuel : env.entries.length < fuel) (h : Holds array live) {envFile : Text}
    {history : List (List Text)}
    (hrun : runHistory fuel envFile history array = some array') :
    ∃ live', Holds array' live' ∧ live'.Sublist env.entries := by
  induction history generalizing array live with
  | nil =>
      obtain rfl := Option.some.inj hrun
      exact ⟨live, h, hsub⟩
  | cons args history ih =>
      rw [runHistory, Option.bind_eq_bind, Option.bind_eq_some_iff] at hrun
      obtain ⟨⟨array₁, out⟩, hargs, hrun⟩ := hrun
      have hfirst : ∃ live₁, Holds array₁ live₁ ∧ live₁.Sublist env.entries := by
        cases args with
        | nil =>
            obtain ⟨rfl, -⟩ := Prod.mk.inj (Option.some.inj hargs)
            exact ⟨live, h, hsub⟩
        | cons arg args => exact unsetLoop_holds hsub hfuel h hargs
      obtain ⟨live₁, h₁, hsub₁⟩ := hfirst
      exact ih hsub₁ h₁ hrun

theorem unsetsExactly_iff (hsub : live.Sublist env.entries)
    (hfuel : env.entries.length < fuel) (h : Holds array live)
    (hargs : ∀ arg ∈ args, nul ∉ arg) :
    UnsetsExactly fuel (snapshot env) array live args ↔ Shown env live args := by
  cases args with
  | nil => exact iff_of_true ⟨array, rfl, h⟩ trivial
  | cons arg args => exact unsetLoop_iff hsub hfuel h hargs

end Commands

/-- After every history of commands, `unsetenv` removes the named variables and reports
the first one that is not there exactly when the first `MAX_BUFF_SIZE` bytes of the
initial block show the arguments as they are. -/
theorem unsetenv_iff (env : Environment) {fuel : ℕ} (hfuel : env.entries.length < fuel)
    {start array : EnvArray} (hstart : Holds start env.entries)
    {history : List (List Text)}
    (hhistory : runHistory fuel (snapshot env) history start = some array)
    {live : List Text} (hlive : Holds array live) {args : List Text}
    (hargs : ∀ arg ∈ args, nul ∉ arg) :
    UnsetsExactly fuel (snapshot env) array live args ↔ Shown env live args := by
  obtain ⟨live', hlive', hsub⟩ :=
    runHistory_holds (List.Sublist.refl _) hfuel hstart hhistory
  obtain rfl := hlive.unique hlive'
  exact unsetsExactly_iff hsub hfuel hlive hargs

/-- The variable `X`. -/
def oneVariable : Environment where
  entries := ["X=1".toList]
  has_equal := by decide
  no_nul := by decide
  distinct := by decide

def oneEntry : EnvArray :=
  fun i => if i = 0 then some "X=1".toList else none

theorem oneEntry_holds : Holds oneEntry oneVariable.entries := by
  intro i hi
  cases i with
  | zero => rfl
  | succ i =>
      have hlen : i + 1 = 1 := Nat.le_antisymm hi (Nat.succ_pos i)
      rw [hlen]
      rfl

/-- Its name is found in the block. -/
theorem oneVariable_seen :
    checkVariableExistence "X".toList (snapshot oneVariable) = some true := by
  rw [checkVariableExistence, if_neg (by decide), if_pos (by decide)]

/-- The array after `unsetenv X`. -/
def afterUnset : EnvArray :=
  Function.update oneEntry 0 none

theorem unsetVariables_oneEntry :
    runHistory 2 (snapshot oneVariable) [["X".toList]] oneEntry = some afterUnset := by
  have hloop : unsetLoop 2 (snapshot oneVariable) ["X".toList] oneEntry =
      some (afterUnset, []) := by
    rw [unsetLoop, oneVariable_seen]
    rfl
  change (unsetLoop 2 (snapshot oneVariable) ["X".toList] oneEntry).bind _ = _
  rw [hloop]
  rfl

theorem afterUnset_holds : Holds afterUnset [] := by
  intro i hi
  rw [Nat.le_zero.mp hi]
  rfl

theorem unsetenv_iff_afterUnset :
    UnsetsExactly 2 (snapshot oneVariable) afterUnset [] ["X".toList] ↔
      Shown oneVariable [] ["X".toList] :=
  unsetenv_iff oneVariable (by decide) oneEntry_holds unsetVariables_oneEntry
    afterUnset_holds (by decide)

/-- `unsetenv X X` removes `X` once and does not report the second `X`. -/
theorem unsetenv_twice :
    Holds oneEntry oneVariable.entries ∧
      ¬ UnsetsExactly 2 (snapshot oneVariable) oneEntry oneVariable.entries
        ["X".toList, "X".toList] := by
  refine ⟨oneEntry_holds, fun h => ?_⟩
  rw [unsetsExactly_iff (List.Sublist.refl _) (by decide) oneEntry_holds (by decide)] at h
  have hvisible : Visible oneVariable.entries maxBuffSize "X".toList :=
    ⟨[], _, [], rfl, by decide, by decide⟩
  exact h.2.1 hvisible

end OsCoursework.Shell
