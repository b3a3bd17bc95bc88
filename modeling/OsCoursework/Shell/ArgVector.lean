import OsCoursework.Shell.Dispatch

/-!
# The argument vector

The array `args` of a command, which nothing initialises.  `_parseCommandLine` writes
the words of the line and a null pointer behind them, without a look at the size of
the array; the commands read it in their own orders.  A store outside of the array
and a load of an entry that was not written are faults.
-/

namespace OsCoursework.Shell

open OsCoursework.Words

/-! ## The array -/

inductive Entry where
  | unwritten
  | null
  | arg (word : Text)

inductive ArgFault where
  | overrun
  | unwritten

abbrev ArgVector := ℕ → Entry

def freshVector : ArgVector :=
  fun _ => .unwritten

def storeArg (args : ArgVector) (i : ℕ) (e : Entry) : Except ArgFault ArgVector :=
  if i < commandMaxArgs then .ok (Function.update args i e) else .error .overrun

/-- The pointer `args[i]`. -/
def loadArg (args : ArgVector) (i : ℕ) : Except ArgFault (Option Text) :=
  if i < commandMaxArgs then
    match args i with
    | .unwritten => .error .unwritten
    | .null => .ok none
    | .arg word => .ok (some word)
  else .error .overrun

/-- The loop of `_parseCommandLine`. -/
def storeWords : List Text → ℕ → ArgVector → Except ArgFault ArgVector
  | [], _, args => .ok args
  | word :: ws, i, args => do
      let args ← storeArg args i (.arg word)
      let args ← storeArg args (i + 1) .null
      storeWords ws (i + 1) args

/-- `_parseCommandLine` with a new array. -/
def parseInto (cmdLine : Text) : Except ArgFault ArgVector :=
  storeWords (parseCommandLine cmdLine) 0 freshVector

/-! ## What the commands read

An entry that was read before is not read again here.  `goesOn i` stands for what a
loop decides about `args[i]`, and `goesOn 0` for whether it is entered. -/

/-- `chprompt`, `alias` and `quit`. -/
def readFirst (args : ArgVector) : Except ArgFault Unit := do
  let _ ← loadArg args 1
  .ok ()

def readChangeDir (args : ArgVector) : Except ArgFault Unit := do
  match ← loadArg args 2 with
  | some _ => .ok ()
  | none => readFirst args

def readForeground (args : ArgVector) : Except ArgFault Unit := do
  match ← loadArg args 1 with
  | none => .ok ()
  | some _ => do
      let _ ← loadArg args 2
      .ok ()

def readKill (args : ArgVector) : Except ArgFault Unit := do
  match ← loadArg args 1 with
  | none => .ok ()
  | some _ =>
      match ← loadArg args 2 with
      | none => .ok ()
      | some _ => do
          let _ ← loadArg args 3
          .ok ()

/-- A loop `while (args[i] != nullptr)`; there are `room` entries from `args[i]` on. -/
def readLoop (goesOn : ℕ → Bool) (args : ArgVector) : ℕ → ℕ → Except ArgFault Unit
  | 0, _ => .error .overrun
  | room + 1, i => do
      match ← loadArg args i with
      | none => .ok ()
      | some _ => if goesOn i then readLoop goesOn args room (i + 1) else .ok ()

def readUnAlias (goesOn : ℕ → Bool) (args : ArgVector) : Except ArgFault Unit := do
  let _ ← loadArg args 1
  readLoop goesOn args (commandMaxArgs - 1) 1

def readUnSetEnv (goesOn : ℕ → Bool) (args : ArgVector) : Except ArgFault Unit := do
  match ← loadArg args 1 with
  | none => .ok ()
  | some _ =>
      if goesOn 0 then readLoop goesOn args (commandMaxArgs - 1) 1 else .ok ()

/-- `du` without an argument writes two entries itself. -/
def readDiskUsage (args : ArgVector) : Except ArgFault Unit := do
  let args ← (do
    match ← loadArg args 1 with
    | some _ => .ok args
    | none => do
        let args ← storeArg args 1 (.arg ".".toList)
        storeArg args 2 .null)
  match ← loadArg args 2 with
  | some _ => .ok ()
  | none => readFirst args

/-- The constructor and `execute` of a built-in command. -/
def readBuiltIn (goesOn : ℕ → Bool) (b : BuiltIn) (args : ArgVector) :
    Except ArgFault Unit :=
  match b with
  | .chprompt => readFirst args
  | .alias => readFirst args
  | .quit => readFirst args
  | .cd => readChangeDir args
  | .fg => readForeground args
  | .kill => readKill args
  | .unalias => readUnAlias goesOn args
  | .unsetenv => readUnSetEnv goesOn args
  | .du => readDiskUsage args
  | .showpid => .ok ()
  | .pwd => .ok ()
  | .jobs => .ok ()
  | .sysinfo => .ok ()
  | .whoami => .ok ()
  | .usbinfo => .ok ()

/-- The line that `ExternalCommand::execute` parses.  Where the removal of the sign
is undefined, the line is blank, and both ways to go on leave no word of it. -/
def strippedLine (base : CommandData) : Text :=
  (removeBackgroundSignConstant base.cmdStr).getD []

/-- `ExternalCommand::isComplex`. -/
def isComplex (base : CommandData) : Prop :=
  '?' ∈ base.cmdStr ∨ '*' ∈ base.cmdStr

instance (base : CommandData) : Decidable (isComplex base) :=
  inferInstanceAs (Decidable (_ ∨ _))

/-- `ExternalCommand::execute`; `execvp` reads the vector up to the null pointer. -/
def readExternal (base : CommandData) : Except ArgFault Unit :=
  if isComplex base then .ok ()
  else do
    let args ← parseInto (trim (strippedLine base))
    readLoop (fun _ => true) args commandMaxArgs 0

/-- The members that a command has as a `Command`. -/
def Command.base : Command → CommandData
  | .builtIn _ base => base
  | .pipe cmd => cmd.base
  | .redirection cmd => cmd.base
  | .external base _ => base

/-- All stores and loads of a command, from its constructor to the end of its
`execute`. -/
def accessArgs (goesOn : ℕ → Bool) (cmd : Command) : Except ArgFault Unit := do
  let args ← parseInto cmd.base.cmdStr
  match cmd with
  | .builtIn b _ => readBuiltIn goesOn b args
  | .pipe _ => .ok ()
  | .redirection _ => .ok ()
  | .external base _ => readExternal base

/-! ## The parser -/

/-- The array that holds some words and the null pointer, if there is a word. -/
def vectorOf (ws : List Text) : ArgVector := fun i =>
  match ws[i]? with
  | some word => .arg word
  | none => if i = ws.length ∧ ws ≠ [] then .null else .unwritten

variable {args args' : ArgVector} {ws : List Text} {i : ℕ}

theorem vectorOf_nil : vectorOf [] = freshVector := by
  funext i
  rw [vectorOf, List.getElem?_nil, freshVector]
  exact if_neg fun h => h.2 rfl

/-- One more word. -/
theorem vectorOf_concat (ws : List Text) (word : Text) :
    Function.update (Function.update (vectorOf ws) ws.length (.arg word))
      (ws.length + 1) .null = vectorOf (ws ++ [word]) := by
  funext i
  rcases Nat.lt_trichotomy i ws.length with hlt | rfl | hgt
  · rw [Function.update_of_ne (by omega), Function.update_of_ne (by omega), vectorOf,
      vectorOf, List.getElem?_append_left hlt, List.getElem?_eq_getElem hlt]
  · rw [Function.update_of_ne (by omega), Function.update_self, vectorOf,
      List.getElem?_concat_length]
  · have hnone : (ws ++ [word])[i]? = none := by
      rw [List.getElem?_eq_none_iff, List.length_append, List.length_singleton]
      omega
    rw [vectorOf, hnone, List.length_append, List.length_singleton]
    rcases Nat.lt_or_ge (ws.length + 1) i with hgt' | hle
    · have hnone' : ws[i]? = none := List.getElem?_eq_none_iff.mpr hgt.le
      rw [Function.update_of_ne (by omega), Function.update_of_ne (by omega), vectorOf,
        hnone']
      dsimp only
      rw [if_neg (by omega), if_neg (by omega)]
    · have heq : i = ws.length + 1 := by omega
      rw [heq, Function.update_self]
      exact (if_pos ⟨rfl, by simp⟩).symm

theorem storeArg_of_lt (args : ArgVector) (e : Entry) (h : i < commandMaxArgs) :
    storeArg args i e = .ok (Function.update args i e) :=
  if_pos h

theorem storeArg_of_ge (args : ArgVector) (e : Entry) (h : commandMaxArgs ≤ i) :
    storeArg args i e = .error .overrun :=
  if_neg (Nat.not_lt.mpr h)

/-- The parser stores the words and the null pointer if there is room for them. -/
theorem storeWords_eq (ws done : List Text) :
    storeWords ws done.length (vectorOf done) =
      if ws = [] ∨ done.length + ws.length < commandMaxArgs then
        .ok (vectorOf (done ++ ws))
      else .error .overrun := by
  induction ws generalizing done with
  | nil => rw [storeWords, if_pos (Or.inl rfl), List.append_nil]
  | cons word ws ih =>
      rw [storeWords]
      rcases Nat.lt_or_ge (done.length + 1) commandMaxArgs with hroom | hfull
      · have hnext := ih (done ++ [word])
        rw [List.length_append, List.length_singleton, List.append_assoc] at hnext
        rw [storeArg_of_lt _ _ (by omega)]
        change (storeArg _ _ _).bind _ = _
        rw [storeArg_of_lt _ _ hroom]
        change storeWords ws (done.length + 1) _ = _
        rw [vectorOf_concat, hnext, List.singleton_append]
        congr 1
        rw [List.length_cons, eq_iff_iff]
        constructor
        · rintro (rfl | hlt)
          · exact Or.inr hroom
          · exact Or.inr (by omega)
        · rintro (hnil | hlt)
          · cases hnil
          · exact Or.inr (by omega)
      · have hno : ¬ (word :: ws = [] ∨ done.length + (word :: ws).length <
            commandMaxArgs) := by
          rintro (hnil | hlt)
          · cases hnil
          · rw [List.length_cons] at hlt
            omega
        rw [if_neg hno]
        rcases Nat.lt_or_ge done.length commandMaxArgs with hlt | hge
        · rw [storeArg_of_lt _ _ hlt]
          change (storeArg _ _ _).bind _ = _
          rw [storeArg_of_ge _ _ hfull]
          rfl
        · rw [storeArg_of_ge _ _ hge]
          rfl

theorem parseInto_eq (cmdLine : Text) :
    parseInto cmdLine = if FewWords cmdLine then .ok (vectorOf (parseCommandLine cmdLine))
      else .error .overrun := by
  have hstore := storeWords_eq (parseCommandLine cmdLine) []
  rw [List.length_nil, vectorOf_nil, Nat.zero_add, List.nil_append] at hstore
  have hiff : parseCommandLine cmdLine = [] ∨
      (parseCommandLine cmdLine).length < commandMaxArgs ↔ FewWords cmdLine := by
    refine ⟨fun h => ?_, Or.inr⟩
    rcases h with hnil | hlt
    · rw [FewWords, hnil]
      decide
    · exact hlt
  rw [parseInto, hstore]
  by_cases hfew : FewWords cmdLine
  · rw [if_pos hfew, if_pos (hiff.mpr hfew)]
  · rw [if_neg hfew, if_neg fun h => hfew (hiff.mp h)]

/-- The constructor of `Command` is undefined exactly where the parser leaves the
array. -/
theorem newCommand_eq_none_iff (cmdLine : Text) :
    newCommand cmdLine = none ↔ parseInto cmdLine = .error .overrun := by
  rw [parseInto_eq, newCommand]
  by_cases hfew : FewWords cmdLine
  · rw [if_pos hfew, if_pos hfew]
    exact iff_of_false (fun h => by cases h) fun h => by cases h
  · rw [if_neg hfew, if_neg hfew]
    exact iff_of_true rfl rfl

/-! ## Loads -/

section Loads

variable (hfew : ws.length < commandMaxArgs)
include hfew

/-- What the parser has written is what the list of words says. -/
theorem loadArg_vectorOf (hne : ws ≠ []) (hi : i ≤ ws.length) :
    loadArg (vectorOf ws) i = .ok ws[i]? := by
  rw [loadArg, if_pos (hi.trans_lt hfew), vectorOf]
  cases hget : ws[i]? with
  | some word => rfl
  | none =>
      have heq : i = ws.length := Nat.le_antisymm hi (List.getElem?_eq_none_iff.mp hget)
      rw [if_pos ⟨heq, hne⟩]

omit hfew in
theorem loadArg_unwritten (hi : ws.length < i) (hlt : i < commandMaxArgs) :
    loadArg (vectorOf ws) i = .error .unwritten := by
  have hget : ws[i]? = none := List.getElem?_eq_none_iff.mpr hi.le
  rw [loadArg, if_pos hlt, vectorOf, hget]
  dsimp only
  rw [if_neg fun h => hi.ne' h.1]

omit hfew in
/-- Without a word nothing is written. -/
theorem loadArg_nil (hlt : i < commandMaxArgs) :
    loadArg (vectorOf []) i = .error .unwritten := by
  rw [vectorOf_nil, loadArg, if_pos hlt]
  rfl

theorem readFirst_ok (hne : ws ≠ []) : readFirst (vectorOf ws) = .ok () := by
  rw [readFirst, loadArg_vectorOf hfew hne (List.length_pos_of_ne_nil hne)]
  rfl

theorem readChangeDir_iff :
    readChangeDir (vectorOf ws) = .ok () ↔ 2 ≤ ws.length := by
  rw [readChangeDir]
  rcases Nat.lt_or_ge ws.length 2 with hlt | hge
  · rw [loadArg_unwritten hlt (by decide)]
    exact iff_of_false nofun (Nat.not_le.mpr hlt)
  · have hne : ws ≠ [] := by
      rintro rfl
      exact absurd hge (by decide)
    rw [loadArg_vectorOf hfew hne hge]
    refine iff_of_true ?_ hge
    cases ws[2]? with
    | some word => rfl
    | none => exact readFirst_ok hfew hne

theorem readForeground_ok (hne : ws ≠ []) : readForeground (vectorOf ws) = .ok () := by
  rw [readForeground, loadArg_vectorOf hfew hne (List.length_pos_of_ne_nil hne)]
  cases hfirst : ws[1]? with
  | none => rfl
  | some word =>
      obtain ⟨hlen, -⟩ := List.getElem?_eq_some_iff.mp hfirst
      change (loadArg _ 2).bind _ = _
      rw [loadArg_vectorOf hfew hne hlen]
      rfl

theorem readKill_ok (hne : ws ≠ []) : readKill (vectorOf ws) = .ok () := by
  rw [readKill, loadArg_vectorOf hfew hne (List.length_pos_of_ne_nil hne)]
  cases hfirst : ws[1]? with
  | none => rfl
  | some word =>
      obtain ⟨hlen, -⟩ := List.getElem?_eq_some_iff.mp hfirst
      change (loadArg _ 2).bind _ = _
      rw [loadArg_vectorOf hfew hne hlen]
      cases hsecond : ws[2]? with
      | none => rfl
      | some word =>
          obtain ⟨hlen, -⟩ := List.getElem?_eq_some_iff.mp hsecond
          change (loadArg _ 3).bind _ = _
          rw [loadArg_vectorOf hfew hne hlen]
          rfl

/-- A loop that starts at a written entry ends at the null pointer at the latest. -/
theorem readLoop_ok (goesOn : ℕ → Bool) (hne : ws ≠ []) {room : ℕ}
    (hroom : i + room = commandMaxArgs) (hi : i ≤ ws.length) :
    readLoop goesOn (vectorOf ws) room i = .ok () := by
  induction room generalizing i with
  | zero => exact absurd hroom (by omega)
  | succ room ih =>
      rw [readLoop, loadArg_vectorOf hfew hne hi]
      cases hget : ws[i]? with
      | none => rfl
      | some word =>
          obtain ⟨hlen, -⟩ := List.getElem?_eq_some_iff.mp hget
          have hrest := ih (by omega) hlen
          change (if goesOn i then readLoop goesOn (vectorOf ws) room (i + 1)
            else .ok ()) = .ok ()
          split
          · exact hrest
          · rfl

theorem readDiskUsage_ok (hne : ws ≠ []) : readDiskUsage (vectorOf ws) = .ok () := by
  rw [readDiskUsage, loadArg_vectorOf hfew hne (List.length_pos_of_ne_nil hne)]
  cases hfirst : ws[1]? with
  | none => rfl
  | some word =>
      obtain ⟨hlen, -⟩ := List.getElem?_eq_some_iff.mp hfirst
      change (loadArg (vectorOf ws) 2).bind _ = _
      rw [loadArg_vectorOf hfew hne hlen]
      cases ws[2]? with
      | some word => rfl
      | none => exact readFirst_ok hfew hne

end Loads

/-! ## Commands -/

/-- How many words a built-in command relies on. -/
def wordsRead : BuiltIn → ℕ
  | .cd => 2
  | .showpid => 0
  | .pwd => 0
  | .jobs => 0
  | .sysinfo => 0
  | .whoami => 0
  | .usbinfo => 0
  | _ => 1

/-- With room for the line, a built-in command reads what was written exactly when
there are as many words as it relies on. -/
theorem readBuiltIn_iff (hfew : ws.length < commandMaxArgs) (goesOn : ℕ → Bool)
    (b : BuiltIn) :
    readBuiltIn goesOn b (vectorOf ws) = .ok () ↔ wordsRead b ≤ ws.length := by
  have hone : ∀ read : ArgVector → Except ArgFault Unit,
      (ws ≠ [] → read (vectorOf ws) = .ok ()) → read (vectorOf []) ≠ .ok () →
      (read (vectorOf ws) = .ok () ↔ 1 ≤ ws.length) := by
    intro read hok hnil
    by_cases hne : ws = []
    · rw [hne]
      exact iff_of_false hnil (by decide)
    · exact iff_of_true (hok hne) (List.length_pos_of_ne_nil hne)
  have hunwritten : loadArg (vectorOf []) 1 = .error .unwritten :=
    loadArg_nil (by decide)
  have hfirst : readFirst (vectorOf ws) = .ok () ↔ 1 ≤ ws.length :=
    hone readFirst (readFirst_ok hfew) (by rw [readFirst, hunwritten]; nofun)
  have hloop : ws ≠ [] →
      readLoop goesOn (vectorOf ws) (commandMaxArgs - 1) 1 = .ok () := fun hne =>
    readLoop_ok hfew goesOn hne (by decide) (List.length_pos_of_ne_nil hne)
  match b with
  | .chprompt => exact hfirst
  | .alias => exact hfirst
  | .quit => exact hfirst
  | .cd => exact readChangeDir_iff hfew
  | .fg =>
      exact hone readForeground (readForeground_ok hfew)
        (by rw [readForeground, hunwritten]; nofun)
  | .kill =>
      exact hone readKill (readKill_ok hfew) (by rw [readKill, hunwritten]; nofun)
  | .du =>
      exact hone readDiskUsage (readDiskUsage_ok hfew)
        (by rw [readDiskUsage, hunwritten]; nofun)
  | .unalias =>
      refine hone (readUnAlias goesOn) (fun hne => ?_)
        (by rw [readUnAlias, hunwritten]; nofun)
      rw [readUnAlias, loadArg_vectorOf hfew hne (List.length_pos_of_ne_nil hne)]
      exact hloop hne
  | .unsetenv =>
      refine hone (readUnSetEnv goesOn) (fun hne => ?_)
        (by rw [readUnSetEnv, hunwritten]; nofun)
      rw [readUnSetEnv, loadArg_vectorOf hfew hne (List.length_pos_of_ne_nil hne)]
      cases ws[1]? with
      | none => rfl
      | some word =>
          change (if goesOn 0 then _ else _) = _
          split
          · exact hloop hne
          · rfl
  | .showpid => exact iff_of_true rfl (Nat.zero_le _)
  | .pwd => exact iff_of_true rfl (Nat.zero_le _)
  | .jobs => exact iff_of_true rfl (Nat.zero_le _)
  | .sysinfo => exact iff_of_true rfl (Nat.zero_le _)
  | .whoami => exact iff_of_true rfl (Nat.zero_le _)
  | .usbinfo => exact iff_of_true rfl (Nat.zero_le _)

/-- The line of an external command has room in its array and a word for `execvp`,
unless a shell gets it. -/
def ExternalFits (base : CommandData) : Prop :=
  isComplex base ∨
    FewWords (strippedLine base) ∧ parseCommandLine (strippedLine base) ≠ []

theorem parseCommandLine_trim (line : Text) :
    parseCommandLine (trim line) = parseCommandLine line := by
  rw [parseCommandLine, parseCommandLine, trim_eq, trim_eq, words_trim, words_trim]

theorem parseInto_trim (line : Text) : parseInto (trim line) = parseInto line := by
  rw [parseInto, parseInto, parseCommandLine_trim]

theorem readExternal_iff (base : CommandData) :
    readExternal base = .ok () ↔ ExternalFits base := by
  rw [readExternal, ExternalFits]
  by_cases hcomplex : isComplex base
  · rw [if_pos hcomplex]
    exact iff_of_true rfl (Or.inl hcomplex)
  rw [if_neg hcomplex, parseInto_trim, parseInto_eq]
  by_cases hfew : FewWords (strippedLine base)
  · rw [if_pos hfew]
    change readLoop _ (vectorOf (parseCommandLine (strippedLine base))) _ 0 = _ ↔ _
    by_cases hne : parseCommandLine (strippedLine base) = []
    · rw [hne, commandMaxArgs, readLoop, loadArg_nil (by decide)]
      refine iff_of_false nofun ?_
      rintro (h | ⟨-, h⟩)
      · exact hcomplex h
      · exact h rfl
    · exact iff_of_true (readLoop_ok hfew _ hne rfl (Nat.zero_le _)) (Or.inr ⟨hfew, hne⟩)
  · rw [if_neg hfew]
    refine iff_of_false nofun ?_
    rintro (h | ⟨h, -⟩)
    · exact hcomplex h
    · exact hfew h

/-- A command stores into its array only, and reads only what was written there. -/
def Disciplined (cmd : Command) : Prop :=
  ∀ goesOn, accessArgs goesOn cmd = .ok ()

/-- What a command needs of its line beside the room. -/
def WordsSuffice : Command → Prop
  | .builtIn b base => wordsRead b ≤ (parseCommandLine base.cmdStr).length
  | .external base _ => ExternalFits base
  | _ => True

theorem accessArgs_iff (cmd : Command) (goesOn : ℕ → Bool) :
    accessArgs goesOn cmd = .ok () ↔ FewWords cmd.base.cmdStr ∧ WordsSuffice cmd := by
  rw [accessArgs, parseInto_eq]
  by_cases hfew : FewWords cmd.base.cmdStr
  · rw [if_pos hfew, and_iff_right hfew]
    cases cmd with
    | builtIn b base => exact readBuiltIn_iff hfew goesOn b
    | pipe cmd => exact iff_of_true rfl trivial
    | redirection cmd => exact iff_of_true rfl trivial
    | external base unchanged => exact readExternal_iff base
  · rw [if_neg hfew]
    exact iff_of_false nofun fun h => hfew h.1

/-- Whatever the line, the accesses of a command to its argument vector are in order
exactly when the vector has room for the line and the line has the words that the
command relies on. -/
theorem disciplined_iff (cmd : Command) :
    Disciplined cmd ↔ FewWords cmd.base.cmdStr ∧ WordsSuffice cmd :=
  ⟨fun h => (accessArgs_iff cmd fun _ => true).mp (h _),
    fun h goesOn => (accessArgs_iff cmd goesOn).mpr h⟩

/-- A line of twenty words. -/
def twentyWords : Text :=
  (List.replicate 20 ['a', ' ']).flatten

/-- The lines `cd` and `&` have too few words, and twenty are too many: the constructor
of the external command leaves the array. -/
theorem undisciplined_lines :
    (createCommand [] "cd".toList [] = some (.builtIn .cd (command "cd".toList)) ∧
      ¬ Disciplined (.builtIn .cd (command "cd".toList))) ∧
    (createCommand [] "&".toList [] = some (.external (command "&".toList) []) ∧
      ¬ Disciplined (.external (command "&".toList) [])) ∧
    (classify [] twentyWords = .external ∧ constructorLine [] twentyWords = twentyWords ∧
      ¬ Disciplined (.external (command twentyWords) [])) := by
  have hcd : ¬ wordsRead .cd ≤ (parseCommandLine "cd".toList).length := by decide +kernel
  have hsign : ¬ (isComplex (command "&".toList) ∨
      FewWords (strippedLine (command "&".toList)) ∧
        parseCommandLine (strippedLine (command "&".toList)) ≠ []) := by decide +kernel
  have hmany : ¬ FewWords twentyWords := by decide +kernel
  refine ⟨⟨by decide +kernel, fun h => ?_⟩, ⟨by decide +kernel, fun h => ?_⟩,
    ⟨by decide +kernel, by decide +kernel, fun h => ?_⟩⟩
  · exact hcd ((accessArgs_iff _ _).mp (h fun _ => true)).2
  · exact hsign ((accessArgs_iff _ _).mp (h fun _ => true)).2
  · exact hmany ((accessArgs_iff _ _).mp (h fun _ => true)).1

end OsCoursework.Shell
