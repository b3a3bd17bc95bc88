import OsCoursework.Shell.Dispatch

/-!
# The word that a command is chosen by

`CreateCommand` compares the names of the built-in commands with the text up to the
first space or newline, while `_parseCommandLine` also ends a word at the other
characters of `WHITESPACE`.  A name in front of a tab is not found.
-/

namespace OsCoursework.Shell

open OsCoursework.Words

/-! ## The comparisons -/

/-- All comparisons of `CreateCommand` with a first word. -/
def chain : List (String × BuiltIn) :=
  [("chprompt", .chprompt), ("chprompt&", .chprompt), ("alias", .alias),
    ("alias&", .alias)] ++ builtInNames

theorem chain_no_space : ∀ pair ∈ chain, ∀ c ∈ pair.1.toList, isSpace c = false := by
  have hall : ∀ pair ∈ chain, pair.1.toList.all (!isSpace ·) = true := by decide +kernel
  intro pair hpair c hc
  have hspace := List.all_eq_true.mp (hall pair hpair) c hc
  rwa [Bool.not_eq_true'] at hspace

theorem chain_find : ∀ pair ∈ chain,
    chain.find? (pair.1.toList = ·.1.toList) = some pair := by
  decide +kernel

/-- Only the last character of a name can be the sign. -/
theorem chain_sign : ∀ pair ∈ chain,
    '&' ∉ pair.1.toList.dropLast ∧ pair.1.toList.dropLast ≠ [] := by
  decide +kernel

/-- Without the two signs, the comparisons decide. -/
theorem kindOf_eq {s : Text} (hpipe : '|' ∉ s) (hredirection : '>' ∉ s) :
    kindOf s = match chain.find? (firstWord s = ·.1.toList) with
      | some (_, b) => .builtIn b
      | none => .external := by
  have hdouble : ¬ ['>', '>'] <:+: s := fun h =>
    hredirection (h.subset List.mem_cons_self)
  rw [kindOf, if_neg hpipe, if_neg (not_or.mpr ⟨hredirection, hdouble⟩)]
  by_cases hchprompt : firstWord s = "chprompt".toList ∨ firstWord s = "chprompt&".toList
  · rw [if_pos hchprompt]
    rcases hchprompt with heq | heq
    · rw [heq]
      rfl
    · rw [heq]
      rfl
  rw [if_neg hchprompt]
  by_cases halias : firstWord s = "alias".toList ∨ firstWord s = "alias&".toList
  · rw [if_pos halias]
    rcases halias with heq | heq
    · rw [heq]
      rfl
    · rw [heq]
      rfl
  rw [if_neg halias]
  rw [not_or] at hchprompt halias
  have hskip : ∀ (name : String) (b : BuiltIn) (rest : List (String × BuiltIn)),
      ¬ firstWord s = name.toList → ((name, b) :: rest).find?
        (firstWord s = ·.1.toList) = rest.find? (firstWord s = ·.1.toList) := by
    intro name b rest hne
    exact List.find?_cons_of_neg (by simpa using hne)
  have hfind : chain.find? (firstWord s = ·.1.toList) =
      builtInNames.find? (firstWord s = ·.1.toList) :=
    (hskip _ _ _ hchprompt.1).trans <| (hskip _ _ _ hchprompt.2).trans <|
      (hskip _ _ _ halias.1).trans (hskip _ _ _ halias.2)
  exact congrArg (fun found : Option (String × BuiltIn) => match found with
    | some (_, b) => Kind.builtIn b
    | none => .external) hfind.symm

/-! ## The line -/

/-- A line whose first word is in the chain and no alias, without the two signs. -/
structure BuiltInLine (t : AliasTable) (line : Text) (b : BuiltIn) : Prop where
  name : ∃ pair ∈ chain, pair.2 = b ∧ pair.1.toList = word isSpace line
  no_alias : lookup t (word isSpace line) = none
  no_pipe : '|' ∉ line
  no_redirection : '>' ∉ line

/-- The first word is the last one, or a space or a newline comes behind it. -/
def Separated (line : Text) : Prop :=
  Blank isSpace (afterWord isSpace line) ∨
    (afterWord isSpace line).head? = some ' ' ∨
    (afterWord isSpace line).head? = some '\n'

instance (line : Text) : Decidable (Separated line) :=
  inferInstanceAs (Decidable (_ ∨ _ ∨ _))

variable {t : AliasTable} {line : Text} {b : BuiltIn}

/-- A line is trimmed in front of its first word and behind its last one. -/
theorem trim_eq_word (h : ¬ Blank isSpace line) :
    trim line = word isSpace line ++ (afterWord isSpace line).rdropWhile isSpace := by
  have hsplit : line.dropWhile isSpace = word isSpace line ++ afterWord isSpace line :=
    List.takeWhile_append_dropWhile.symm
  rw [trim_eq, Words.trim, hsplit]
  by_cases hrest : Blank isSpace (afterWord isSpace line)
  · have hword := (isWord_word h).trim_eq
    rw [Words.trim, (isWord_word h).dropWhile_eq] at hword
    rw [rdropWhile_append_of_blank _ hrest, hword,
      List.rdropWhile_eq_nil_iff.mpr hrest, List.append_nil]
  · exact rdropWhile_append_of_not_blank _ hrest

/-- The text that is compared starts with the first word of the line. -/
theorem firstWord_trim (h : ¬ Blank isSpace line) :
    firstWord (trim line) = word isSpace line ++
      firstWord ((afterWord isSpace line).rdropWhile isSpace) := by
  have hall : ∀ c ∈ word isSpace line, (c ≠ ' ' && c ≠ '\n') = true := by
    intro c hc
    have hspace := not_mem_word hc
    rw [Bool.and_eq_true, decide_eq_true_eq, decide_eq_true_eq]
    constructor
    · rintro rfl
      cases hspace
    · rintro rfl
      cases hspace
  rw [trim_eq_word h, firstWord, List.takeWhile_append_of_pos hall, firstWord]

/-- The comparison is with the first word exactly when that is separated. -/
theorem firstWord_eq_iff (h : ¬ Blank isSpace line) :
    (firstWord (trim line) = word isSpace line ↔ Separated line) ∧
      (¬ Separated line → ∃ c ∈ firstWord (trim line), isSpace c = true) := by
  have hstops := stops_afterWord isSpace line
  rw [firstWord_trim h, List.append_right_eq_self, Separated]
  cases hrest : (afterWord isSpace line).rdropWhile isSpace with
  | nil =>
      have hblank := List.rdropWhile_eq_nil_iff.mp hrest
      exact ⟨iff_of_true rfl (Or.inl hblank), fun hno => absurd (Or.inl hblank) hno⟩
  | cons c rest =>
      have hnot : ¬ Blank isSpace (afterWord isSpace line) := by
        intro hblank
        rw [List.rdropWhile_eq_nil_iff.mpr hblank] at hrest
        cases hrest
      have hhead : (afterWord isSpace line).head? = some c := by
        obtain ⟨tail, hsplit, -⟩ := exists_rdropWhile isSpace (afterWord isSpace line)
        rw [hsplit, hrest]
        rfl
      have hspace : isSpace c = true := hstops c hhead
      rw [hhead]
      simp only [Option.some.injEq, hnot, false_or]
      by_cases hc : c = ' ' ∨ c = '\n'
      · refine ⟨iff_of_true ?_ hc, fun hno => absurd hc hno⟩
        rw [firstWord, List.takeWhile_cons_of_neg]
        rcases hc with rfl | rfl
        · decide
        · decide
      · rw [not_or] at hc
        have hfirst : firstWord (c :: rest) = c :: firstWord rest := by
          rw [firstWord, List.takeWhile_cons_of_pos (by simp [hc.1, hc.2]), firstWord]
        rw [hfirst]
        refine ⟨iff_of_false nofun (not_or.mpr hc), fun _ => ⟨c, ?_, hspace⟩⟩
        exact List.mem_append_right _ List.mem_cons_self

/-- A first word with a blank in it is in no comparison. -/
theorem chain_find_none {w : Text} {c : Char} (hc : c ∈ w) (hspace : isSpace c = true) :
    chain.find? (w = ·.1.toList) = none := by
  rw [List.find?_eq_none]
  intro pair hpair heq
  rw [decide_eq_true_eq] at heq
  have hno := chain_no_space pair hpair c (heq ▸ hc)
  rw [hspace] at hno
  cases hno

namespace BuiltInLine

theorem not_blank (h : BuiltInLine t line b) : ¬ Blank isSpace line := by
  intro hblank
  obtain ⟨pair, hpair, -, hname⟩ := h.name
  have hne := (chain_sign pair hpair).2
  rw [hname, word_eq_nil_iff.mpr hblank] at hne
  exact hne rfl

theorem convert (h : BuiltInLine t line b) : convertAliasToOriginal t line = line := by
  rw [convertAliasToOriginal, h.no_alias]

theorem classify_eq (h : BuiltInLine t line b) :
    classify t line = if Separated line then .builtIn b else .external := by
  obtain ⟨pair, hpair, hb, hname⟩ := h.name
  have hpipe : '|' ∉ trim line := fun hmem => h.no_pipe ((trim_sublist line).subset hmem)
  have hredirection : '>' ∉ trim line := fun hmem =>
    h.no_redirection ((trim_sublist line).subset hmem)
  obtain ⟨hiff, hspace⟩ := firstWord_eq_iff h.not_blank
  rw [classify, h.convert, kindOf_eq hpipe hredirection]
  by_cases hsep : Separated line
  · rw [if_pos hsep, hiff.mpr hsep, ← hname, chain_find pair hpair, ← hb]
  · obtain ⟨c, hc, hcspace⟩ := hspace hsep
    rw [if_neg hsep, chain_find_none hc hcspace]

end BuiltInLine

/-! ## The first argument -/

/-- The constructor takes the sign at the end of the first word for the background
sign. -/
def SignTaken (line : Text) : Prop :=
  (word isSpace line).getLast? = some '&' ∧
    toUnsigned (findLastNotOf line) + 1 =
      (lead isSpace line).length + (word isSpace line).length

instance (line : Text) : Decidable (SignTaken line) :=
  inferInstanceAs (Decidable (_ ∧ _))

/-- This concerns only the names that the chain has with a sign. -/
theorem not_signTaken_of_plain (h : '&' ∉ word isSpace line) : ¬ SignTaken line :=
  fun htaken => h (List.mem_of_getLast? htaken.1)

/-- The first argument of a command is the first word of its line. -/
theorem args_zero_iff {w : Text} (hw : w ≠ []) :
    (command line).args[0]? = some w ↔ word isSpace line = w := by
  change (parseCommandLine line)[0]? = some w ↔ _
  rw [parseCommandLine, trim_eq, words_trim]
  by_cases hblank : Blank isSpace line
  · rw [words_eq_nil hblank, word_eq_nil_iff.mpr hblank]
    exact iff_of_false nofun hw.symm
  · rw [words_eq_cons hblank]
    exact Option.some_inj

section Cut

variable {pre w rest : Text} {idx : ℕ}

/-- The word of a line that is cut behind it. -/
theorem word_take (hpre : Blank isSpace pre) (hw : IsWord isSpace w)
    (hrest : Stops isSpace rest) (hidx : pre.length + w.length ≤ idx) :
    word isSpace (rtrim ((pre ++ (w ++ rest)).take idx)) = w := by
  obtain ⟨k, rfl⟩ := Nat.exists_eq_add_of_le hidx
  have hstops : Stops isSpace (rest.take k) := by
    intro c hc
    rw [List.head?_take] at hc
    split at hc
    · cases hc
    · exact hrest c hc
  rw [Nat.add_assoc, List.take_length_add_append, List.take_length_add_append, rtrim_eq,
    word_rdropWhile, (parts_eq hpre hw hstops).2.1]

/-- In front of the end of the first word, the only sign is its last character. -/
theorem getElem?_sign (rest : Text) (hpre : Blank isSpace pre) (hsign : '&' ∉ w.dropLast)
    (hidx : idx < pre.length + w.length) :
    (pre ++ (w ++ rest))[idx]? = some '&' ↔
      w.getLast? = some '&' ∧ idx + 1 = pre.length + w.length := by
  rw [← List.append_assoc, List.getElem?_append_left (by rwa [List.length_append])]
  rcases Nat.lt_or_ge idx pre.length with hlt | hge
  · rw [List.getElem?_append_left hlt]
    refine iff_of_false (fun hget => ?_) ?_
    · cases hpre _ (List.mem_of_getElem? hget)
    · rintro ⟨hlast, hidx'⟩
      have hnil : w = [] := List.eq_nil_of_length_eq_zero (by omega)
      rw [hnil] at hlast
      cases hlast
  · rw [List.getElem?_append_right hge]
    rcases Nat.lt_or_ge (idx + 1) (pre.length + w.length) with hlt | hge'
    · refine iff_of_false (fun hget => hsign ?_) (fun h => absurd h.2 hlt.ne)
      rw [List.dropLast_eq_take]
      apply List.mem_of_getElem?
      have hlt' : idx - pre.length < w.length - 1 := by omega
      rw [List.getElem?_take_of_lt hlt']
      exact hget
    · have hpos : idx - pre.length = w.length - 1 := by omega
      rw [hpos, ← List.getLast?_eq_getElem?]
      exact ⟨fun hlast => ⟨hlast, by omega⟩, And.left⟩

/-- A cut at the last character of a word that is a sign loses it. -/
theorem word_take_ne (rest : Text) (hpre : Blank isSpace pre) (hsign : '&' ∉ w.dropLast)
    (hlast : w.getLast? = some '&') (hidx : idx + 1 = pre.length + w.length) :
    word isSpace (rtrim ((pre ++ (w ++ rest)).take idx)) ≠ w := by
  intro heq
  have hmem : '&' ∈ (pre ++ (w ++ rest)).take idx := by
    have hword : '&' ∈ word isSpace (rtrim ((pre ++ (w ++ rest)).take idx)) := by
      rw [heq]
      exact List.mem_of_getLast? hlast
    rw [rtrim_eq, word_rdropWhile, word] at hword
    exact (List.dropWhile_sublist _).subset ((List.takeWhile_sublist _).subset hword)
  have hle : pre.length ≤ idx := by
    by_contra hlt
    have hnil : w = [] := List.eq_nil_of_length_eq_zero (by omega)
    rw [hnil] at hlast
    cases hlast
  have htake : (pre ++ (w ++ rest)).take idx = pre ++ w.dropLast := by
    obtain ⟨k, rfl⟩ := Nat.exists_eq_add_of_le hle
    rw [List.take_length_add_append, List.take_append_of_le_length (by omega),
      List.dropLast_eq_take]
    congr 2
    omega
  rw [htake, List.mem_append] at hmem
  rcases hmem with hmem | hmem
  · cases hpre _ hmem
  · exact hsign hmem

end Cut

/-- The first word survives the removal of the sign unless it ends with it. -/
theorem word_removed_iff {line' : Text} (h : ¬ Blank isSpace line)
    (hsign : '&' ∉ (word isSpace line).dropLast)
    (hline' : removeBackgroundSignConstant line = some line') :
    word isSpace line' = word isSpace line ↔ ¬ SignTaken line := by
  obtain ⟨front, c, post, -, -, -, hlast⟩ := exists_of_not_blank h
  rw [removeBackgroundSignConstant_eq hlast, Option.some.injEq] at hline'
  rw [SignTaken, hlast, toUnsigned, Option.getD_some]
  have hpre : Blank isSpace (lead isSpace line) := blank_lead line
  have hsplit := lead_append isSpace line
  by_cases hlt : front.length % 2 ^ 32 <
      (lead isSpace line).length + (word isSpace line).length
  · have hget := getElem?_sign (afterWord isSpace line) hpre hsign hlt
    rw [hsplit] at hget
    by_cases htaken : (word isSpace line).getLast? = some '&' ∧
        front.length % 2 ^ 32 + 1 =
          (lead isSpace line).length + (word isSpace line).length
    · have hlose := word_take_ne (afterWord isSpace line) hpre hsign htaken.1 htaken.2
      rw [hsplit] at hlose
      rw [if_pos (hget.mpr htaken)] at hline'
      rw [← hline']
      exact iff_of_false hlose fun hno => hno htaken
    · rw [if_neg fun hsignat => htaken (hget.mp hsignat)] at hline'
      rw [← hline']
      exact iff_of_true rfl htaken
  · have hcut := word_take hpre (isWord_word h) (stops_afterWord isSpace line)
      (Nat.le_of_not_lt hlt)
    rw [hsplit] at hcut
    refine iff_of_true ?_ fun htaken => hlt (by omega)
    split at hline'
    · rw [← hline', hcut]
    · rw [← hline']

/-! ## What is created -/

/-- The built-in command of the first word is created, and the text that was compared
is its first argument. -/
def DispatchAgrees (t : AliasTable) (line unchanged : Text) (b : BuiltIn) : Prop :=
  ∃ cmd, createCommand t line unchanged = some (.builtIn b cmd) ∧
    cmd.args[0]? = some (firstWord (trim (convertAliasToOriginal t line)))

/-- The argument array has room for the line that the constructor parses. -/
def FewArgs (line : Text) : Prop :=
  ∃ line', removeBackgroundSignConstant line = some line' ∧ FewWords line'

namespace BuiltInLine

theorem create_eq (h : BuiltInLine t line b) (unchanged : Text) :
    createCommand t line unchanged =
      if Separated line then (builtInCommand line).map (.builtIn b)
      else (newCommand line).map (.external · unchanged) := by
  have hline : constructorLine t line = line := by
    unfold constructorLine
    split
    · rfl
    · rfl
    · exact h.convert
  unfold createCommand
  rw [hline, h.classify_eq]
  by_cases hsep : Separated line
  · rw [if_pos hsep, if_pos hsep]
  · rw [if_neg hsep, if_neg hsep]

/-- Which built-in command a line makes. -/
theorem create_eq_some_iff (h : BuiltInLine t line b) (unchanged : Text)
    {cmd : CommandData} :
    createCommand t line unchanged = some (.builtIn b cmd) ↔
      Separated line ∧ builtInCommand line = some cmd := by
  rw [h.create_eq]
  by_cases hsep : Separated line
  · simp [hsep]
  · simp [hsep]

theorem created_iff (h : BuiltInLine t line b) (unchanged : Text) :
    (∃ cmd, createCommand t line unchanged = some (.builtIn b cmd)) ↔
      Separated line ∧ FewArgs line := by
  simp only [h.create_eq_some_iff, builtInCommand_eq_some_iff]
  constructor
  · rintro ⟨cmd, hsep, line', hline', hfew, -⟩
    exact ⟨hsep, line', hline', hfew⟩
  · rintro ⟨hsep, line', hline', hfew⟩
    exact ⟨command line', hsep, line', hline', hfew, rfl⟩

theorem agrees_iff (h : BuiltInLine t line b) (unchanged : Text) :
    DispatchAgrees t line unchanged b ↔
      Separated line ∧ FewArgs line ∧ ¬ SignTaken line := by
  obtain ⟨pair, hpair, -, hname⟩ := h.name
  obtain ⟨hsign, -⟩ := chain_sign pair hpair
  rw [hname] at hsign
  have hword := (isWord_word h.not_blank).1
  simp only [DispatchAgrees, h.create_eq_some_iff, builtInCommand_eq_some_iff, h.convert]
  constructor
  · rintro ⟨cmd, ⟨hsep, line', hline', hfew, rfl⟩, hargs⟩
    rw [(firstWord_eq_iff h.not_blank).1.mpr hsep, args_zero_iff hword] at hargs
    exact ⟨hsep, ⟨line', hline', hfew⟩,
      (word_removed_iff h.not_blank hsign hline').mp hargs⟩
  · rintro ⟨hsep, ⟨line', hline', hfew⟩, htaken⟩
    refine ⟨command line', ⟨hsep, line', hline', hfew, rfl⟩, ?_⟩
    rw [(firstWord_eq_iff h.not_blank).1.mpr hsep, args_zero_iff hword]
    exact (word_removed_iff h.not_blank hsign hline').mpr htaken

end BuiltInLine

/-- A line whose first word is in the chain gets its command exactly when the word is
separated as the chain has it and the argument array has room for the line; its first
argument is the text that was compared unless the constructor has taken the sign off
it. -/
theorem dispatch_iff (t : AliasTable) (line unchanged : Text) (b : BuiltIn)
    (h : BuiltInLine t line b) :
    ((∃ cmd, createCommand t line unchanged = some (.builtIn b cmd)) ↔
        Separated line ∧ FewArgs line) ∧
      (DispatchAgrees t line unchanged b ↔
        Separated line ∧ FewArgs line ∧ ¬ SignTaken line) :=
  ⟨h.created_iff unchanged, h.agrees_iff unchanged⟩

theorem builtInLine_cd : BuiltInLine [] "cd /tmp".toList .cd :=
  ⟨⟨("cd", .cd), by decide +kernel, rfl, by decide +kernel⟩, rfl, by decide, by decide⟩

theorem dispatch_iff_cd : BuiltInLine [] "cd /tmp".toList .cd ∧
    DispatchAgrees [] "cd /tmp".toList [] .cd :=
  ⟨builtInLine_cd, (dispatch_iff [] _ [] .cd builtInLine_cd).2.mpr
    ⟨by decide +kernel, ⟨_, rfl, by decide +kernel⟩, by decide +kernel⟩⟩

/-- With a tab behind the name, `cd` becomes an external program. -/
theorem tab_external : BuiltInLine [] "cd\t/tmp".toList .cd ∧
    createCommand [] "cd\t/tmp".toList [] =
      some (.external (command "cd\t/tmp".toList) []) ∧
    ¬ DispatchAgrees [] "cd\t/tmp".toList [] .cd := by
  have hcreate : createCommand [] "cd\t/tmp".toList [] =
      some (.external (command "cd\t/tmp".toList) []) := by decide +kernel
  refine ⟨⟨⟨("cd", .cd), by decide +kernel, rfl, by decide +kernel⟩, rfl, by decide,
    by decide⟩, hcreate, ?_⟩
  rintro ⟨cmd, heq, -⟩
  rw [hcreate] at heq
  cases heq

end OsCoursework.Shell
