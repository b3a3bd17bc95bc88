import OsCoursework.Shell.Dispatch

/-!
# The grammar of alias definitions

A definition has the form `name='command'`, and a comment in `AliasCommand::execute`
demands exactly two single quotes.  The checks there look at the first quote and at
the last one only, so a command with quotes inside is accepted as well.
-/

namespace OsCoursework.Shell

open OsCoursework.Delimiter OsCoursework.Words

/-! ## What the checks accept -/

/-- One or more letters, digits and underscores. -/
def IsAliasName (name : Text) : Prop :=
  name ≠ [] ∧ ∀ c ∈ name, isNameChar c = true

/-- The text `name='command'`. -/
def definition (name command : Text) : Text :=
  name ++ '=' :: quote :: (command ++ [quote])

variable {s name command : Text}

theorem quote_not_mem_name (h : IsAliasName name) : quote ∉ name := by
  intro hmem
  exact absurd (h.2 quote hmem) (by decide)

theorem lastIdx?_quote (init : Text) :
    lastIdx? (· = quote) (init ++ [quote]) = some init.length :=
  lastIdx?_append (by decide) nofun

/-- A text with a quote at its end and another one in front of it. -/
theorem exists_of_findIdx?_quote {init : Text} {first : ℕ}
    (hfirst : (init ++ [quote]).findIdx? (· = quote) = some first)
    (hne : first ≠ init.length) :
    ∃ front inner, init = front ++ quote :: inner ∧ front.length = first := by
  obtain ⟨hlt, hget, -⟩ := List.findIdx?_eq_some_iff_getElem.mp hfirst
  rw [List.length_append, List.length_singleton] at hlt
  have hlt' : first < init.length := by omega
  rw [List.getElem_append_left hlt'] at hget
  have hquote : init[first] = quote := by simpa using hget
  refine ⟨init.take first, init.drop (first + 1), ?_, ?_⟩
  · have hsplit := List.take_append_drop first init
    rw [List.drop_eq_getElem_cons hlt', hquote] at hsplit
    exact hsplit.symm
  · rw [List.length_take, Nat.min_eq_left hlt'.le]

/-- The parts that the checks cut out of a text with quotes. -/
theorem cut_parts (front inner : Text) :
    (front ++ '=' :: quote :: (inner ++ [quote])).take (front.length + 1 - 1) = front ∧
      ((front ++ '=' :: quote :: (inner ++ [quote])).drop (front.length + 1 + 1)).take
        (front.length + 1 + 1 + inner.length - (front.length + 1) - 1) = inner := by
  have hroom : front.length + 1 + 1 + inner.length - (front.length + 1) - 1 =
      inner.length := by omega
  have hdrop : (front ++ '=' :: quote :: (inner ++ [quote])).drop
      (front.length + 1 + 1) = inner ++ [quote] := by
    rw [Nat.add_assoc, List.drop_length_add_append]
    rfl
  rw [hroom, Nat.add_sub_cancel, List.take_left, hdrop, List.take_left]
  exact ⟨rfl, rfl⟩

/-- A text with `='` in front of its part between the quotes. -/
theorem front_equal {front inner : Text} (hpos : 0 < front.length)
    (hequal : (front ++ quote :: inner ++ [quote])[front.length - 1]? = some '=') :
    ∃ name, front = name ++ ['='] := by
  apply List.getLast?_eq_some_iff.mp
  rw [List.getLast?_eq_getElem?, ← hequal, List.append_assoc,
    List.getElem?_append_left (by omega)]

/-- What the checks accept is a name and a command between quotes. -/
theorem parseAlias_sound (h : parseAlias s = some (name, command)) :
    s = definition name command ∧ IsAliasName name := by
  unfold parseAlias at h
  split at h
  · cases h
  next hform =>
  rw [not_or, not_and, not_not, not_not] at hform
  have hne : s ≠ [] := by
    rintro rfl
    exact absurd hform.1 (by decide)
  obtain ⟨init, rfl⟩ := List.getLast?_eq_some_iff.mp (hform.2 hne)
  rw [lastIdx?_quote] at h
  split at h
  · next first last hfirst hlast =>
    rw [Option.some.injEq] at hlast
    subst hlast
    split at h
    · cases h
    next hdiff =>
    obtain ⟨front, inner, rfl, rfl⟩ := exists_of_findIdx?_quote hfirst hdiff
    split at h
    · cases h
    next hequal =>
    rw [not_or, not_lt, not_not] at hequal
    obtain ⟨front, rfl⟩ := front_equal hequal.1 hequal.2
    have hwhole : front ++ ['='] ++ quote :: inner ++ [quote] =
        front ++ '=' :: quote :: (inner ++ [quote]) := by
      simp only [List.append_assoc, List.cons_append, List.nil_append]
    have hlen : (front ++ ['='] ++ quote :: inner).length =
        front.length + 1 + 1 + inner.length := by
      simp only [List.length_append, List.length_cons, List.length_nil]
      omega
    obtain ⟨hname, hcommand⟩ := cut_parts front inner
    rw [hlen, hwhole, List.length_append, List.length_singleton, hname, hcommand] at h
    simp only [Option.ite_none_right_eq_some, Option.some.injEq, Prod.mk.injEq] at h
    obtain ⟨⟨hne, hall⟩, rfl, rfl⟩ := h
    exact ⟨hwhole, hne, List.all_eq_true.mp hall⟩
  · cases h

theorem definition_eq_append (name command : Text) :
    definition name command = (name ++ '=' :: quote :: command) ++ [quote] := by
  rw [definition, List.append_assoc]
  rfl

/-- The first quote of a definition. -/
theorem findIdx?_definition (hname : IsAliasName name) (command : Text) :
    (definition name command).findIdx? (· = quote) = some (name.length + 1) := by
  have hquote : quote ∉ name ++ ['='] := by
    rw [List.mem_append, not_or]
    exact ⟨quote_not_mem_name hname, by decide⟩
  have hsplit : definition name command =
      (name ++ ['=']) ++ quote :: (command ++ [quote]) := by
    rw [definition, List.append_assoc]
    rfl
  rw [hsplit, findIdx?_append_cons hquote, List.length_append, List.length_singleton]

/-- The last quote of a definition. -/
theorem lastIdx?_definition (name command : Text) :
    lastIdx? (· = quote) (definition name command) =
      some (name.length + 1 + 1 + command.length) := by
  rw [definition_eq_append, lastIdx?_quote, List.length_append, List.length_cons,
    List.length_cons]
  exact congrArg some (by omega)

/-- The checks accept every definition. -/
theorem parseAlias_definition (hname : IsAliasName name) (command : Text) :
    parseAlias (definition name command) = some (name, command) := by
  have hinfix : ['=', quote] <:+: definition name command :=
    ⟨name, command ++ [quote], by rw [definition, List.append_assoc]; rfl⟩
  have hend : (definition name command).getLast? = some quote := by
    rw [definition_eq_append, List.getLast?_concat]
  have hequal : (definition name command)[name.length + 1 - 1]? = some '=' := by
    rw [definition, Nat.add_sub_cancel, List.getElem?_append_right le_rfl, Nat.sub_self]
    rfl
  obtain ⟨htake, hdrop⟩ := cut_parts name command
  rw [parseAlias, if_neg, findIdx?_definition hname, lastIdx?_definition]
  · dsimp only
    rw [if_neg (by omega), if_neg, definition, htake, hdrop, if_pos]
    · exact ⟨hname.1, List.all_eq_true.mpr hname.2⟩
    · rintro (hlt | hne)
      · omega
      · exact hne hequal
  · rintro (hno | ⟨-, hne⟩)
    · exact hno hinfix
    · exact hne hend

/-- The checks accept a name and any command between the quotes. -/
theorem parseAlias_eq_some_iff :
    parseAlias s = some (name, command) ↔
      s = definition name command ∧ IsAliasName name := by
  constructor
  · exact parseAlias_sound
  · rintro ⟨rfl, hname⟩
    exact parseAlias_definition hname command

/-! ## The command -/

/-- The rest of the line behind its first word. -/
def aliasRemainder (cmd : CommandData) : Text :=
  trim (getline (afterWord isSpace cmd.cmdStr))

/-- A definition whose command has no quote: two quotes in all. -/
def InGrammar (s name command : Text) : Prop :=
  s = definition name command ∧ IsAliasName name ∧ quote ∉ command

/-- The pair that `AliasCommand::execute` passes to `addAliasName`. -/
def aliasPair (cmd : CommandData) : Option (Text × Text) :=
  parseAlias (aliasRemainder cmd)

/-- The attempt to add an alias. -/
def defineAlias (t : AliasTable) (name command : Text) : AliasTable × List Output :=
  let (added, t) := addAliasName t name command
  if added then (t, [])
  else (t, [.cerr ("smash error: alias: ".toList ++ name ++
    " already exists or is a reserved command".toList)])

def invalidFormat : List Output :=
  [.cerr "smash error: alias: invalid alias format".toList]

/-- With an argument, `alias` adds the pair it finds or complains. -/
theorem aliasExecute_eq {cmd : CommandData} (h : cmd.args[1]? ≠ none) (t : AliasTable) :
    aliasExecute cmd t =
      match aliasPair cmd with
      | none => (t, invalidFormat)
      | some (name, command) => defineAlias t name command := by
  rw [aliasExecute]
  split
  · next hnone => exact absurd hnone h
  · rfl

/-- `alias` attempts to define what the grammar gives, and refuses everything else. -/
structure FollowsGrammar (cmd : CommandData) : Prop where
  pair_iff : ∀ name command, aliasPair cmd = some (name, command) ↔
    InGrammar (aliasRemainder cmd) name command
  accepts : ∀ name command, InGrammar (aliasRemainder cmd) name command →
    ∀ t, aliasExecute cmd t = defineAlias t name command
  refuses : (∀ name command, ¬ InGrammar (aliasRemainder cmd) name command) →
    ∀ t, aliasExecute cmd t = (t, invalidFormat)

/-- A definition with a quote inside its command. -/
def QuoteInside (s : Text) : Prop :=
  ∃ name command, s = definition name command ∧ IsAliasName name ∧ quote ∈ command

theorem not_followsGrammar {cmd : CommandData} (h : QuoteInside (aliasRemainder cmd)) :
    ¬ FollowsGrammar cmd := by
  obtain ⟨name, command, heq, hname, hquote⟩ := h
  intro hfollows
  have hpair : aliasPair cmd = some (name, command) :=
    parseAlias_eq_some_iff.mpr ⟨heq, hname⟩
  exact ((hfollows.pair_iff name command).mp hpair).2.2 hquote

/-- A command follows the grammar unless a quote is inside the command it defines. -/
theorem followsGrammar_iff_not_quoteInside (cmd : CommandData) (h : cmd.args[1]? ≠ none) :
    FollowsGrammar cmd ↔ ¬ QuoteInside (aliasRemainder cmd) := by
  constructor
  · intro hfollows hinside
    exact not_followsGrammar hinside hfollows
  · intro hinside
    have hpair : ∀ name command, aliasPair cmd = some (name, command) ↔
        InGrammar (aliasRemainder cmd) name command := by
      intro name command
      rw [aliasPair, parseAlias_eq_some_iff]
      constructor
      · rintro ⟨heq, hname⟩
        have hquote : quote ∉ command := fun hmem =>
          hinside ⟨name, command, heq, hname, hmem⟩
        exact ⟨heq, hname, hquote⟩
      · rintro ⟨heq, hname, -⟩
        exact ⟨heq, hname⟩
    constructor
    · exact hpair
    · intro name command hgrammar t
      rw [aliasExecute_eq h, (hpair name command).mpr hgrammar]
    · intro hno t
      rw [aliasExecute_eq h]
      cases hfound : aliasPair cmd with
      | none => rfl
      | some pair => exact absurd ((hpair pair.1 pair.2).mp hfound) (hno pair.1 pair.2)

/-- The lines behind `alias` are treated by the grammar exactly when their words have
room in the argument array and no definition has a quote inside its command. -/
theorem followsGrammar_iff (t : AliasTable) (line u stripped : Text)
    (hkind : classify t line = .builtIn .alias)
    (hstripped : removeBackgroundSignConstant (constructorLine t line) = some stripped)
    (hargs : (parseCommandLine stripped)[1]? ≠ none) :
    (∃ cmd, createCommand t line u = some (.builtIn .alias cmd) ∧ FollowsGrammar cmd) ↔
      FewWords stripped ∧ ¬ QuoteInside (trim (getline (afterWord isSpace stripped))) := by
  have hcreate (cmd : CommandData) :
      createCommand t line u = some (.builtIn .alias cmd) ↔
        FewWords stripped ∧ Shell.command stripped = cmd := by
    rw [← newCommand_eq_some_iff]
    simp only [createCommand, hkind, builtInCommand, hstripped, Option.bind_some,
      Option.map_eq_some_iff, Command.builtIn.injEq, true_and, exists_eq_right]
  have hgrammar := followsGrammar_iff_not_quoteInside (Shell.command stripped) hargs
  constructor
  · rintro ⟨cmd, hcmd, hfollows⟩
    obtain ⟨hfew, rfl⟩ := (hcreate cmd).mp hcmd
    exact ⟨hfew, hgrammar.mp hfollows⟩
  · rintro ⟨hfew, hinside⟩
    exact ⟨_, (hcreate _).mpr ⟨hfew, rfl⟩, hgrammar.mpr hinside⟩

theorem followsGrammar_iff_list :
    ∃ cmd, createCommand [] "alias ll='ls -l' &".toList [] = some (.builtIn .alias cmd) ∧
      FollowsGrammar cmd := by
  have hstripped : removeBackgroundSignConstant
      (constructorLine [] "alias ll='ls -l' &".toList) = some "alias ll='ls -l'".toList := by
    decide +kernel
  refine (followsGrammar_iff [] _ [] _ (by decide +kernel) hstripped
    (by decide +kernel)).mpr ⟨by decide +kernel, ?_⟩
  rintro ⟨name, cmd, heq, hname, hquote⟩
  have hparse : parseAlias (trim (getline (afterWord isSpace
      "alias ll='ls -l'".toList))) = some ("ll".toList, "ls -l".toList) := by decide +kernel
  rw [parseAlias_eq_some_iff.mpr ⟨heq, hname⟩, Option.some.injEq, Prod.mk.injEq]
    at hparse
  rw [hparse.2] at hquote
  exact absurd hquote (by decide)

/-- The line `alias x='a'b'` has three quotes and is accepted. -/
theorem three_quotes_accepted :
    createCommand [] "alias x='a'b'".toList "alias x='a'b'".toList =
        some (.builtIn .alias (Shell.command "alias x='a'b'".toList)) ∧
      aliasExecute (Shell.command "alias x='a'b'".toList) [] =
        ([("x".toList, "a'b".toList)], []) ∧
      ¬ FollowsGrammar (Shell.command "alias x='a'b'".toList) := by
  refine ⟨by decide +kernel, by decide +kernel, not_followsGrammar ?_⟩
  exact ⟨"x".toList, "a'b".toList, by decide +kernel,
    ⟨by decide, List.all_eq_true.mp (by decide)⟩, by decide⟩

end OsCoursework.Shell
