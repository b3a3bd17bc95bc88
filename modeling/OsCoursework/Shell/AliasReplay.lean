import Mathlib.Data.List.Nodup
import OsCoursework.Shell.AliasGrammar

/-!
# Listing and defining aliases

`alias` without arguments prints every alias in the form in which it is defined.  Typed
behind the word `alias` again, a printed line adds its alias to any table that does not
have the name yet.  It has no more words than the line that defined the alias, so there
is room for it in the argument array.
-/

namespace OsCoursework.Shell

open OsCoursework.Words

/-! ## Tables of definable names -/

/-- The word `alias` and what the listing shows. -/
def aliasLine (pair : Text × Text) : Text :=
  "alias ".toList ++ definition pair.1 pair.2

/-- Every name could be added to the table of those in front of it, by a line that has
room in the argument array. -/
structure Definable (t : AliasTable) : Prop extends WellFormed t where
  not_reserved : ∀ pair ∈ t, pair.1 ∉ reservedWords
  few_words : ∀ pair ∈ t, FewWords (aliasLine pair)
  names_nodup : (t.map Prod.fst).Nodup

theorem Definable.nil : Definable [] := by
  refine ⟨⟨?_, ?_, ?_⟩, ?_, ?_, List.nodup_nil⟩ <;> intro pair hp <;> cases hp

theorem Definable.sublist {t t' : AliasTable} (h : Definable t) (hsub : t'.Sublist t) :
    Definable t' where
  toWellFormed := h.toWellFormed.sublist hsub
  not_reserved := fun pair hp => h.not_reserved pair (hsub.subset hp)
  few_words := fun pair hp => h.few_words pair (hsub.subset hp)
  names_nodup := (hsub.map Prod.fst).nodup h.names_nodup

theorem names_nodup_concat {t : AliasTable} {pair : Text × Text} :
    ((t ++ [pair]).map Prod.fst).Nodup ↔
      pair.1 ∉ t.map Prod.fst ∧ (t.map Prod.fst).Nodup := by
  rw [List.map_append, List.nodup_append_comm]
  exact List.nodup_cons

/-- What `addAliasName` refuses. -/
def Refused (t : AliasTable) (name : Text) : Prop :=
  name ∈ reservedWords ∨ name ∈ t.map Prod.fst

theorem addAliasName_of_refused {t : AliasTable} {name : Text} (h : Refused t name)
    (cmd : Text) : addAliasName t name cmd = (false, t) := by
  rw [addAliasName]
  split
  · rfl
  · next hfree =>
    obtain ⟨pair, hpair, rfl⟩ := List.mem_map.mp (h.resolve_left hfree)
    rw [if_pos (List.any_eq_true.mpr ⟨pair, hpair, decide_eq_true rfl⟩)]

theorem addAliasName_of_not_refused {t : AliasTable} {name : Text}
    (h : ¬ Refused t name) (cmd : Text) :
    addAliasName t name cmd = (true, t ++ [(name, cmd)]) := by
  rw [Refused, not_or] at h
  rw [addAliasName, if_neg h.1, if_neg]
  intro hany
  obtain ⟨pair, hpair, hname⟩ := List.any_eq_true.mp hany
  exact h.2 (List.mem_map.mpr ⟨pair, hpair, of_decide_eq_true hname⟩)

theorem Definable.add {t : AliasTable} (h : Definable t) {name cmd : Text}
    (hname : IsAliasName name) (hcmd : '\n' ∉ cmd)
    (hfew : FewWords (aliasLine (name, cmd))) :
    Definable (addAliasName t name cmd).2 := by
  by_cases hrefused : Refused t name
  · rwa [addAliasName_of_refused hrefused]
  · rw [addAliasName_of_not_refused hrefused]
    have hwell := h.toWellFormed.add hname.1 hname.2 hcmd
    rw [addAliasName_of_not_refused hrefused] at hwell
    rw [Refused, not_or] at hrefused
    have hall {P : Text × Text → Prop} (ht : ∀ pair ∈ t, P pair) (hpair : P (name, cmd)) :
        ∀ pair ∈ t ++ [(name, cmd)], P pair := by
      intro pair hmem
      rcases List.mem_append.mp hmem with hmem | hmem
      · exact ht pair hmem
      · rwa [List.mem_singleton.mp hmem]
    exact ⟨hwell, hall h.not_reserved hrefused.1, hall h.few_words hfew,
      names_nodup_concat.mpr ⟨hrefused.2, h.names_nodup⟩⟩

/-! ## The words of a definition -/

theorem parseCommandLine_eq (line : Text) : parseCommandLine line = words isSpace line := by
  rw [parseCommandLine, trim_eq, words_trim]

theorem length_words_getline_le (str : Text) :
    (words isSpace (getline str)).length ≤ (words isSpace str).length := by
  conv_rhs => rw [← List.takeWhile_append_dropWhile (p := (· ≠ '\n')) (l := str)]
  change _ ≤ (words isSpace (getline str ++ _)).length
  cases hrest : str.dropWhile (· ≠ '\n') with
  | nil => rw [List.append_nil]
  | cons c rest =>
      have hc : c = '\n' := by
        have hhead := List.head?_dropWhile_not (· ≠ '\n') str
        rw [hrest] at hhead
        simpa using hhead
      rw [words_append_cons (by rw [hc]; rfl), List.length_append]
      exact Nat.le_add_right _ _

theorem isWord_alias : IsWord isSpace "alias".toList := by
  decide

/-- The first word of the line and the rest. -/
theorem aliasLine_parts (pair : Text × Text) :
    word isSpace (aliasLine pair) = "alias".toList ∧
      afterWord isSpace (aliasLine pair) = ' ' :: definition pair.1 pair.2 := by
  have hstops : Stops isSpace (' ' :: definition pair.1 pair.2) := by
    rintro c hc
    rw [List.head?_cons, Option.mem_some_iff] at hc
    rw [← hc]
    rfl
  exact (parts_eq (b := []) (fun c hc => by cases hc) isWord_alias hstops).2

theorem aliasLine_not_blank (pair : Text × Text) : ¬ Blank isSpace (aliasLine pair) := by
  rw [← word_eq_nil_iff, (aliasLine_parts pair).1]
  decide

theorem words_aliasLine (pair : Text × Text) :
    words isSpace (aliasLine pair) =
      "alias".toList :: words isSpace (definition pair.1 pair.2) := by
  obtain ⟨hword, hafter⟩ := aliasLine_parts pair
  rw [words_eq_cons (aliasLine_not_blank pair), hword, hafter, words_cons_of_blank rfl]

/-- The listed definition has no more words than the line that made it. -/
theorem fewWords_aliasLine {line name cmd : Text}
    (h : aliasRemainder (command line) = definition name cmd) (hfew : FewWords line) :
    FewWords (aliasLine (name, cmd)) := by
  have hblank : ¬ Blank isSpace line := by
    intro hblank
    have hnil : afterWord isSpace line = [] := by
      rw [afterWord, List.dropWhile_eq_nil_iff.mpr hblank]
      rfl
    rw [aliasRemainder, command, hnil] at h
    have hempty : definition name cmd = [] := h.symm
    simp [definition] at hempty
  have hrest := length_words_getline_le (afterWord isSpace line)
  rw [FewWords, parseCommandLine_eq, words_eq_cons hblank] at hfew
  rw [FewWords, parseCommandLine_eq, words_aliasLine, ← h, aliasRemainder, trim_eq,
    words_trim]
  exact (Nat.succ_le_succ hrest).trans_lt hfew

theorem Definable.aliasExecute {t : AliasTable} (h : Definable t) {line : Text}
    (hfew : FewWords line) : Definable (aliasExecute (command line) t).1 := by
  unfold Shell.aliasExecute
  split
  · exact h
  · dsimp only
    split
    · exact h
    · next name cmd hparse =>
      obtain ⟨hdefinition, hname⟩ := parseAlias_sound hparse
      have hcmd : '\n' ∉ cmd := fun hmem =>
        not_mem_getline _
          (((parseAlias_spec hparse).2.2.trans (trim_sublist _)).subset hmem)
      have hadd := h.add hname hcmd (fewWords_aliasLine hdefinition hfew)
      split <;> exact hadd

theorem Reachable.definable {t : AliasTable} (h : Reachable t) : Definable t := by
  induction h with
  | nil => exact Definable.nil
  | add line ht hcmd ih =>
      obtain ⟨stripped, -, hfew, rfl⟩ := exists_of_createCommand_builtIn hcmd
      exact ih.aliasExecute hfew
  | remove line ht hcmd ih => exact ih.sublist (unAliasExecute_sublist _ _)

/-! ## Lines that define an alias -/

def Output.text : Output → Text
  | .cout text => text
  | .cerr text => text

/-- Printed lines, each typed behind the word `alias`. -/
def retyped (printed : List Output) : List Text :=
  printed.map fun o => "alias ".toList ++ o.text

theorem retyped_listing (t : AliasTable) :
    retyped (printAllAliasNames t) = t.map aliasLine := by
  rw [retyped, printAllAliasNames, List.map_map]
  refine List.map_congr_left fun pair _ => congrArg ("alias ".toList ++ ·) ?_
  change pair.1 ++ ['=', quote] ++ pair.2 ++ [quote] = _
  rw [definition]
  simp only [List.append_assoc, List.cons_append, List.nil_append]

variable {t : AliasTable} {pair : Text × Text}

theorem aliasLine_eq_append (pair : Text × Text) :
    aliasLine pair =
      ("alias".toList ++ ' ' :: (pair.1 ++ '=' :: quote :: pair.2)) ++ [quote] := by
  change "alias ".toList ++ definition pair.1 pair.2 = _
  rw [definition_eq_append, ← List.append_assoc]
  rfl

/-- A text that starts with a word and ends with a quote has no blanks at its ends. -/
theorem trim_of_ends {w front : Text} (hw : IsWord isSpace w) :
    trim (w ++ front ++ [quote]) = w ++ front ++ [quote] := by
  rw [trim_eq, Words.trim, List.append_assoc, hw.dropWhile_append, ← List.append_assoc,
    List.rdropWhile_concat_neg]
  decide

theorem trim_aliasLine (pair : Text × Text) : trim (aliasLine pair) = aliasLine pair := by
  rw [aliasLine_eq_append]
  exact trim_of_ends isWord_alias

theorem trim_definition {name : Text} (hname : IsAliasName name) (command : Text) :
    trim (definition name command) = definition name command := by
  rw [definition_eq_append]
  exact trim_of_ends ⟨hname.1, fun c hc => isSpace_of_isNameChar (hname.2 c hc)⟩

/-- The line ends with a quote, so no background sign is cut off. -/
theorem stripSign_aliasLine (pair : Text × Text) :
    stripSign (aliasLine pair) = aliasLine pair := by
  rw [aliasLine_eq_append, stripSign_eq _ (by decide) (fun c hc => by cases hc),
    if_neg (by decide)]

theorem signInReach_of_length {s : Text} (h : s.length < 2 ^ 32) : SignInReach s := by
  intro p hp
  obtain ⟨pre, c, post, rfl, rfl, -⟩ := exists_of_lastIdx? hp
  rw [List.length_append] at h
  exact Or.inl (by omega)

/-- Whatever the aliases are, the line is a definition. -/
theorem createCommand_aliasLine (h : Definable t) (hreach : SignInReach (aliasLine pair))
    (hfew : FewWords (aliasLine pair)) (u : Text) :
    createCommand t (convertAliasToOriginal t (aliasLine pair)) u =
      some (.builtIn .alias (Shell.command (aliasLine pair))) := by
  obtain ⟨hword, -⟩ := aliasLine_parts pair
  have hconvert : convertAliasToOriginal t (aliasLine pair) = aliasLine pair := by
    rw [convertAliasToOriginal, hword]
    cases hlookup : lookup t "alias".toList with
    | none => rfl
    | some cmd =>
        have hreserved : "alias".toList ∈ reservedWords := by decide
        exact absurd hreserved (h.not_reserved _ (exists_of_lookup hlookup))
  have hclass : classify t (aliasLine pair) = .builtIn .alias := by
    rw [classify, hconvert, trim_aliasLine]
    rfl
  rw [hconvert, createCommand, constructorLine, hclass, hconvert]
  dsimp only
  rw [builtInCommand,
    removeBackgroundSignConstant_of_reach (aliasLine_not_blank pair) hreach,
    stripSign_aliasLine, Option.bind_some, newCommand_of_few hfew]
  rfl

/-- The line is executed by an attempt to add its pair. -/
theorem aliasExecute_aliasLine (hname : IsAliasName pair.1) (hcmd : '\n' ∉ pair.2)
    (t : AliasTable) :
    aliasExecute (Shell.command (aliasLine pair)) t = defineAlias t pair.1 pair.2 := by
  obtain ⟨hword, hafter⟩ := aliasLine_parts pair
  have hnewline : '\n' ∉ ' ' :: definition pair.1 pair.2 := by
    have hout : '\n' ∉ pair.1 := fun hmem => absurd (hname.2 _ hmem) (by decide)
    simp [definition, hout, hcmd, quote]
  have hremainder : aliasRemainder (Shell.command (aliasLine pair)) =
      definition pair.1 pair.2 := by
    have hspace : Blank isSpace [' '] := by decide
    rw [aliasRemainder, Shell.command, hafter, getline_eq hnewline, trim_eq,
      ← List.singleton_append, trim_append_of_blank hspace, ← trim_eq,
      trim_definition hname]
  have hargs : (Shell.command (aliasLine pair)).args[1]? ≠ none := by
    have hrest : ¬ Blank isSpace (' ' :: definition pair.1 pair.2) := fun hblank =>
      absurd (hblank quote (by simp [definition])) (by decide)
    rw [Shell.command, parseCommandLine_eq, words_eq_cons (aliasLine_not_blank pair),
      hafter, words_eq_cons hrest]
    exact fun hnone => by cases hnone
  rw [aliasExecute_eq hargs, aliasPair, hremainder, parseAlias_definition hname]

/-- A new name of the right form is added, and nothing is printed. -/
theorem aliasExecute_new {t : AliasTable} {pair : Text × Text}
    (h : Definable (t ++ [pair])) :
    aliasExecute (Shell.command (aliasLine pair)) t = (t ++ [pair], []) := by
  have hmem : pair ∈ t ++ [pair] := List.mem_append_right t (List.mem_singleton_self pair)
  have hname : IsAliasName pair.1 := ⟨h.name_ne_nil pair hmem, h.name_char pair hmem⟩
  have hfresh : ¬ Refused t pair.1 := by
    rw [Refused, not_or]
    exact ⟨h.not_reserved pair hmem, (names_nodup_concat.mp h.names_nodup).1⟩
  rw [aliasExecute_aliasLine hname (h.no_newline pair hmem), defineAlias,
    addAliasName_of_not_refused hfresh]
  rfl

end OsCoursework.Shell
