import OsCoursework.Shell.Dispatch

/-!
# How often aliases are expanded

`executeCommand` expands the first word of a line and `CreateCommand` expands the
result again.  The second expansion changes nothing exactly when the word that
comes first after the first one is no alias, or one for the very text it replaces.
-/

namespace OsCoursework.Shell

open OsCoursework.Words

variable {t : AliasTable} {line : Text}

/-! ## One expansion -/

theorem convert_of_lookup {cmd : Text} (h : lookup t (word isSpace line) = some cmd) :
    convertAliasToOriginal t line = cmd ++ getline (afterWord isSpace line) := by
  rw [convertAliasToOriginal, h]

theorem convert_of_lookup_none (h : lookup t (word isSpace line) = none) :
    convertAliasToOriginal t line = line := by
  rw [convertAliasToOriginal, h]

theorem stops_getline {str : Text} (h : Stops isSpace str) :
    Stops isSpace (getline str) := by
  cases str with
  | nil => exact h
  | cons c str =>
      rw [getline, List.takeWhile_cons]
      split
      · exact h
      · intro a ha
        cases ha

/-- Once a line is expanded it is a single line. -/
theorem not_mem_convert (h : WellFormed t) {cmd : Text}
    (hcmd : lookup t (word isSpace line) = some cmd) :
    '\n' ∉ convertAliasToOriginal t line := by
  rw [convert_of_lookup hcmd, List.mem_append, not_or]
  exact ⟨h.no_newline _ (exists_of_lookup hcmd), not_mem_getline _⟩

/-- An expansion replaces the leading blanks and the first word. -/
theorem convert_eq_iff {cmd : Text}
    (hcmd : lookup t (word isSpace line) = some cmd) (hline : '\n' ∉ line) :
    convertAliasToOriginal t line = line ↔
      cmd = lead isSpace line ++ word isSpace line := by
  have hrest : '\n' ∉ afterWord isSpace line := fun hmem => by
    apply hline
    rw [← lead_append isSpace line]
    simp [hmem]
  rw [convert_of_lookup hcmd, getline_eq hrest]
  conv_lhs =>
    rhs
    rw [← lead_append isSpace line, ← List.append_assoc]
  rw [List.append_cancel_right_eq]

/-! ## Two expansions -/

/-- The word that comes first after the first expansion, its own words or the next
one of the line, is an alias again, for something else than what stands there. -/
def Chained (t : AliasTable) (line : Text) : Prop :=
  let rest := getline (afterWord isSpace line)
  ∃ cmd next, lookup t (word isSpace line) = some cmd ∧
    if Blank isSpace cmd then
      lookup t (word isSpace rest) = some next ∧
        next ≠ cmd ++ lead isSpace rest ++ word isSpace rest
    else
      lookup t (word isSpace cmd) = some next ∧
        next ≠ lead isSpace cmd ++ word isSpace cmd

/-- The line that the command is built from is the line expanded once, and the second
expansion leaves it as it is. -/
def ExpandedOnce (t : AliasTable) (line : Text) : Prop :=
  constructorLine t (convertAliasToOriginal t line) = convertAliasToOriginal t line ∧
    convertAliasToOriginal t (convertAliasToOriginal t line) =
      convertAliasToOriginal t line

theorem constructorLine_of_convert_eq (h : convertAliasToOriginal t line = line) :
    constructorLine t line = line := by
  unfold constructorLine
  split
  · rfl
  · rfl
  · exact h

/-- The condition in terms of the expanded line. -/
theorem chained_iff : Chained t line ↔
    ∃ cmd next, lookup t (word isSpace line) = some cmd ∧
      lookup t (word isSpace (convertAliasToOriginal t line)) = some next ∧
      next ≠ lead isSpace (convertAliasToOriginal t line) ++
        word isSpace (convertAliasToOriginal t line) := by
  unfold Chained
  refine exists_congr fun cmd => exists_congr fun next => and_congr_right fun hcmd => ?_
  rw [convert_of_lookup hcmd]
  split
  · next hblank =>
    rw [lead_append_of_blank hblank, word_append_of_blank hblank]
  · next hblank =>
    obtain ⟨hlead, hword⟩ := parts_append hblank
      (stops_getline (stops_afterWord isSpace line))
    rw [hlead, hword]

/-- The line of a command is expanded once exactly when the alias it starts with does
not lead to another one. -/
theorem expandedOnce_iff (ht : Reachable t) (line : Text) :
    ExpandedOnce t line ↔ ¬ Chained t line := by
  rw [chained_iff]
  have htwice : ExpandedOnce t line ↔
      convertAliasToOriginal t (convertAliasToOriginal t line) =
        convertAliasToOriginal t line :=
    ⟨And.right, fun h => ⟨constructorLine_of_convert_eq h, h⟩⟩
  rw [htwice]
  cases hcmd : lookup t (word isSpace line) with
  | none =>
      rw [convert_of_lookup_none hcmd, convert_of_lookup_none hcmd]
      simp
  | some cmd =>
      cases hnext : lookup t (word isSpace (convertAliasToOriginal t line)) with
      | none =>
          rw [convert_of_lookup_none hnext]
          simp
      | some next =>
          rw [convert_eq_iff hnext (not_mem_convert ht.wellFormed hcmd)]
          simp

/-- `alias a='b'` and `alias b='c'`. -/
def twoAliases : AliasTable :=
  [("a".toList, "b".toList), ("b".toList, "c".toList)]

theorem reachable_twoAliases : Reachable twoAliases := by
  have hone : Reachable [("a".toList, "b".toList)] :=
    Reachable.nil.line "alias a='b'".toList (by decide +kernel) (by decide +kernel)
  exact hone.line "alias b='c'".toList (by decide +kernel) (by decide +kernel)

theorem expandedOnce_iff_second : ExpandedOnce twoAliases "  b -l".toList ∧
    convertAliasToOriginal twoAliases "  b -l".toList = "c -l".toList := by
  refine ⟨(expandedOnce_iff reachable_twoAliases _).mpr ?_, by decide +kernel⟩
  have hnone : lookup twoAliases (word isSpace
      (convertAliasToOriginal twoAliases "  b -l".toList)) = none := by decide +kernel
  rw [chained_iff]
  rintro ⟨cmd, next, -, hnext, -⟩
  rw [hnone] at hnext
  cases hnext

/-- The line `a` is expanded twice, to `c`. -/
theorem expanded_twice :
    ∃ t line, Reachable t ∧ '|' ∉ line ∧ '>' ∉ line ∧
      '|' ∉ convertAliasToOriginal t line ∧ '>' ∉ convertAliasToOriginal t line ∧
      constructorLine t (convertAliasToOriginal t line) ≠
        convertAliasToOriginal t line ∧
      convertAliasToOriginal t (convertAliasToOriginal t line) ≠
        convertAliasToOriginal t line :=
  ⟨twoAliases, "a".toList, reachable_twoAliases, by decide +kernel, by decide +kernel,
    by decide +kernel, by decide +kernel, by decide +kernel, by decide +kernel⟩

end OsCoursework.Shell
