import Mathlib.Algebra.Group.Int.Defs
import Mathlib.Algebra.Group.Nat.Defs
import Mathlib.Data.List.Infix
import OsCoursework.Support.Words

/-!
# Strings of the shell

The string helpers at the top of `Commands.cpp`.  A text is a list of characters,
one for each byte of a C string.  Positions are counted as the code counts them:
`npos` is the largest `size_t`, and a position that is stored in an `unsigned int`
is cut to 32 bits.
-/

namespace OsCoursework.Shell

open OsCoursework.Words

abbrev Text := List Char

/-! ## Helpers -/

/-- Membership in `WHITESPACE`, which is also where `>>` ends a word. -/
def isSpace (c : Char) : Bool :=
  c = ' ' || c = '\n' || c = '\r' || c = '\t' || c = '\x0c' || c = '\x0b'

def npos : ℕ := 2 ^ 64 - 1

def maxBuffSize : ℕ := 8192

def nul : Char := '\x00'

/-- The result of a search stored in an `unsigned int`. -/
def toUnsigned (position : Option ℕ) : ℕ :=
  position.getD npos % 2 ^ 32

/-- The character `str[i]`; there is one more than the length says, a NUL. -/
def charAt (str : Text) (i : ℕ) : Option Char :=
  (str ++ ['\x00'])[i]?

/-- `str.find_last_not_of(WHITESPACE)`. -/
def findLastNotOf (str : Text) : Option ℕ :=
  lastIdx? (!isSpace ·) str

def ltrim (s : Text) : Text :=
  match s.findIdx? (!isSpace ·) with
  | none => []
  | some start => s.drop start

def rtrim (s : Text) : Text :=
  match findLastNotOf s with
  | none => []
  | some last => s.take (last + 1)

def trim (s : Text) : Text :=
  rtrim (ltrim s)

/-- The words that `_parseCommandLine` stores. -/
def parseCommandLine (cmdLine : Text) : List Text :=
  words isSpace (trim cmdLine)

/-- Undefined where `str[npos]` is read. -/
def isBackgroundComamnd (cmdLine : Text) : Option Bool :=
  (charAt cmdLine ((findLastNotOf cmdLine).getD npos)).map (· == '&')

/-- Undefined where `str[idx]` is outside the string. -/
def removeBackgroundSignConstant (cmdLine : Text) : Option Text :=
  let idx := toUnsigned (findLastNotOf cmdLine)
  if idx = npos then some cmdLine
  else do
    let c ← charAt cmdLine idx
    if c ≠ '&' then some cmdLine
    else
      let str := cmdLine.set idx ' '
      let lastNonSpace := toUnsigned (findLastNotOf (str.take (idx + 1)))
      if lastNonSpace ≠ npos then some (str.take ((lastNonSpace + 1) % 2 ^ 32))
      else some []

/-! ## Trimming -/

theorem ltrim_eq (s : Text) : ltrim s = s.dropWhile isSpace := by
  rw [ltrim, List.dropWhile_eq_drop_findIdx_not]
  cases h : s.findIdx? (!isSpace ·) with
  | none =>
      rw [List.findIdx?_eq_none_iff_findIdx_eq] at h
      rw [h, List.drop_length]
  | some start => rw [List.findIdx?_eq_some_iff_findIdx_eq.mp h |>.2]

theorem rtrim_eq (s : Text) : rtrim s = s.rdropWhile isSpace := by
  rw [rtrim, findLastNotOf]
  cases h : lastIdx? (!isSpace ·) s with
  | none =>
      have hblank : Blank isSpace s := by
        intro c hc
        simpa using lastIdx?_eq_none.mp h c hc
      exact (List.rdropWhile_eq_nil_iff.mpr hblank).symm
  | some last =>
      obtain ⟨pre, a, post, rfl, rfl, ha, hpost⟩ := exists_of_lastIdx? h
      have hblank : Blank isSpace post := by
        intro c hc
        simpa using hpost c hc
      dsimp only
      rw [List.append_cons, rdropWhile_append_of_blank _ hblank,
        List.rdropWhile_concat_neg _ _ _ (by simpa using ha),
        List.take_left' (by simp)]

theorem trim_eq (s : Text) : trim s = Words.trim isSpace s := by
  rw [trim, rtrim_eq, ltrim_eq, Words.trim]

/-! ## The background sign -/

/-- The text without a trailing `&` and the blanks around it. -/
def stripSign (s : Text) : Text :=
  if (rtrim s).getLast? = some '&' then rtrim (rtrim s).dropLast else s

/-- The search for the sign ends at the last character that is not blank: its
position fits in 32 bits, or there is no sign there nor where the cut position
points. -/
def SignInReach (s : Text) : Prop :=
  ∀ p, findLastNotOf s = some p →
    p < 2 ^ 32 ∨ s[p]? ≠ some '&' ∧ s[p % 2 ^ 32]? ≠ some '&'

theorem exists_of_not_blank {s : Text} (h : ¬ Blank isSpace s) :
    ∃ pre c post, s = pre ++ c :: post ∧ isSpace c = false ∧ Blank isSpace post ∧
      findLastNotOf s = some pre.length := by
  cases hlast : findLastNotOf s with
  | none =>
      refine absurd (fun c hc => ?_) h
      simpa using lastIdx?_eq_none.mp hlast c hc
  | some p =>
      obtain ⟨pre, c, post, rfl, rfl, hc, hpost⟩ := exists_of_lastIdx? hlast
      refine ⟨pre, c, post, rfl, by simpa using hc, fun x hx => ?_, rfl⟩
      simpa using hpost x hx

theorem findLastNotOf_concat_space (s : Text) :
    findLastNotOf (s ++ [' ']) = findLastNotOf s := by
  by_cases h : Blank isSpace s
  · have hnone {t : Text} (ht : Blank isSpace t) : findLastNotOf t = none :=
      lastIdx?_eq_none.mpr fun c hc => by simp [ht c hc]
    rw [hnone h, hnone]
    intro c hc
    rcases List.mem_append.mp hc with hc | hc
    · exact h c hc
    · rw [List.mem_singleton.mp hc]
      rfl
  · obtain ⟨pre, c, post, rfl, hc, hpost, hlast⟩ := exists_of_not_blank h
    rw [hlast, findLastNotOf, List.append_assoc, List.cons_append]
    refine lastIdx?_append (by simp [hc]) fun x hx => ?_
    rcases List.mem_append.mp hx with hx | hx
    · simp [hpost x hx]
    · rw [List.mem_singleton.mp hx]
      rfl

/-- What is kept in front of a sign at a position below `2 ^ 32`. -/
theorem take_lastNonSpace (s : Text) {idx : ℕ} (hidx : idx < 2 ^ 32)
    (hlen : idx < s.length) :
    (s.set idx ' ').take
        ((toUnsigned (findLastNotOf ((s.set idx ' ').take (idx + 1))) + 1) % 2 ^ 32) =
      rtrim (s.take idx) := by
  have htake : (s.set idx ' ').take (idx + 1) = s.take idx ++ [' '] := by
    rw [List.set_eq_take_append_cons_drop, if_pos hlen, List.append_cons,
      List.take_left' (by simp; omega)]
  rw [htake, findLastNotOf_concat_space]
  cases hlast : findLastNotOf (s.take idx) with
  | none =>
      -- Here `npos` is cut to 32 bits and wraps to 0 when 1 is added.
      rw [rtrim, hlast]
      rfl
  | some q =>
      have hq : q < idx := by
        obtain ⟨pre, a, post, heq, rfl, -⟩ := exists_of_lastIdx? hlast
        have hlen := congrArg List.length heq
        simp only [List.length_take, List.length_append, List.length_cons] at hlen
        omega
      have hmod : toUnsigned (some q) = q := by
        rw [toUnsigned, Option.getD_some, Nat.mod_eq_of_lt (by omega)]
      rw [hmod, Nat.mod_eq_of_lt (by omega), rtrim, hlast]
      dsimp only
      rw [List.take_take, Nat.min_eq_left (by omega), List.take_set_of_le (by omega)]

/-- The sign is looked for at the last position that is not blank, cut to 32 bits. -/
theorem removeBackgroundSignConstant_eq {s : Text} {p : ℕ}
    (hp : findLastNotOf s = some p) :
    removeBackgroundSignConstant s =
      some (if s[p % 2 ^ 32]? = some '&' then rtrim (s.take (p % 2 ^ 32)) else s) := by
  have hlen : p < s.length := by
    obtain ⟨pre, a, post, rfl, rfl, -⟩ := exists_of_lastIdx? hp
    simp
  have hle : p % 2 ^ 32 ≤ p := Nat.mod_le _ _
  have hlt : p % 2 ^ 32 < 2 ^ 32 := Nat.mod_lt _ (by decide)
  have hidx : p % 2 ^ 32 < s.length := by omega
  rw [removeBackgroundSignConstant, hp, toUnsigned, Option.getD_some]
  dsimp only
  rw [if_neg (by rw [npos]; omega), charAt, List.getElem?_append_left hidx,
    List.getElem?_eq_getElem hidx]
  simp only [Option.bind_eq_bind, Option.bind_some, Option.some.injEq]
  by_cases hc : s[p % 2 ^ 32] = '&'
  · rw [if_neg (not_not.mpr hc), if_pos hc, if_pos, take_lastNonSpace s hlt hidx]
    rw [toUnsigned, npos]
    omega
  · rw [if_pos hc, if_neg hc]

/-- Nothing is taken off, or some `&` with everything behind it. -/
theorem removeBackgroundSignConstant_cases {s s' : Text} (h : ¬ Blank isSpace s)
    (hs' : removeBackgroundSignConstant s = some s') :
    s' = s ∨ ∃ front rest, s = front ++ '&' :: rest ∧ s' = rtrim front := by
  obtain ⟨pre, c, post, -, -, -, hlast⟩ := exists_of_not_blank h
  rw [removeBackgroundSignConstant_eq hlast, Option.some.injEq] at hs'
  split at hs'
  · next hsign =>
    obtain ⟨hlen, hget⟩ := List.getElem?_eq_some_iff.mp hsign
    have hsplit := List.take_append_drop (pre.length % 2 ^ 32) s
    rw [List.drop_eq_getElem_cons hlen, hget] at hsplit
    exact Or.inr ⟨_, _, hsplit.symm, hs'.symm⟩
  · exact Or.inl hs'.symm

theorem stripSign_eq (pre : Text) {post : Text} {c : Char} (hc : isSpace c = false)
    (hpost : Blank isSpace post) :
    stripSign (pre ++ c :: post) = if c = '&' then rtrim pre else pre ++ c :: post := by
  have hr : rtrim (pre ++ c :: post) = pre ++ [c] := by
    rw [rtrim_eq, List.append_cons, rdropWhile_append_of_blank _ hpost,
      List.rdropWhile_concat_neg _ _ _ (by simp [hc])]
  rw [stripSign, hr, List.getLast?_concat, List.dropLast_concat]
  simp only [Option.some.injEq]

/-- The characters that are not blank. -/
def ink (s : Text) : Text :=
  s.filter (!isSpace ·)

theorem ink_append (s t : Text) : ink (s ++ t) = ink s ++ ink t :=
  List.filter_append s t

theorem ink_rtrim (s : Text) : ink (rtrim s) = ink s := by
  rw [rtrim_eq, ink, filter_rdropWhile, ink]

theorem ink_trim (s : Text) : ink (trim s) = ink s := by
  rw [trim_eq, ink, filter_trim, ink]

theorem ink_eq_nil {s : Text} (h : Blank isSpace s) : ink s = [] :=
  List.filter_eq_nil_iff.mpr fun c hc => by simp [h c hc]

theorem ink_of_isWord {s : Text} (h : IsWord isSpace s) : ink s = s :=
  List.filter_eq_self.mpr fun c hc => by simp [h.2 c hc]

theorem removeBackgroundSignConstant_of_reach {s : Text} (h : ¬ Blank isSpace s)
    (hreach : SignInReach s) : removeBackgroundSignConstant s = some (stripSign s) := by
  obtain ⟨pre, c, post, rfl, hc, hpost, hlast⟩ := exists_of_not_blank h
  rw [removeBackgroundSignConstant_eq hlast, stripSign_eq _ hc hpost]
  have hget : (pre ++ c :: post)[pre.length]? = some c := by simp
  rcases hreach _ hlast with hlt | ⟨hne, hcut⟩
  · rw [Nat.mod_eq_of_lt hlt, hget, List.take_left]
    simp only [Option.some.injEq]
  · rw [hget] at hne
    rw [if_neg hcut, if_neg fun heq => hne (congrArg some heq)]

/-- A blank is all that may be new. -/
theorem mem_of_removeBackgroundSignConstant {s s' : Text} {c : Char}
    (h : removeBackgroundSignConstant s = some s') (hc : c ∈ s') : c ∈ s ∨ c = ' ' := by
  unfold removeBackgroundSignConstant at h
  dsimp only at h
  split at h
  · cases h
    exact Or.inl hc
  · obtain ⟨d, -, h⟩ := Option.bind_eq_some_iff.mp h
    split at h
    · cases h
      exact Or.inl hc
    · split at h
      · cases h
        exact List.mem_or_eq_of_mem_set (List.mem_of_mem_take hc)
      · cases h
        cases hc

/-- Out of reach, the wrong text is taken away or left. -/
theorem signInReach_of_ink {s s' : Text} (h : ¬ Blank isSpace s)
    (hs' : removeBackgroundSignConstant s = some s')
    (hink : ink s' = ink (stripSign s)) : SignInReach s := by
  obtain ⟨pre, c, post, rfl, hc, hpost, hlast⟩ := exists_of_not_blank h
  rw [removeBackgroundSignConstant_eq hlast, Option.some.injEq] at hs'
  intro p hp
  rw [hlast, Option.some.injEq] at hp
  subst hp
  by_contra hfar
  rw [not_or, not_lt] at hfar
  obtain ⟨hfar, hsign⟩ := hfar
  have hlt : pre.length % 2 ^ 32 < pre.length := by
    have := Nat.mod_lt pre.length (show 0 < 2 ^ 32 by decide)
    omega
  have hget : (pre ++ c :: post)[pre.length]? = some c := by simp
  have hcone : ink [c] = [c] := by simp [ink, hc]
  have hpostink := ink_eq_nil hpost
  -- The text without the sign has lost at most one character that is not blank.
  have hstrip : (ink pre).length ≤ (ink (stripSign (pre ++ c :: post))).length := by
    rw [stripSign_eq _ hc hpost]
    split
    · rw [ink_rtrim]
    · rw [ink_append, List.length_append]
      omega
  by_cases hcut : (pre ++ c :: post)[pre.length % 2 ^ 32]? = some '&'
  · rw [if_pos hcut] at hs'
    rw [List.getElem?_append_left hlt] at hcut
    obtain ⟨hlen, hsigneq⟩ := List.getElem?_eq_some_iff.mp hcut
    have hsplit := List.take_append_drop (pre.length % 2 ^ 32) pre
    rw [List.drop_eq_getElem_cons hlen, hsigneq] at hsplit
    have hpre : (ink (pre.take (pre.length % 2 ^ 32))).length < (ink pre).length := by
      conv_rhs => rw [← hsplit]
      rw [ink_append, List.length_append]
      have : ink ('&' :: pre.drop (pre.length % 2 ^ 32 + 1)) =
          '&' :: ink (pre.drop (pre.length % 2 ^ 32 + 1)) := rfl
      rw [this, List.length_cons]
      omega
    rw [← hs', ink_rtrim, List.take_append_of_le_length hlt.le] at hink
    rw [← hink] at hstrip
    omega
  · rw [if_neg hcut] at hs'
    rw [hget] at hsign
    have hamp : c = '&' := by
      by_contra hne
      exact hsign ⟨fun heq => hne (Option.some.inj heq), hcut⟩
    rw [← hs', stripSign_eq _ hc hpost, if_pos hamp, ink_rtrim, List.append_cons,
      ink_append, ink_append, hpostink, hcone] at hink
    have hlen := congrArg List.length hink
    simp at hlen

end OsCoursework.Shell
