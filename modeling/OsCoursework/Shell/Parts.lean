import Mathlib.Data.List.Basic
import OsCoursework.Shell.Expansion

/-!
# The parts of pipes and redirections

`CreateCommand` classifies a line after an alias expansion and hands the line from
before it to the constructors of pipes and redirections, which look for their sign
again.  Both constructors cut their text at the first sign in the same way.
-/

namespace OsCoursework.Shell

open OsCoursework.Delimiter OsCoursework.Words

variable {mark second : Char}

/-! ## Cutting a text -/

/-- The trimmed texts on both sides of a sign, and whether the sign is doubled. -/
structure Parts where
  front : Text
  back : Text
  doubled : Bool

/-- The parts of `s` at its first `mark`, which may be followed by `second`. -/
def IsCut (mark second : Char) (s : Text) (p : Parts) : Prop :=
  ∃ b a, s = b ++ mark :: a ∧ mark ∉ b ∧ p.front = trim b ∧
    p.doubled = decide (a.head? = some second) ∧
    p.back = trim (if p.doubled then a.tail else a)

/-- What the two constructors compute. -/
def cut (mark second : Char) (cmd : Text) : Parts :=
  let pos := cmd.findIdx? (· = mark)
  let doubled := decide (charAt cmd (after pos 1) = some second)
  ⟨trim (before cmd pos), trim (cmd.drop (after pos (if doubled then 2 else 1))),
    doubled⟩

def PipeCommand.parts (p : PipeCommand) : Parts :=
  ⟨p.command1, p.command2, p.stderrPipe⟩

def RedirectionCommand.parts (r : RedirectionCommand) : Parts :=
  ⟨r.cmdToRun, r.outputFile, !r.overrideFlag⟩

theorem pipeCommand_parts {l : Text} {p : PipeCommand} (h : pipeCommand l = some p) :
    ∃ s, removeBackgroundSignConstant l = some s ∧ p.parts = cut '|' '&' s := by
  rw [pipeCommand] at h
  simp only [Option.bind_eq_bind, Option.bind_eq_some_iff, builtInCommand_eq_some_iff] at h
  obtain ⟨base, ⟨s, hs, -, rfl⟩, h⟩ := h
  refine ⟨s, hs, ?_⟩
  rw [Option.some.injEq] at h
  rw [← h, PipeCommand.parts, cut]
  by_cases hd : charAt s (after (s.findIdx? (· = '|')) 1) = some '&'
  · simp [command, hd]
  · simp [command, hd]

theorem redirectionCommand_parts {l : Text} {r : RedirectionCommand}
    (h : redirectionCommand l = some r) :
    ∃ s, removeBackgroundSignConstant l = some s ∧ r.parts = cut '>' '>' s := by
  rw [redirectionCommand] at h
  simp only [Option.bind_eq_bind, Option.bind_eq_some_iff, builtInCommand_eq_some_iff] at h
  obtain ⟨base, ⟨s, hs, -, rfl⟩, h⟩ := h
  refine ⟨s, hs, ?_⟩
  rw [cut]
  by_cases hd : charAt s (after (s.findIdx? (· = '>')) 1) = some '>'
  · simp only [command, hd, if_true, Option.some.injEq] at h
    simp [← h, RedirectionCommand.parts, hd]
  · simp only [command, hd, if_false, Option.some.injEq] at h
    simp [← h, RedirectionCommand.parts, hd]

theorem cut_append {b a : Text} (hb : mark ∉ b) (hsecond : second ≠ '\x00') :
    IsCut mark second (b ++ mark :: a) (cut mark second (b ++ mark :: a)) := by
  have hchar : charAt (b ++ mark :: a) (b.length + 1) = some second ↔
      a.head? = some second := by
    rw [charAt, List.append_assoc, List.getElem?_append_right (by omega)]
    cases a with
    | nil => simp [Ne.symm hsecond]
    | cons c a => simp
  refine ⟨b, a, rfl, hb, ?_, ?_, ?_⟩
  · rw [cut, findIdx?_append_cons hb]
    simp [before]
  · rw [cut, findIdx?_append_cons hb]
    simp [after, hchar]
  · rw [cut, findIdx?_append_cons hb]
    simp only [after, hchar, decide_eq_true_eq]
    split
    · rw [← List.drop_one, List.drop_append, List.drop_eq_nil_of_le (by omega)]
      simp
    · rw [List.drop_append, List.drop_eq_nil_of_le (by omega)]
      simp

/-- The first sign of a text is at one place. -/
theorem first_mark_unique {b a b' a' : Text} (h : b ++ mark :: a = b' ++ mark :: a')
    (hb : mark ∉ b) (hb' : mark ∉ b') : b = b' ∧ a = a' := by
  have hlen : b.length = b'.length := by
    have hpos := findIdx?_append_cons hb a
    rw [h, findIdx?_append_cons hb', Option.some.injEq] at hpos
    exact hpos.symm
  obtain ⟨hbb, haa⟩ := List.append_inj h hlen
  exact ⟨hbb, (List.cons.inj haa).2⟩

theorem IsCut.front_eq {b a : Text} {p : Parts} (h : IsCut mark second (b ++ mark :: a) p)
    (hb : mark ∉ b) : p.front = trim b := by
  obtain ⟨b', a', hs, hb', hfront, -⟩ := h
  rw [hfront, (first_mark_unique hs hb hb').1]

/-- Nothing but blanks is lost in the parts. -/
theorem IsCut.ink_eq {s : Text} {p : Parts} (h : IsCut mark second s p)
    (hmark : isSpace mark = false) (hsecond : isSpace second = false) :
    ink s = ink p.front ++ mark :: ((if p.doubled then [second] else []) ++ ink p.back) := by
  obtain ⟨b, a, rfl, -, hfront, hdoubled, hback⟩ := h
  have hcons {c : Char} (hc : isSpace c = false) (u : Text) : ink (c :: u) = c :: ink u := by
    rw [ink, List.filter_cons_of_pos (by simp [hc]), ink]
  rw [ink_append, hcons hmark, hfront, hback, ink_trim, ink_trim]
  by_cases hd : a.head? = some second
  · obtain ⟨a, rfl⟩ := List.head?_eq_some_iff.mp hd
    rw [hdoubled, hcons hsecond]
    simp
  · rw [hdoubled]
    simp [hd]

/-! ## The background sign -/

theorem removeBackgroundSignConstant_prefix {l s : Text}
    (h : removeBackgroundSignConstant l = some s) (hl : ¬ Blank isSpace l) : s <+: l := by
  rcases removeBackgroundSignConstant_cases hl h with rfl | ⟨front, rest, rfl, rfl⟩
  · exact List.prefix_refl _
  · rw [rtrim_eq]
    exact (List.rdropWhile_prefix _ _).trans (List.prefix_append _ _)

/-- Behind a sign that is no `&`, the background sign is taken off the same way
whatever stands in front. -/
theorem stripSign_append (hmark : isSpace mark = false) (hamp : mark ≠ '&') (y : Text) :
    ∃ y', ∀ z, stripSign (z ++ mark :: y) = z ++ mark :: y' := by
  by_cases hy : Blank isSpace y
  · refine ⟨y, fun z => ?_⟩
    rw [stripSign_eq _ hmark hy, if_neg hamp]
  · obtain ⟨pre, c, post, rfl, hc, hpost, -⟩ := exists_of_not_blank hy
    have hsplit (z : Text) : stripSign (z ++ mark :: (pre ++ c :: post)) =
        if c = '&' then rtrim (z ++ mark :: pre) else z ++ mark :: (pre ++ c :: post) := by
      have h := stripSign_eq (z ++ mark :: pre) hc hpost
      simpa only [List.append_assoc, List.cons_append] using h
    by_cases hsign : c = '&'
    · refine ⟨pre.rdropWhile isSpace, fun z => ?_⟩
      rw [hsplit, if_pos hsign, rtrim_eq, List.append_cons]
      by_cases hpre : Blank isSpace pre
      · rw [rdropWhile_append_of_blank _ hpre, List.rdropWhile_concat_neg _ _ _
          (by simp [hmark]), List.rdropWhile_eq_nil_iff.mpr hpre]
      · rw [rdropWhile_append_of_not_blank _ hpre, ← List.append_cons]
    · refine ⟨pre ++ c :: post, fun z => ?_⟩
      rw [hsplit, if_neg hsign]

/-! ## Agreement -/

variable {t : AliasTable} {l s : Text}

/-- The expansion inside `CreateCommand` does not change the parts: the first word is
no alias, or one for itself up to blanks that a part loses anyway; and the
background sign is where the constructor looks for it. -/
def Agrees (t : AliasTable) (mark : Char) (l : Text) : Prop :=
  SignInReach l ∧ ∀ cmd, lookup t (word isSpace l) = some cmd →
    ltrim cmd = word isSpace l ∨
      trim cmd = word isSpace l ∧
        Blank isSpace ((afterWord isSpace l).takeWhile (· ≠ mark))

theorem convert_single_line {cmd : Text} (hcmd : lookup t (word isSpace l) = some cmd)
    (hl : '\n' ∉ l) : convertAliasToOriginal t l = cmd ++ afterWord isSpace l := by
  rw [convert_of_lookup hcmd, getline_eq]
  intro hmem
  apply hl
  rw [← lead_append isSpace l]
  simp [hmem]

theorem isWord_of_lookup (ht : WellFormed t) {cmd : Text}
    (hcmd : lookup t (word isSpace l) = some cmd) : IsWord isSpace (word isSpace l) :=
  ht.isWord (exists_of_lookup hcmd)

theorem not_mem_word_of_lookup (ht : WellFormed t) {cmd : Text} {c : Char}
    (hcmd : lookup t (word isSpace l) = some cmd) (hc : isNameChar c = false) :
    c ∉ word isSpace l := by
  intro hmem
  have h := ht.name_char _ (exists_of_lookup hcmd) c hmem
  rw [hc] at h
  cases h

theorem not_blank_of_mem_convert (ht : WellFormed t) (hmark : isSpace mark = false)
    (hmem : mark ∈ convertAliasToOriginal t l) : ¬ Blank isSpace l := by
  intro hblank
  cases hcmd : lookup t (word isSpace l) with
  | none =>
      rw [convert_of_lookup_none hcmd] at hmem
      rw [hblank mark hmem] at hmark
      cases hmark
  | some cmd =>
      exact (isWord_of_lookup ht hcmd).1 (word_eq_nil_iff.mpr hblank)

/-- The words of an expansion that agrees are the word it replaces. -/
theorem ink_of_agrees {cmd w : Text} (hw : IsWord isSpace w)
    (h : ltrim cmd = w ∨ trim cmd = w) : ink cmd = w := by
  rcases h with rfl | rfl
  · rw [← ink_of_isWord hw, ltrim_eq, ink, ink, filter_dropWhile]
  · rw [← ink_of_isWord hw, ink_trim]

theorem mem_ink {c : Char} (hc : isSpace c = false) : c ∈ ink s ↔ c ∈ s := by
  rw [ink, List.mem_filter]
  simp [hc]

theorem count_ink {c : Char} (hc : isSpace c = false) (s : Text) :
    (ink s).count c = s.count c := by
  rw [ink, List.count_filter (by simp [hc])]

theorem count_eq_of_trim_eq {c : Char} (hc : isSpace c = false) {s s' : Text}
    (h : trim s = trim s') : s.count c = s'.count c := by
  rw [← count_ink hc s, ← ink_trim, h, ink_trim, count_ink hc]

/-- The background sign is the only sign that is taken off. -/
theorem count_stripSign {c : Char} (hc : isSpace c = false) (hamp : c ≠ '&') (s : Text) :
    (stripSign s).count c = s.count c := by
  by_cases hs : Blank isSpace s
  · have hr : rtrim s = [] := by
      rw [rtrim_eq]
      exact List.rdropWhile_eq_nil_iff.mpr hs
    rw [stripSign, hr, if_neg (by simp)]
  · obtain ⟨pre, d, post, rfl, hd, hpost, -⟩ := exists_of_not_blank hs
    rw [stripSign_eq _ hd hpost]
    split
    · next hsign =>
      have hzero : post.count c = 0 := by
        rw [← count_ink hc, ink_eq_nil hpost, List.count_nil]
      rw [← count_ink hc, ink_rtrim, count_ink hc, List.count_append,
        List.count_cons_of_ne (by rw [hsign]; exact hamp.symm), hzero, Nat.add_zero]
    · rfl

/-- A prefix that has the first sign has everything in front of it. -/
theorem exists_of_prefix {u y : Text} (hpre : s <+: u ++ mark :: y) (hu : mark ∉ u)
    (hs : mark ∈ s) : ∃ y', s = u ++ mark :: y' := by
  obtain ⟨b, a, rfl, hb⟩ := List.eq_append_cons_of_mem hs
  obtain ⟨z, hz⟩ := hpre
  rw [List.append_assoc, List.cons_append] at hz
  obtain ⟨rfl, -⟩ := first_mark_unique hz hb hu
  exact ⟨a, rfl⟩

/-- If the sign is lost with the background sign, an earlier `&` was taken for it. -/
theorem count_amp_lt (hs : removeBackgroundSignConstant l = some s)
    (hl : ¬ Blank isSpace l) (hmark : isSpace mark = false) (hamp : mark ≠ '&')
    {u y : Text} (hleq : l = u ++ mark :: y) (hu : mark ∉ u) (hms : mark ∉ s) :
    s.count '&' < u.count '&' := by
  have hin : mark ∈ l := by
    rw [hleq]
    simp
  rcases removeBackgroundSignConstant_cases hl hs with rfl | ⟨front, rest, hsplit, rfl⟩
  · exact absurd hin hms
  · have hnot : mark ∉ front := by
      rwa [← mem_ink hmark, ← ink_rtrim, mem_ink hmark]
    rw [hsplit, List.mem_append, List.mem_cons] at hin
    obtain ⟨x, z, hx, hnotx⟩ :=
      List.eq_append_cons_of_mem ((hin.resolve_left hnot).resolve_left hamp)
    have hfirst : (front ++ '&' :: x) ++ mark :: z = u ++ mark :: y := by
      rw [← hleq, hsplit, hx, List.append_assoc, List.cons_append]
    obtain ⟨rfl, -⟩ := first_mark_unique hfirst (by simp [hnot, hamp, hnotx]) hu
    rw [← count_ink rfl, ink_rtrim, count_ink rfl, List.count_append,
      List.count_cons_self]
    omega

section Mark

variable (hmark : isSpace mark = false) (hname : isNameChar mark = false)
  (hamp : mark ≠ '&')

include hmark hname in
/-- Where an expansion agrees, the sign stands behind the word in both lines. -/
theorem exists_behind (ht : WellFormed t) {cmd : Text}
    (hcmd : lookup t (word isSpace l) = some cmd) (hl : '\n' ∉ l)
    (hmem : mark ∈ convertAliasToOriginal t l) (hnot : mark ∉ cmd) :
    ∃ x y, mark ∉ x ∧ afterWord isSpace l = x ++ mark :: y ∧
      l = (lead isSpace l ++ word isSpace l ++ x) ++ mark :: y ∧
      mark ∉ lead isSpace l ++ word isSpace l ++ x ∧
      convertAliasToOriginal t l = (cmd ++ x) ++ mark :: y ∧ mark ∉ cmd ++ x := by
  have hconv := convert_single_line hcmd hl
  rw [hconv, List.mem_append] at hmem
  obtain ⟨x, y, hrest, hx⟩ := List.eq_append_cons_of_mem (hmem.resolve_left hnot)
  have hlead : mark ∉ lead isSpace l := fun h => by
    rw [blank_lead l mark h] at hmark
    cases hmark
  have hword := not_mem_word_of_lookup ht hcmd hname
  refine ⟨x, y, hx, hrest, ?_, ?_, ?_, ?_⟩
  · conv_lhs => rw [← lead_append isSpace l, hrest]
    simp only [List.append_assoc]
  · simp [hlead, hword, hx]
  · rw [hconv, hrest, List.append_assoc]
  · simp [hnot, hx]

include hmark hname hamp in
/-- Where the expansion agrees, the constructor finds the parts of the line that was
classified. -/
theorem Agrees.isCut (h : Agrees t mark l) (ht : WellFormed t)
    (hl : ∀ cmd, lookup t (word isSpace l) = some cmd → '\n' ∉ l)
    (hmem : mark ∈ convertAliasToOriginal t l)
    (hs : removeBackgroundSignConstant l = some s) (hsecond : second ≠ '\x00') :
    mark ∈ l ∧
      IsCut mark second (stripSign (convertAliasToOriginal t l)) (cut mark second s) := by
  have hblank := not_blank_of_mem_convert ht hmark hmem
  have hstrip := removeBackgroundSignConstant_of_reach hblank h.1
  rw [hs, Option.some.injEq] at hstrip
  subst hstrip
  cases hcmd : lookup t (word isSpace l) with
  | none =>
      rw [convert_of_lookup_none hcmd] at hmem ⊢
      refine ⟨hmem, ?_⟩
      obtain ⟨b, a, heq, hb⟩ := List.eq_append_cons_of_mem hmem
      obtain ⟨a', ha'⟩ := stripSign_append hmark hamp a
      rw [heq, ha' b]
      exact cut_append hb hsecond
  | some cmd =>
      have hw := isWord_of_lookup ht hcmd
      have hnot : mark ∉ cmd := by
        rw [← mem_ink hmark, ink_of_agrees hw ((h.2 cmd hcmd).imp_right And.left)]
        exact not_mem_word_of_lookup ht hcmd hname
      obtain ⟨x, y, hx, hrest, hleq, hbefore, hconv, hbefore'⟩ :=
        exists_behind hmark hname ht hcmd (hl cmd hcmd) hmem hnot
      obtain ⟨y', hy'⟩ := stripSign_append hmark hamp y
      have hgap : (afterWord isSpace l).takeWhile (· ≠ mark) = x := by
        rw [hrest, takeWhile_append_cons hx]
      have hfront : trim (lead isSpace l ++ word isSpace l ++ x) = trim (cmd ++ x) := by
        have hagree := h.2 cmd hcmd
        rw [hgap, ltrim_eq, trim_eq] at hagree
        rw [trim_eq, trim_eq, List.append_assoc, trim_append_of_blank (blank_lead l)]
        exact (trim_append_eq_iff hw x).mpr hagree
      refine ⟨?_, ?_⟩
      · rw [hleq]
        simp
      · have hcut := cut_append (a := y') hbefore hsecond
        rw [hconv, hy', show stripSign l = (lead isSpace l ++ word isSpace l ++ x) ++
          mark :: y' by rw [← hy', ← hleq]]
        obtain ⟨b, a, heq, hb, hf, hd, hback⟩ := hcut
        obtain ⟨rfl, rfl⟩ := first_mark_unique heq hbefore hb
        exact ⟨cmd ++ x, y', rfl, hbefore', hf.trans hfront, hd, hback⟩

section Necessity

variable (ht : WellFormed t)
  (hl : ∀ cmd, lookup t (word isSpace l) = some cmd → '\n' ∉ l)
  (hmem : mark ∈ convertAliasToOriginal t l)
  (hs : removeBackgroundSignConstant l = some s) (hin : mark ∈ l)
  (hcut : IsCut mark second (stripSign (convertAliasToOriginal t l))
    (cut mark second s))

include hmark hamp hcut in
theorem cut_count (hspace : isSpace second = false) :
    (convertAliasToOriginal t l).count mark =
      (cut mark second s).front.count mark + 1 +
        (if (cut mark second s).doubled then [second] else []).count mark +
        (cut mark second s).back.count mark := by
  have hink := congrArg (List.count mark) (hcut.ink_eq hmark hspace)
  rw [count_ink hmark, count_stripSign hmark hamp, List.count_append,
    List.count_cons_self, List.count_append, count_ink hmark, count_ink hmark] at hink
  omega

include hmark hname hin in
theorem count_line (ht : WellFormed t) {cmd : Text}
    (hcmd : lookup t (word isSpace l) = some cmd) (hnl : '\n' ∉ l) :
    l.count mark = (afterWord isSpace l).count mark ∧ 0 < l.count mark ∧
      (convertAliasToOriginal t l).count mark = cmd.count mark + l.count mark := by
  have hlead : (lead isSpace l).count mark = 0 := by
    rw [← count_ink hmark, ink_eq_nil (blank_lead l), List.count_nil]
  have hword : (word isSpace l).count mark = 0 :=
    List.count_eq_zero.mpr (not_mem_word_of_lookup ht hcmd hname)
  have hline : l.count mark = (afterWord isSpace l).count mark := by
    conv_lhs => rw [← lead_append isSpace l]
    rw [List.count_append, List.count_append]
    omega
  refine ⟨hline, List.count_pos_iff.mpr hin, ?_⟩
  rw [convert_single_line hcmd hnl, List.count_append, hline]

include hmark hname hamp ht hl hmem hs hcut in
/-- If the constructor sees the sign, equal parts mean an expansion that agrees. -/
theorem agrees_of_mem (hspace : isSpace second = false) (hnul : second ≠ '\x00')
    (hms : mark ∈ s) : Agrees t mark l := by
  have hblank := not_blank_of_mem_convert ht hmark hmem
  have hstarts := removeBackgroundSignConstant_prefix hs hblank
  have hin : mark ∈ l := hstarts.subset hms
  have hself : IsCut mark second s (cut mark second s) := by
    obtain ⟨b, a, rfl, hb⟩ := List.eq_append_cons_of_mem hms
    exact cut_append hb hnul
  have hink : ink s = ink (stripSign (convertAliasToOriginal t l)) := by
    rw [hself.ink_eq hmark hspace, hcut.ink_eq hmark hspace]
  cases hcmd : lookup t (word isSpace l) with
  | none =>
      rw [convert_of_lookup_none hcmd] at hink
      refine ⟨signInReach_of_ink hblank hs hink, fun cmd h => ?_⟩
      rw [hcmd] at h
      cases h
  | some cmd =>
      obtain ⟨-, -, hcount⟩ := count_line hmark hname hin ht hcmd (hl cmd hcmd)
      have hnot : mark ∉ cmd := by
        have hle := hstarts.sublist.count_le mark
        have heq := congrArg (List.count mark) hink
        rw [count_ink hmark, count_ink hmark, count_stripSign hmark hamp, hcount] at heq
        exact List.count_eq_zero.mp (by omega)
      obtain ⟨x, y, hx, hrest, hleq, hbefore, hconv, hbefore'⟩ :=
        exists_behind hmark hname ht hcmd (hl cmd hcmd) hmem hnot
      obtain ⟨y', hy'⟩ := stripSign_append hmark hamp y
      obtain ⟨z, hz⟩ := exists_of_prefix (hleq ▸ hstarts) hbefore hms
      have hfront : trim (lead isSpace l ++ word isSpace l ++ x) = trim (cmd ++ x) := by
        rw [hconv, hy'] at hcut
        rw [hz] at hself
        rw [← hcut.front_eq hbefore', hz, hself.front_eq hbefore]
      refine ⟨signInReach_of_ink hblank hs ?_, fun cmd' hcmd' => ?_⟩
      · rw [hink, hconv, hy', ink_append, ← ink_trim (cmd ++ x), ← hfront, ink_trim,
          ← ink_append, ← hy', ← hleq]
      · rw [hcmd, Option.some.injEq] at hcmd'
        subst hcmd'
        have hgap : (afterWord isSpace l).takeWhile (· ≠ mark) = x := by
          rw [hrest, takeWhile_append_cons hx]
        rw [trim_eq, trim_eq, List.append_assoc, trim_append_of_blank (blank_lead l)]
          at hfront
        rw [hgap, ltrim_eq, trim_eq]
        exact (trim_append_eq_iff (isWord_of_lookup ht hcmd) x).mp hfront

include hmark hname hamp ht hl hmem hs hin hcut in
/-- The constructor sees the sign, since otherwise its first part has too few `&`. -/
theorem mem_of_isCut (hspace : isSpace second = false) (hnul : second ≠ '\x00') :
    mark ∈ s := by
  by_contra hms
  have hblank := not_blank_of_mem_convert ht hmark hmem
  have hpos : s.findIdx? (· = mark) = none := findIdx?_eq_none hms
  have hfront : (cut mark second s).front = trim s := by
    rw [cut, hpos]
    rfl
  obtain ⟨u, y, hleq, hu⟩ := List.eq_append_cons_of_mem hin
  have hlt := count_amp_lt hs hblank hmark hamp hleq hu hms
  -- It is enough that the line that was classified has these signs in front.
  have hno {b a : Text} (hconv : convertAliasToOriginal t l = b ++ mark :: a)
      (hb : mark ∉ b) (hle : u.count '&' ≤ b.count '&') : False := by
    obtain ⟨a', ha'⟩ := stripSign_append hmark hamp a
    rw [hconv, ha'] at hcut
    have htrim := hcut.front_eq hb
    rw [hfront] at htrim
    have heq := count_eq_of_trim_eq (c := '&') rfl htrim
    omega
  cases hcmd : lookup t (word isSpace l) with
  | none => exact hno (by rw [convert_of_lookup_none hcmd, hleq]) hu le_rfl
  | some cmd =>
      have hdoubled : (if (cut mark second s).doubled then [second] else []).count mark
          = 0 := by
        split
        · next hd =>
          rw [List.count_eq_zero, List.mem_singleton]
          rintro rfl
          -- With no sign in the text the search goes on at its start.
          rw [cut, hpos] at hd
          have hhead : charAt s 0 = some mark := by simpa [after] using hd
          cases s with
          | nil => exact hnul (Option.some.inj hhead).symm
          | cons c s => exact hms (by simp [Option.some.inj hhead])
        · rfl
      have hback : (cut mark second s).back.count mark = 0 := by
        refine List.count_eq_zero.mpr fun h => hms ?_
        rw [cut] at h
        exact List.mem_of_mem_drop ((trim_sublist _).subset h)
      have hfrontcount : (cut mark second s).front.count mark = 0 := by
        rw [hfront]
        exact List.count_eq_zero.mpr fun h => hms ((trim_sublist _).subset h)
      obtain ⟨-, hone, hcount⟩ := count_line hmark hname hin ht hcmd (hl cmd hcmd)
      have htotal := cut_count hmark hamp hcut hspace
      have hnot : mark ∉ cmd := List.count_eq_zero.mp (by omega)
      obtain ⟨x, y₂, -, -, hleq₂, hbefore, hconv, hbefore'⟩ :=
        exists_behind hmark hname ht hcmd (hl cmd hcmd) hmem hnot
      obtain ⟨rfl, -⟩ := first_mark_unique (hleq.symm.trans hleq₂) hu hbefore
      apply hno hconv hbefore'
      have hword : (word isSpace l).count '&' = 0 :=
        List.count_eq_zero.mpr (not_mem_word_of_lookup ht hcmd (by decide))
      have hlead : (lead isSpace l).count '&' = 0 := by
        rw [← count_ink rfl, ink_eq_nil (blank_lead l), List.count_nil]
      simp only [List.count_append]
      omega

end Necessity

include hmark hname hamp in
/-- The parts are those of the line that was classified exactly when the expansion
agrees. -/
theorem isCut_iff (ht : WellFormed t)
    (hl : ∀ cmd, lookup t (word isSpace l) = some cmd → '\n' ∉ l)
    (hmem : mark ∈ convertAliasToOriginal t l)
    (hs : removeBackgroundSignConstant l = some s) (hspace : isSpace second = false)
    (hnul : second ≠ '\x00') :
    (mark ∈ l ∧ IsCut mark second (stripSign (convertAliasToOriginal t l))
      (cut mark second s)) ↔ Agrees t mark l := by
  constructor
  · rintro ⟨hin, hcut⟩
    have hms := mem_of_isCut hmark hname hamp ht hl hmem hs hin hcut hspace hnul
    exact agrees_of_mem hmark hname hamp ht hl hmem hs hcut hspace hnul hms
  · intro h
    exact h.isCut hmark hname hamp ht hl hmem hs hnul

end Mark

/-! ## Pipes and redirections -/

theorem kindOf_pipe {cmdS : Text} (h : kindOf cmdS = .pipe) : '|' ∈ cmdS := by
  by_contra hnot
  rw [kindOf, if_neg hnot] at h
  split_ifs at h
  split at h <;> cases h

theorem kindOf_redirection {cmdS : Text} (h : kindOf cmdS = .redirection) :
    '>' ∈ cmdS := by
  by_contra hnot
  have hinfix : ¬ ['>', '>'] <:+: cmdS := fun hin => hnot (hin.subset (by simp))
  rw [kindOf, if_neg (not_or.mpr ⟨hnot, hinfix⟩)] at h
  split_ifs at h
  split at h <;> cases h

theorem createCommand_pipe {u : Text} {p : PipeCommand}
    (h : createCommand t l u = some (.pipe p)) :
    '|' ∈ convertAliasToOriginal t l ∧ pipeCommand l = some p := by
  unfold createCommand constructorLine at h
  cases hkind : classify t l with
  | pipe =>
      simp only [hkind, Option.map_eq_some_iff, Command.pipe.injEq, exists_eq_right] at h
      exact ⟨(trim_sublist _).subset (kindOf_pipe hkind), h⟩
  | _ => simp [hkind] at h

theorem createCommand_redirection {u : Text} {r : RedirectionCommand}
    (h : createCommand t l u = some (.redirection r)) :
    '>' ∈ convertAliasToOriginal t l ∧ redirectionCommand l = some r := by
  unfold createCommand constructorLine at h
  cases hkind : classify t l with
  | redirection =>
      simp only [hkind, Option.map_eq_some_iff, Command.redirection.injEq,
        exists_eq_right] at h
      exact ⟨(trim_sublist _).subset (kindOf_redirection hkind), h⟩
  | _ => simp [hkind] at h

/-- When a line makes a pipe or a redirection, the constructor gets a line with the
sign and finds the parts of the line that was classified, without its background
sign, exactly when the second expansion agrees. -/
theorem parsed_from_classified_iff (ht : Reachable t) (line u : Text) :
    (∀ p, createCommand t (convertAliasToOriginal t line) u = some (.pipe p) →
      (('|' ∈ convertAliasToOriginal t line ∧
        IsCut '|' '&' (stripSign (convertAliasToOriginal t
          (convertAliasToOriginal t line))) p.parts) ↔
        Agrees t '|' (convertAliasToOriginal t line))) ∧
    ∀ r, createCommand t (convertAliasToOriginal t line) u = some (.redirection r) →
      (('>' ∈ convertAliasToOriginal t line ∧
        IsCut '>' '>' (stripSign (convertAliasToOriginal t
          (convertAliasToOriginal t line))) r.parts) ↔
        Agrees t '>' (convertAliasToOriginal t line)) := by
  have hwf := ht.wellFormed
  -- A line that is expanded again is a single line.
  have hl (cmd : Text)
      (hcmd : lookup t (word isSpace (convertAliasToOriginal t line)) = some cmd) :
      '\n' ∉ convertAliasToOriginal t line := by
    cases hfirst : lookup t (word isSpace line) with
    | some first => exact not_mem_convert hwf hfirst
    | none =>
        rw [convert_of_lookup_none hfirst, hfirst] at hcmd
        cases hcmd
  constructor
  · intro p hp
    obtain ⟨hmem, hpipe⟩ := createCommand_pipe hp
    obtain ⟨s, hs, hparts⟩ := pipeCommand_parts hpipe
    rw [hparts]
    exact isCut_iff rfl (by decide) (by decide) hwf hl hmem hs rfl (by decide)
  · intro r hr
    obtain ⟨hmem, hred⟩ := createCommand_redirection hr
    obtain ⟨s, hs, hparts⟩ := redirectionCommand_parts hred
    rw [hparts]
    exact isCut_iff rfl (by decide) (by decide) hwf hl hmem hs rfl (by decide)

/-- `alias b='ls | wc &'` and `alias a='b'`. -/
def pipeAliases : AliasTable :=
  [("b".toList, "ls | wc &".toList), ("a".toList, "b".toList)]

theorem reachable_pipeAliases : Reachable pipeAliases := by
  have hone : Reachable [("b".toList, "ls | wc &".toList)] :=
    Reachable.nil.line "alias b='ls | wc &'".toList (by decide +kernel) (by decide +kernel)
  exact hone.line "alias a='b'".toList (by decide +kernel) (by decide +kernel)

/-- The pipe of a line: its command, its parts and its flag. -/
def pipeOf (line command1 command2 : String) (stderrPipe : Bool) : PipeCommand :=
  ⟨command line.toList, command1.toList, command2.toList, stderrPipe⟩

theorem parsed_from_classified_iff_once :
    IsCut '|' '&' "ls | wc".toList (pipeOf "ls | wc" "ls" "wc" false).parts := by
  have hconv : convertAliasToOriginal pipeAliases "b".toList = "ls | wc &".toList := by
    decide +kernel
  have hlookup : lookup pipeAliases (word isSpace "ls | wc &".toList) = none := by
    decide +kernel
  have hstrip : stripSign "ls | wc &".toList = "ls | wc".toList := by decide +kernel
  have hlast : findLastNotOf "ls | wc &".toList = some 8 := by decide +kernel
  have hagrees : Agrees pipeAliases '|' "ls | wc &".toList := by
    refine ⟨fun p hp => Or.inl ?_, fun cmd hcmd => ?_⟩
    · rw [hlast, Option.some.injEq] at hp
      omega
    · rw [hlookup] at hcmd
      cases hcmd
  have hcut := ((parsed_from_classified_iff reachable_pipeAliases "b".toList []).1
    (pipeOf "ls | wc" "ls" "wc" false) (by decide +kernel)).mpr (by rwa [hconv])
  rw [hconv, convert_of_lookup_none hlookup, hstrip] at hcut
  exact hcut.2

/-- The line `a` is classified as the pipe of `ls | wc`, but the constructor gets the
line `b`, in which it finds no sign. -/
theorem parsed_from_another_line :
    ∃ t line p, Reachable t ∧
      createCommand t (convertAliasToOriginal t line) (trim line) = some (.pipe p) ∧
      '|' ∉ convertAliasToOriginal t line ∧
      convertAliasToOriginal t (convertAliasToOriginal t line) = "ls | wc &".toList ∧
      p.command1 = "b".toList ∧ p.command2 = "b".toList :=
  ⟨pipeAliases, "a".toList, pipeOf "b" "b" "b" false, reachable_pipeAliases,
    by decide +kernel, by decide +kernel, by decide +kernel, rfl, rfl⟩

end OsCoursework.Shell
