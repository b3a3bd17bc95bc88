import OsCoursework.Shell.Passwd

/-!
# Which record `whoami` finds

A record of a user is a line with six fields or more whose third field is a numeral for
the user id.  The parser takes more lines for records than there are, since `strtoul`
reads any text as a number, and it gets to see the first part of the file only.
-/

namespace OsCoursework.Shell

open OsCoursework.Delimiter OsCoursework.Pieces

/-! ## Lines and fields -/

def lines (content : Text) : List Text :=
  content.splitOn '\n'

def fields (line : Text) : List Text :=
  line.splitOn ':'

/-- The line is a record of the user. -/
def Records (uid : UInt32) (line : Text) : Prop :=
  6 ≤ (fields line).length ∧ ∃ text, (fields line)[2]? = some text ∧
    Numeral text uid.toNat

/-- The parser takes the line for a record of the user. -/
def TakenFor (uid : UInt32) (line : Text) : Prop :=
  6 ≤ (fields line).length ∧ ∃ text, (fields line)[2]? = some text ∧
    (strtoul text).toUInt32 = uid

/-- The entry holds the fields 1, 4 and 6 of the line, the fourth as a number. -/
def Carries (line : Text) (entry : PwEntry) : Prop :=
  (fields line)[0]? = some entry.name ∧
    (∃ text, (fields line)[3]? = some text ∧ Numeral text entry.gid.toNat) ∧
    (fields line)[5]? = some entry.dir

/-- The first element of a list with a property, and what stands in front of it. -/
def IsFirst (P : Text → Prop) (l front : List Text) (x : Text) : Prop :=
  ∃ back, l = front ++ x :: back ∧ P x ∧ ∀ y ∈ front, ¬ P y

/-- `get_name_gid_and_dir` comes to an end, it says whether there is a record of the
user, and what it stores is from the first one. -/
def FindsRecord (uid : UInt32) (content : Text) : Prop :=
  ∃ result, getNameGidAndDir uid content = some result ∧
    (result.isSome = true ↔ ∃ line ∈ lines content, Records uid line) ∧
    ∀ entry, result = some entry → ∀ before line,
      IsFirst (Records uid) (lines content) before line → Carries line entry

variable {uid : UInt32} {content line other text : Text} {before front : List Text}

/-! ## Numerals -/

theorem Numeral.eq_ofDigitChars {n : ℕ} (h : Numeral text n) :
    text ≠ [] ∧ (∀ c ∈ text, c.isDigit = true) ∧ Nat.ofDigitChars 10 text 0 = n := by
  induction h with
  | @digit c hc =>
      refine ⟨List.cons_ne_nil c [], ?_, ?_⟩
      · simpa using hc
      · simp [Nat.ofDigitChars_cons, digitValue]
  | @snoc digits n c _ hc ih =>
      obtain ⟨-, hall, hvalue⟩ := ih
      refine ⟨by simp, ?_, ?_⟩
      · intro x hx
        rcases List.mem_append.mp hx with hx | hx
        · exact hall x hx
        · rw [List.mem_singleton.mp hx]
          exact hc
      · rw [Nat.ofDigitChars_append, hvalue, Nat.ofDigitChars_cons, Nat.ofDigitChars_nil]
        rfl

/-- A numeral that fits is read as what it says. -/
theorem strtoul_of_numeral {n : ℕ} (h : Numeral text n) (hn : n < 2 ^ 32) :
    (strtoul text).toUInt32.toNat = n := by
  obtain ⟨hne, hall, hvalue⟩ := h.eq_ofDigitChars
  obtain ⟨c, rest, rfl⟩ := List.exists_cons_of_ne_nil hne
  have hc := hall c List.mem_cons_self
  have htake : (c :: rest).takeWhile Char.isDigit = c :: rest :=
    List.takeWhile_eq_self_iff.mpr hall
  have hspace : ¬ isSpace c = true := by
    simp only [isSpace, Bool.or_eq_true, decide_eq_true_eq]
    rintro (((((rfl | rfl) | rfl) | rfl) | rfl) | rfl) <;> cases hc
  have hminus : c ≠ '-' := by
    rintro rfl
    cases hc
  have hplus : c ≠ '+' := by
    rintro rfl
    cases hc
  have hread : strtoul (c :: rest) = UInt64.ofNat n := by
    unfold strtoul
    rw [List.dropWhile_cons_of_neg hspace]
    dsimp only
    split
    · next heq => exact absurd (List.cons.inj heq).1 hminus
    · next heq => exact absurd (List.cons.inj heq).1 hplus
    · rw [htake, hvalue, if_neg (by omega), if_neg Bool.false_ne_true]
  have hsize : n < UInt64.size := hn.trans (by decide)
  rw [hread, UInt64.toNat_toUInt32, UInt64.toNat_ofNat_of_lt' hsize, Nat.mod_eq_of_lt hn]

theorem Records.takenFor (h : Records uid line) : TakenFor uid line := by
  obtain ⟨hlen, text, htext, hnumeral⟩ := h
  refine ⟨hlen, text, htext, UInt32.toNat_inj.mp ?_⟩
  exact strtoul_of_numeral hnumeral uid.toNat_lt

/-! ## The entry of a line -/

/-- The part of a test that looks at the fields. -/
theorem checkFields_eq_some_iff {l : List Text} {entry : PwEntry} :
    checkFields uid l = some entry ↔
      (6 ≤ l.length ∧ ∃ text, l[2]? = some text ∧ (strtoul text).toUInt32 = uid) ∧
        l[0]? = some entry.name ∧
        (∃ text, l[3]? = some text ∧ (strtoul text).toUInt32 = entry.gid) ∧
        l[5]? = some entry.dir := by
  rcases l with - | ⟨name, - | ⟨_, - | ⟨fileUid, - | ⟨gid, - | ⟨_, - | ⟨dir, rest⟩⟩⟩⟩⟩⟩
  all_goals try simp [checkFields]
  obtain ⟨name', gid', dir'⟩ := entry
  simp

theorem entryOf_eq_some_iff {entry : PwEntry} :
    entryOf uid line = some entry ↔ TakenFor uid line ∧
      (fields line)[0]? = some entry.name ∧
      (∃ text, (fields line)[3]? = some text ∧ (strtoul text).toUInt32 = entry.gid) ∧
      (fields line)[5]? = some entry.dir :=
  checkFields_eq_some_iff

/-- A line that is taken for a record has an entry. -/
theorem TakenFor.exists_entryOf (h : TakenFor uid line) :
    ∃ entry, entryOf uid line = some entry := by
  obtain ⟨hlen, text, htext, huid⟩ := h
  have hget : ∀ i < 6, ∃ field, (fields line)[i]? = some field := fun i hi =>
    ⟨_, List.getElem?_eq_getElem (hi.trans_le hlen)⟩
  obtain ⟨name, hname⟩ := hget 0 (by decide)
  obtain ⟨gid, hgid⟩ := hget 3 (by decide)
  obtain ⟨dir, hdir⟩ := hget 5 (by decide)
  exact ⟨⟨name, (strtoul gid).toUInt32, dir⟩, entryOf_eq_some_iff.mpr
    ⟨⟨hlen, text, htext, huid⟩, hname, ⟨gid, hgid, rfl⟩, hdir⟩⟩

theorem entryOf_eq_none_iff : entryOf uid line = none ↔ ¬ TakenFor uid line := by
  rw [← not_iff_not, not_not, ← Ne, Option.ne_none_iff_exists']
  constructor
  · rintro ⟨entry, hentry⟩
    exact (entryOf_eq_some_iff.mp hentry).1
  · exact TakenFor.exists_entryOf

/-- The two lines have the same name and directory, and what `strtoul` reads in the
fourth field of the first is what the fourth field of the second says. -/
def SameEntry (other line : Text) : Prop :=
  (fields other)[0]? = (fields line)[0]? ∧ (fields other)[5]? = (fields line)[5]? ∧
    ∃ text text', (fields other)[3]? = some text ∧ (fields line)[3]? = some text' ∧
      Numeral text' (strtoul text).toUInt32.toNat

theorem carries_iff_sameEntry {entry : PwEntry} (h : entryOf uid other = some entry) :
    Carries line entry ↔ SameEntry other line := by
  obtain ⟨-, hname, ⟨gid, hgid, hvalue⟩, hdir⟩ := entryOf_eq_some_iff.mp h
  rw [Carries, SameEntry, hname, hdir, hgid, ← hvalue]
  constructor
  · rintro ⟨hname', ⟨text, htext, hnumeral⟩, hdir'⟩
    exact ⟨hname'.symm, hdir'.symm, gid, text, rfl, htext, hnumeral⟩
  · rintro ⟨hname', hdir', text, text', hfield, htext', hnumeral⟩
    obtain rfl := Option.some.inj hfield
    exact ⟨hname'.symm, ⟨text', htext', hnumeral⟩, hdir'.symm⟩

/-- The first line that is taken for a record decides. -/
theorem exists_carries_iff {l : List Text} :
    (∃ entry, l.findSome? (entryOf uid) = some entry ∧ Carries line entry) ↔
      ∃ front other, IsFirst (TakenFor uid) l front other ∧ SameEntry other line := by
  constructor
  · rintro ⟨entry, hfind, hcarries⟩
    obtain ⟨front, other, back, rfl, hother, hfront⟩ := List.findSome?_eq_some_iff.mp hfind
    refine ⟨front, other, ⟨back, rfl, (entryOf_eq_some_iff.mp hother).1, ?_⟩, ?_⟩
    · intro y hy
      exact entryOf_eq_none_iff.mp (hfront y hy)
    · exact (carries_iff_sameEntry hother).mp hcarries
  · rintro ⟨front, other, ⟨back, rfl, htaken, hfront⟩, hsame⟩
    obtain ⟨entry, hentry⟩ := htaken.exists_entryOf
    refine ⟨entry, List.findSome?_eq_some_iff.mpr ⟨front, other, back, rfl, hentry, ?_⟩, ?_⟩
    · intro y hy
      exact entryOf_eq_none_iff.mpr (hfront y hy)
    · exact (carries_iff_sameEntry hentry).mpr hsame

theorem exists_isFirst {P : Text → Prop} {l : List Text} (h : ∃ x ∈ l, P x) :
    ∃ front x, IsFirst P l front x := by
  induction l with
  | nil =>
      obtain ⟨x, hx, -⟩ := h
      cases hx
  | cons y l ih =>
      by_cases hy : P y
      · exact ⟨[], y, l, rfl, hy, nofun⟩
      · obtain ⟨x, hx, hPx⟩ := h
        rcases List.mem_cons.mp hx with rfl | hmem
        · exact absurd hPx hy
        obtain ⟨front, x, back, rfl, hPx, hfront⟩ := ih ⟨x, hmem, hPx⟩
        refine ⟨y :: front, x, back, rfl, hPx, ?_⟩
        exact List.forall_mem_cons.mpr ⟨hy, hfront⟩

theorem IsFirst.unique {P : Text → Prop} {l front front' : List Text} {x x' : Text}
    (h : IsFirst P l front x) (h' : IsFirst P l front' x') : front = front' ∧ x = x' := by
  obtain ⟨back, rfl, hx, hfront⟩ := h
  obtain ⟨back', heq, hx', hfront'⟩ := h'
  induction front generalizing front' with
  | nil =>
      cases front' with
      | nil => exact ⟨rfl, (List.cons.inj heq).1⟩
      | cons y front' =>
          obtain ⟨rfl, -⟩ := List.cons.inj heq
          exact absurd hx (hfront' x List.mem_cons_self)
  | cons y front ih =>
      cases front' with
      | nil =>
          obtain ⟨rfl, -⟩ := List.cons.inj heq
          exact absurd hx' (hfront y List.mem_cons_self)
      | cons y' front' =>
          obtain ⟨rfl, htail⟩ := List.cons.inj heq
          obtain ⟨rfl, rfl⟩ := ih (fun z hz => hfront z (List.mem_cons_of_mem y hz)) htail
            fun z hz => hfront' z (List.mem_cons_of_mem y hz)
          exact ⟨rfl, rfl⟩

/-! ## What the parser finds -/

theorem findsRecord_iff_of_none (h : ∀ line ∈ lines content, ¬ Records uid line) :
    FindsRecord uid content ↔ ∀ line ∈ lines (visible content), ¬ TakenFor uid line := by
  have hno : ¬ ∃ line ∈ lines content, Records uid line := by
    rintro ⟨line, hline, hrecords⟩
    exact h line hline hrecords
  have hfind : (lines (visible content)).findSome? (entryOf uid) = none ↔
      ∀ line ∈ lines (visible content), ¬ TakenFor uid line := by
    rw [List.findSome?_eq_none_iff]
    exact forall₂_congr fun _ _ => entryOf_eq_none_iff
  rw [FindsRecord, getNameGidAndDir_eq, ← hfind]
  constructor
  · rintro ⟨result, hresult, hsome, -⟩
    rw [← lines, Option.some.injEq] at hresult
    rw [hresult, ← Option.not_isSome_iff_eq_none, hsome]
    exact hno
  · intro hnone
    refine ⟨none, congrArg some hnone, iff_of_false Bool.false_ne_true hno, ?_⟩
    rintro entry ⟨⟩

theorem findsRecord_iff_of_isFirst
    (h : IsFirst (Records uid) (lines content) before line) :
    FindsRecord uid content ↔
      ∃ entry, (lines (visible content)).findSome? (entryOf uid) = some entry ∧
        Carries line entry := by
  have hyes : ∃ line ∈ lines content, Records uid line := by
    obtain ⟨back, heq, hrecords, -⟩ := h
    rw [heq]
    exact ⟨line, List.mem_append_right before List.mem_cons_self, hrecords⟩
  rw [FindsRecord, getNameGidAndDir_eq]
  constructor
  · rintro ⟨result, hresult, hsome, hcarries⟩
    obtain ⟨entry, rfl⟩ := Option.isSome_iff_exists.mp (hsome.mpr hyes)
    exact ⟨entry, Option.some.inj hresult, hcarries entry rfl before line h⟩
  · rintro ⟨entry, hfind, hcarries⟩
    refine ⟨some entry, congrArg some hfind, iff_of_true rfl hyes, ?_⟩
    rintro _ ⟨⟩ before' line' h'
    obtain ⟨-, rfl⟩ := h.unique h'
    exact hcarries

/-! ## What the parser gets to see -/

theorem visible_isInitial (content : Text) : visible content <+: content :=
  (List.takeWhile_prefix _).trans (List.take_prefix _ _)

/-- A part of the file is cut, or it is seen whole. -/
theorem visible_append (front rest : Text) :
    visible (front ++ rest) = visible front ∨
      visible front = front ∧ ∃ w, w <+: rest ∧ visible (front ++ rest) = front ++ w := by
  unfold visible
  rw [List.take_append]
  rcases Nat.lt_or_ge (maxBuffSize - 1) front.length with hlong | hfits
  · left
    rw [Nat.sub_eq_zero_of_le hlong.le, List.take_zero, List.append_nil]
  · rw [List.take_of_length_le hfits]
    by_cases hnul : nul ∈ front
    · obtain ⟨a, b, rfl, ha⟩ := List.eq_append_cons_of_mem hnul
      left
      rw [List.append_assoc, List.cons_append, takeWhile_append_cons ha,
        takeWhile_append_cons ha]
    · right
      refine ⟨takeWhile_eq_self hnul, _, ?_, List.takeWhile_append_of_pos
        (ne_of_not_mem hnul)⟩
      exact (List.takeWhile_prefix _).trans (List.take_prefix _ _)

/-- The fourth field is a numeral that fits. -/
def GidFits (line : Text) : Prop :=
  ∃ text gid, (fields line)[3]? = some text ∧ Numeral text gid ∧ gid < 2 ^ 32

/-- The part of a line up to the end of its sixth field. -/
def upToDir (line : Text) : Text :=
  leading ':' 6 line

/-- The files in which `whoami` finds what there is for the user.  There is no record and
no line that is seen is taken for one.  Or the first record is seen up to the end of
its sixth field, its group is a numeral that fits and no line in front of it is taken for
a record.  Or the first line in front of it that is taken for one happens to have the
same entry. -/
def ReadRight (uid : UInt32) (content : Text) : Prop :=
  ((∀ line ∈ lines content, ¬ Records uid line) ∧
    ∀ line ∈ lines (visible content), ¬ TakenFor uid line) ∨
  ∃ before line, IsFirst (Records uid) (lines content) before line ∧
    (((∀ other ∈ lines (visible (ended '\n' before)), ¬ TakenFor uid other) ∧
        ended '\n' before ++ upToDir line <+: visible content ∧ GidFits line) ∨
      ∃ front other,
        IsFirst (TakenFor uid) (lines (visible (ended '\n' before))) front other ∧
          SameEntry other line)

theorem six_fields_congr (h : (fields other).take 6 = (fields line).take 6) :
    entryOf uid other = entryOf uid line := by
  rw [entryOf, ← checkFields_take, ← fields, h, checkFields_take, entryOf, fields]

/-- The entry of a line whose group fits is what the line says. -/
theorem carries_iff_gidFits {entry : PwEntry} (hentry : entryOf uid line = some entry) :
    Carries line entry ↔ GidFits line := by
  obtain ⟨-, hname, ⟨text, htext, hvalue⟩, hdir⟩ := entryOf_eq_some_iff.mp hentry
  constructor
  · rintro ⟨-, ⟨text, htext, hnumeral⟩, -⟩
    exact ⟨text, _, htext, hnumeral, entry.gid.toNat_lt⟩
  · rintro ⟨text', gid, htext', hnumeral, hlt⟩
    rw [htext] at htext'
    obtain rfl := Option.some.inj htext'
    refine ⟨hname, ⟨text, htext, ?_⟩, hdir⟩
    rw [← hvalue, strtoul_of_numeral hnumeral hlt]
    exact hnumeral

/-- A line that is cut short and still has the directory has all six fields. -/
theorem take_six_of_carries {w : Text} (hw : w <+: line) {entry : PwEntry}
    (hentry : entryOf uid w = some entry) (hcarries : Carries line entry) :
    (fields w).take 6 = (fields line).take 6 := by
  obtain ⟨⟨hlen, -⟩, -, -, hdir⟩ := entryOf_eq_some_iff.mp hentry
  obtain ⟨-, -, hdir'⟩ := hcarries
  obtain ⟨front, last, last', back, hfields, hfields', -⟩ := splitOn_of_prefix (d := ':') hw
  rw [← fields] at hfields hfields'
  rw [hfields] at hlen hdir ⊢
  rw [hfields'] at hdir' ⊢
  rw [List.length_append, List.length_singleton] at hlen
  rcases Nat.lt_or_ge 5 front.length with hmore | hfive
  · rw [List.take_append_of_le_length hmore, List.take_append_of_le_length hmore]
  · have hfront : front.length = 5 := by omega
    rw [← hfront, List.getElem?_append_right (Nat.le_refl _), Nat.sub_self] at hdir hdir'
    obtain rfl := Option.some.inj (hdir.trans hdir'.symm)
    rw [List.take_append, List.take_append, hfront]
    rfl

/-- A record that is cut short is found exactly if its directory is still there. -/
theorem carries_cut_iff (hrecords : Records uid line) {w : Text} (hw : w <+: line) :
    (∃ entry, entryOf uid w = some entry ∧ Carries line entry) ↔
      upToDir line <+: w ∧ GidFits line := by
  obtain ⟨entry, hentry⟩ := hrecords.takenFor.exists_entryOf
  rw [upToDir, leading_prefix_iff hw (by decide)]
  constructor
  · rintro ⟨found, hfound, hcarries⟩
    have htake := take_six_of_carries hw hfound hcarries
    rw [six_fields_congr htake] at hfound
    exact ⟨htake, (carries_iff_gidFits hfound).mp hcarries⟩
  · rintro ⟨htake, hgid⟩
    refine ⟨entry, ?_, (carries_iff_gidFits hentry).mpr hgid⟩
    rw [six_fields_congr htake]
    exact hentry

/-- The part of the file that starts with the record, as far as it is seen. -/
theorem carries_seen_iff (hrecords : Records uid line) {w rest : Text} (hw : w <+: rest)
    {after : List Text} (hrest : lines rest = line :: after) :
    (∃ entry, (lines w).findSome? (entryOf uid) = some entry ∧ Carries line entry) ↔
      upToDir line <+: w ∧ GidFits line := by
  obtain ⟨front, last, last', back, hlines, hlines', hlast⟩ :=
    splitOn_of_prefix (d := '\n') hw
  rw [← lines, hrest] at hlines'
  rw [← lines] at hlines
  rw [hlines]
  cases front with
  | nil =>
      -- What is seen ends within the line.
      obtain ⟨rfl, -⟩ := List.cons.inj hlines'
      have hself : w = last := by
        have hjoin : ['\n'].intercalate (w.splitOn '\n') = w :=
          List.intercalate_splitOn '\n'
        rw [← lines, hlines, List.nil_append, List.intercalate_singleton] at hjoin
        exact hjoin.symm
      rw [← hself] at hlast ⊢
      rw [List.nil_append, ← carries_cut_iff hrecords hlast, List.findSome?_singleton]
  | cons first front =>
      obtain ⟨rfl, -⟩ := List.cons.inj hlines'
      obtain ⟨entry, hentry⟩ := hrecords.takenFor.exists_entryOf
      have hseen : upToDir line <+: w :=
        (leading_isInitial 6 line).trans (prefix_of_splitOn_eq_cons hlines)
      rw [List.cons_append, List.findSome?_cons, hentry]
      constructor
      · rintro ⟨_, ⟨⟩, hcarries⟩
        exact ⟨hseen, (carries_iff_gidFits hentry).mp hcarries⟩
      · rintro ⟨-, hgid⟩
        exact ⟨entry, rfl, (carries_iff_gidFits hentry).mpr hgid⟩

theorem Records.upToDir_ne_nil (h : Records uid line) : upToDir line ≠ [] := by
  intro hnil
  have hsplit := splitOn_leading (d := ':') line (show 0 < 6 by decide)
  rw [← upToDir, hnil, List.splitOn_nil] at hsplit
  have hlen := congrArg List.length hsplit
  rw [List.length_take, ← fields, Nat.min_eq_left h.1] at hlen
  cases hlen

/-- With a record in the file, the first line that is taken for one has its entry. -/
theorem carries_iff_readRight (h : IsFirst (Records uid) (lines content) before line) :
    (∃ entry, (lines (visible content)).findSome? (entryOf uid) = some entry ∧
        Carries line entry) ↔
      ((∀ other ∈ lines (visible (ended '\n' before)), ¬ TakenFor uid other) ∧
        ended '\n' before ++ upToDir line <+: visible content ∧ GidFits line) ∨
      ∃ front other,
        IsFirst (TakenFor uid) (lines (visible (ended '\n' before))) front other ∧
          SameEntry other line := by
  obtain ⟨after, hlines, hrecords, -⟩ := h
  have hbefore : ∀ other ∈ before, '\n' ∉ other := fun other hother =>
    not_mem_of_mem_splitOn (hlines ▸ List.mem_append_left _ hother)
  obtain ⟨rest, hcontent, hrest⟩ := exists_eq_ended_append hlines
  rw [← exists_carries_iff]
  rcases visible_append (ended '\n' before) rest with hcut | ⟨hwhole, w, hw, hseen⟩
  · -- Nothing of the record is seen.
    rw [← hcontent] at hcut
    rw [hcut]
    refine ⟨Or.inr, fun hor => hor.resolve_left ?_⟩
    rintro ⟨-, hstarts, -⟩
    have hlen := hstarts.length_le
    have hle := (visible_isInitial (ended '\n' before)).length_le
    have hpos := List.length_pos_of_ne_nil hrecords.upToDir_ne_nil
    rw [List.length_append] at hlen
    omega
  · rw [← hcontent] at hseen
    have hall : lines (visible content) = before ++ lines w := by
      rw [hseen, lines, splitOn_ended_append hbefore, lines]
    have hfront : lines (visible (ended '\n' before)) = before ++ [[]] := by
      have hended := splitOn_ended_append hbefore []
      rw [List.append_nil] at hended
      rw [hwhole, lines, hended]
      rfl
    have hnone : entryOf uid [] = none := rfl
    rw [hall, hfront, hseen, List.prefix_append_right_inj, List.findSome?_append,
      List.findSome?_append, List.findSome?_singleton, hnone, Option.or_none]
    cases hfind : before.findSome? (entryOf uid) with
    | some entry =>
        rw [Option.some_or]
        refine ⟨Or.inr, fun hor => hor.resolve_left ?_⟩
        rintro ⟨hno, -⟩
        obtain ⟨other, hother, hentry⟩ := List.exists_of_findSome?_eq_some hfind
        exact hno other (List.mem_append_left _ hother) (entryOf_eq_some_iff.mp hentry).1
    | none =>
        rw [List.findSome?_eq_none_iff] at hfind
        have hno : ∀ other ∈ before ++ [[]], ¬ TakenFor uid other := by
          intro other hother
          rw [← entryOf_eq_none_iff]
          rcases List.mem_append.mp hother with hmem | hmem
          · exact hfind other hmem
          · rw [List.mem_singleton.mp hmem, hnone]
        rw [Option.none_or, carries_seen_iff hrecords hw hrest]
        constructor
        · rintro ⟨hstarts, hgid⟩
          exact Or.inl ⟨hno, hstarts, hgid⟩
        · rintro (⟨-, hstarts, hgid⟩ | ⟨_, hentry, -⟩)
          · exact ⟨hstarts, hgid⟩
          · cases hentry

/-- `whoami` finds what there is for the user exactly in the files that are read right. -/
theorem findsRecord_iff (uid : UInt32) (content : Text) :
    FindsRecord uid content ↔ ReadRight uid content := by
  by_cases hrecord : ∃ line ∈ lines content, Records uid line
  · obtain ⟨before, line, hfirst⟩ := exists_isFirst hrecord
    rw [findsRecord_iff_of_isFirst hfirst, carries_iff_readRight hfirst, ReadRight]
    constructor
    · intro h
      exact Or.inr ⟨before, line, hfirst, h⟩
    · rintro (⟨hno, -⟩ | ⟨before', line', hfirst', h⟩)
      · obtain ⟨line, hline, hrecords⟩ := hrecord
        exact absurd hrecords (hno line hline)
      · obtain ⟨rfl, rfl⟩ := hfirst.unique hfirst'
        exact h
  · have hno : ∀ line ∈ lines content, ¬ Records uid line :=
      fun line hline hrecords => hrecord ⟨line, hline, hrecords⟩
    rw [findsRecord_iff_of_none hno, ReadRight]
    constructor
    · intro h
      exact Or.inl ⟨hno, h⟩
    · rintro (⟨-, h⟩ | ⟨before, line, ⟨back, heq, hrecords, -⟩, -⟩)
      · exact h
      · refine absurd hrecords (hno line ?_)
        rw [heq]
        exact List.mem_append_right before List.mem_cons_self

/-- An empty third field is read as the number 0: the line is taken for the record of
`root`, which stands behind it. -/
theorem findsRecord_misread :
    ¬ FindsRecord 0 ("games:x::60:games:/usr/games:/bin/sh\n".toList ++
      "root:x:0:0:root:/root:/bin/bash\n".toList) := by
  have hrun : getNameGidAndDir 0 ("games:x::60:games:/usr/games:/bin/sh\n".toList ++
      "root:x:0:0:root:/root:/bin/bash\n".toList) =
        some (some ⟨"games".toList, 60, "/usr/games".toList⟩) := by decide +kernel
  have hzero : (fields "root:x:0:0:root:/root:/bin/bash".toList)[2]? = some ['0'] := by
    decide +kernel
  have hempty : (fields "games:x::60:games:/usr/games:/bin/sh".toList)[2]? = some [] := by
    decide +kernel
  have hroot : Records 0 "root:x:0:0:root:/root:/bin/bash".toList :=
    ⟨by decide +kernel, ['0'], hzero, Numeral.digit rfl⟩
  have hgames : ¬ Records 0 "games:x::60:games:/usr/games:/bin/sh".toList := by
    rintro ⟨-, text, htext, hnumeral⟩
    rw [hempty] at htext
    obtain rfl := Option.some.inj htext
    exact hnumeral.eq_ofDigitChars.1 rfl
  have hfirst : IsFirst (Records 0)
      (lines ("games:x::60:games:/usr/games:/bin/sh\n".toList ++
        "root:x:0:0:root:/root:/bin/bash\n".toList))
      ["games:x::60:games:/usr/games:/bin/sh".toList]
      "root:x:0:0:root:/root:/bin/bash".toList :=
    ⟨[[]], by decide +kernel, hroot, by simpa using hgames⟩
  rintro ⟨result, hresult, -, hcarries⟩
  rw [hrun] at hresult
  obtain rfl := Option.some.inj hresult
  have hname := (hcarries _ rfl _ _ hfirst).1
  revert hname
  decide +kernel

end OsCoursework.Shell
