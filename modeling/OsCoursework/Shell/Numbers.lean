import OsCoursework.Shell.Jobs

/-!
# Numbers as arguments

`fg` and `kill` look at the characters of a number before they hand it to
`std::stoi`.  The loops accept a text without digits and numbers of any length;
`stoi` throws for both, and nothing catches the exception.
-/

namespace OsCoursework.Shell

open OsCoursework.Calls

/-! ## Decimal numbers -/

def digitValue (c : Char) : ℕ :=
  c.toNat - '0'.toNat

/-- A text of digits and the number it writes. -/
inductive Numeral : Text → ℕ → Prop where
  | digit {c : Char} (hc : c.isDigit = true) : Numeral [c] (digitValue c)
  | snoc {digits : Text} {n : ℕ} {c : Char} (h : Numeral digits n)
      (hc : c.isDigit = true) : Numeral (digits ++ [c]) (10 * n + digitValue c)

/-- A number with or without a minus sign. -/
inductive IntNumeral : Text → ℤ → Prop where
  | plain {digits : Text} {n : ℕ} (h : Numeral digits n) : IntNumeral digits n
  | minus {digits : Text} {n : ℕ} (h : Numeral digits n) :
      IntNumeral ('-' :: digits) (-n)

/-- The value that `stoi` computes is the number that is written. -/
theorem numeral_ofDigitChars {digits : Text} (hne : digits ≠ [])
    (hall : ∀ c ∈ digits, c.isDigit = true) :
    Numeral digits (Nat.ofDigitChars 10 digits 0) := by
  induction digits using List.reverseRecOn with
  | nil => exact absurd rfl hne
  | append_singleton digits c ih =>
      have hc := hall c (List.mem_append_right _ List.mem_cons_self)
      have hvalue : Nat.ofDigitChars 10 (digits ++ [c]) 0 =
          10 * Nat.ofDigitChars 10 digits 0 + digitValue c := by
        rw [Nat.ofDigitChars_append, Nat.ofDigitChars_cons, Nat.ofDigitChars_nil]
        rfl
      rw [hvalue]
      by_cases hnil : digits = []
      · rw [hnil, Nat.ofDigitChars_nil, Nat.mul_zero, Nat.zero_add]
        exact .digit hc
      · exact .snoc (ih hnil fun c hmem => hall c (List.mem_append_left _ hmem)) hc

/-! ## What the loops accept -/

/-- The text behind the sign that `isNumber` skips. -/
def unsigned (arg : Text) : Text :=
  match arg with
  | '-' :: rest => rest
  | _ => arg

/-- The loop of `isNumber` comes to the end of the text. -/
def DigitsOnly (arg : Text) : Prop :=
  (unsigned arg).all Char.isDigit = true

/-- The number of an accepted text. -/
def numberOf (arg : Text) : ℤ :=
  match arg with
  | '-' :: rest => -Nat.ofDigitChars 10 rest 0
  | _ => Nat.ofDigitChars 10 arg 0

/-- There is a digit, and the number is an `int`. -/
def FitsInt (arg : Text) : Prop :=
  unsigned arg ≠ [] ∧ -2 ^ 31 ≤ numberOf arg ∧ numberOf arg ≤ intMax

instance (arg : Text) : Decidable (DigitsOnly arg) :=
  inferInstanceAs (Decidable (_ = _))

instance (arg : Text) : Decidable (FitsInt arg) :=
  inferInstanceAs (Decidable (_ ∧ _ ∧ _))

variable {arg : Text}

/-- A text starts with a minus sign, or the loop starts at its first character. -/
theorem sign_cases (arg : Text) :
    (∃ rest, arg = '-' :: rest) ∨
      (unsigned arg = arg ∧ numberOf arg = Nat.ofDigitChars 10 arg 0 ∧
        arg.head? ≠ some '-') := by
  cases arg with
  | nil => exact Or.inr ⟨rfl, rfl, nofun⟩
  | cons c rest =>
      by_cases hc : c = '-'
      · exact Or.inl ⟨rest, by rw [hc]⟩
      · refine Or.inr ⟨?_, ?_, by simpa using hc⟩
        · unfold unsigned
          split
          · next heq => exact absurd (List.cons.inj heq).1 hc
          · rfl
        · unfold numberOf
          split
          · next heq => exact absurd (List.cons.inj heq).1 hc
          · rfl

/-- An accepted text writes its number. -/
theorem intNumeral_numberOf (hdigits : DigitsOnly arg) (hne : unsigned arg ≠ []) :
    IntNumeral arg (numberOf arg) := by
  rw [DigitsOnly, List.all_eq_true] at hdigits
  rcases sign_cases arg with ⟨rest, rfl⟩ | ⟨hunsigned, hnumber, -⟩
  · exact .minus (numeral_ofDigitChars hne hdigits)
  · rw [hunsigned] at hdigits hne
    rw [hnumber]
    exact .plain (numeral_ofDigitChars hne hdigits)

theorem takeWhile_digits {digits : Text} (h : digits.all Char.isDigit = true) :
    digits.takeWhile Char.isDigit = digits :=
  List.takeWhile_eq_self_iff.mpr (List.all_eq_true.mp h)

/-- After the loops, `stoi` throws exactly for what does not fit. -/
theorem stoi_eq (hdigits : DigitsOnly arg) :
    stoi arg = if FitsInt arg then some (numberOf arg) else none := by
  have hif : ∀ (digits : Text) (value : ℤ),
      (if digits = [] ∨ value < -2 ^ 31 ∨ value > intMax then none else some value) =
        if digits ≠ [] ∧ -2 ^ 31 ≤ value ∧ value ≤ intMax then some value
        else none := by
    intro digits value
    rw [← ite_not]
    simp only [not_or, not_lt, gt_iff_lt, ne_eq]
  rw [DigitsOnly] at hdigits
  change stoi arg = if unsigned arg ≠ [] ∧ -2 ^ 31 ≤ numberOf arg ∧
    numberOf arg ≤ intMax then some (numberOf arg) else none
  rw [← hif]
  rcases sign_cases arg with ⟨rest, rfl⟩ | ⟨hunsigned, hnumber, hhead⟩
  · change rest.all Char.isDigit = true at hdigits
    rw [stoi, takeWhile_digits hdigits, Int.neg_one_mul]
    rfl
  · rw [hunsigned] at hdigits
    rw [hunsigned, hnumber]
    unfold stoi
    split
    next sign digits heq =>
    split at heq
    · exact absurd rfl hhead
    · cases hdigits
    · obtain ⟨rfl, rfl⟩ := Prod.mk.inj heq
      rw [takeWhile_digits hdigits]
      dsimp only
      rw [Int.one_mul]

/-! ## The two validations -/

/-- The checks of `fg` on its argument and the number it goes on with.  `none` inside
is a rejection, outside an exception. -/
def foregroundNumber (arg : Text) : Option (Option ℤ) :=
  if isNum arg = false then some none else (stoi arg).map some

/-- The checks of `kill` on its two arguments. -/
def killArguments (arg1 arg2 : Text) : Option (Option (ℤ × ℤ)) :=
  if arg1.head? ≠ some '-' ∨ arg1 = ['-'] then some none else killNumbers arg1 arg2

/-- `fg` with one argument. -/
theorem foregroundExecute_eq {cmd : CommandData} (harg : cmd.args[1]? = some arg)
    (hmore : cmd.args[2]? = none) :
    foregroundExecute cmd = (do
      let m ← sys .get
      match ← ofOption (foregroundNumber arg) with
      | none => cerr "smash error: fg: invalid arguments".toList
      | some jobId =>
          match getJobById m.jobList jobId with
          | none => cerr ("smash error: fg: job-id ".toList ++ arg ++
              " does not exist".toList)
          | some job => bringToForeground job) := by
  rw [foregroundExecute]
  refine congrArg (bind (sys .get)) (funext fun m => ?_)
  rw [harg, hmore]
  dsimp only
  rw [foregroundNumber]
  cases hnum : isNum arg with
  | false => rfl
  | true =>
      cases stoi arg with
      | none => exact congrArg (Prog.call Sys.undefined) (funext nofun)
      | some jobId => rfl

/-- `kill` with two arguments. -/
theorem killExecute_eq {cmd : CommandData} {arg1 arg2 : Text}
    (harg1 : cmd.args[1]? = some arg1) (harg2 : cmd.args[2]? = some arg2)
    (hmore : cmd.args[3]? = none) :
    killExecute cmd = (do
      let m ← sys .get
      match ← ofOption (killArguments arg1 arg2) with
      | none => cerr "smash error: kill: invalid arguments".toList
      | some (sigNum, jobId) =>
          match getJobById m.jobList jobId with
          | none => cerr ("smash error: kill: job-id ".toList ++ decimal jobId ++
              " does not exist".toList)
          | some job => do
              let sent ← sys (.kill job.pid sigNum)
              cout ("signal number ".toList ++ decimal sigNum ++
                " was sent to pid ".toList ++ decimal job.pid)
              when (sent = false) (sys (.perror "smash error: kill failed"))) := by
  rw [killExecute]
  refine congrArg (bind (sys .get)) (funext fun m => ?_)
  rw [harg1, harg2, hmore]
  dsimp only
  rw [killArguments]
  by_cases hsign : arg1.head? ≠ some '-' ∨ arg1 = ['-']
  · rw [if_pos hsign, if_pos (Or.inr hsign)]
    rfl
  · have hno : ¬ ((none : Option Text) ≠ none ∨ arg1.head? ≠ some '-' ∨ arg1 = ['-']) :=
      not_or.mpr ⟨fun h => h rfl, hsign⟩
    rw [if_neg hsign]
    exact (if_neg hno).trans rfl

/-! ## Which arguments are safe -/

/-- `fg` rejects its argument or goes on with the number that it writes. -/
def ForegroundSafe (arg : Text) : Prop :=
  ∃ result, foregroundNumber arg = some result ∧
    ∀ jobId, result = some jobId → IntNumeral arg jobId

/-- `kill` rejects its arguments or goes on with the numbers that they write. -/
def KillSafe (arg1 arg2 : Text) : Prop :=
  ∃ result, killArguments arg1 arg2 = some result ∧
    ∀ sigNum jobId, result = some (sigNum, jobId) →
      IntNumeral (arg1.drop 1) sigNum ∧ IntNumeral arg2 jobId

/-- The loop of `isNumber`, then `stoi`. -/
theorem isNumber_eq (arg : Text) :
    isNumber arg = if DigitsOnly arg then
      (if FitsInt arg then some (some (numberOf arg)) else none) else some none := by
  have hdef : isNumber arg = if DigitsOnly arg then (stoi arg).map some
      else some none := rfl
  rw [hdef]
  by_cases hdigits : DigitsOnly arg
  · rw [if_pos hdigits, if_pos hdigits, stoi_eq hdigits]
    split
    · rfl
    · rfl
  · rw [if_neg hdigits, if_neg hdigits]

theorem isNum_iff : isNum arg = true ↔ DigitsOnly arg ∧ arg.head? ≠ some '-' := by
  rcases sign_cases arg with ⟨rest, rfl⟩ | ⟨hunsigned, -, hhead⟩
  · refine iff_of_false nofun ?_
    rintro ⟨-, hhead⟩
    exact hhead rfl
  · rw [DigitsOnly, hunsigned, isNum]
    exact ⟨fun h => ⟨h, hhead⟩, And.left⟩

theorem foregroundSafe_iff :
    ForegroundSafe arg ↔
      (DigitsOnly arg → arg.head? ≠ some '-' → FitsInt arg) := by
  rw [ForegroundSafe, foregroundNumber]
  cases hnum : isNum arg with
  | false =>
      refine iff_of_true ⟨none, rfl, nofun⟩ fun hdigits hhead => ?_
      rw [isNum_iff.mpr ⟨hdigits, hhead⟩] at hnum
      cases hnum
  | true =>
      obtain ⟨hdigits, hhead⟩ := isNum_iff.mp hnum
      rw [if_neg (by decide), stoi_eq hdigits]
      by_cases hfits : FitsInt arg
      · rw [if_pos hfits]
        refine iff_of_true ⟨some (numberOf arg), rfl, ?_⟩ fun _ _ => hfits
        rintro _ ⟨⟩
        exact intNumeral_numberOf hdigits hfits.1
      · rw [if_neg hfits]
        refine iff_of_false ?_ fun h => hfits (h hdigits hhead)
        rintro ⟨_, ⟨⟩, -⟩

/-- The job id is looked at only after a number of a signal. -/
theorem killSafe_iff {arg1 arg2 : Text} :
    KillSafe arg1 arg2 ↔
      (arg1.head? = some '-' → arg1 ≠ ['-'] → DigitsOnly (arg1.drop 1) →
        FitsInt (arg1.drop 1) ∧ (DigitsOnly arg2 → FitsInt arg2)) := by
  rw [KillSafe, killArguments]
  by_cases hsign : arg1.head? ≠ some '-' ∨ arg1 = ['-']
  · rw [if_pos hsign]
    refine iff_of_true ⟨none, rfl, nofun⟩ fun hhead hne => ?_
    rcases hsign with hno | hminus
    · exact absurd hhead hno
    · exact absurd hminus hne
  rw [if_neg hsign, killNumbers, isNumber_eq]
  rw [not_or, not_not] at hsign
  by_cases hdigits : DigitsOnly (arg1.drop 1)
  swap
  · rw [if_neg hdigits]
    exact iff_of_true ⟨none, rfl, nofun⟩ fun _ _ h => absurd h hdigits
  rw [if_pos hdigits]
  by_cases hfits : FitsInt (arg1.drop 1)
  swap
  · rw [if_neg hfits]
    refine iff_of_false ?_ fun h => hfits (h hsign.1 hsign.2 hdigits).1
    rintro ⟨_, hnone, -⟩
    cases hnone
  rw [if_pos hfits]
  -- The signal is a number; the job id decides.
  change (∃ result, (isNumber arg2).bind _ = some result ∧ _) ↔ _
  rw [isNumber_eq]
  by_cases hdigits2 : DigitsOnly arg2
  swap
  · rw [if_neg hdigits2]
    exact iff_of_true ⟨none, rfl, nofun⟩ fun _ _ _ =>
      ⟨hfits, fun h => absurd h hdigits2⟩
  rw [if_pos hdigits2]
  by_cases hfits2 : FitsInt arg2
  · rw [if_pos hfits2]
    refine iff_of_true ⟨some (numberOf (arg1.drop 1), numberOf arg2), rfl, ?_⟩
      fun _ _ _ => ⟨hfits, fun _ => hfits2⟩
    rintro sigNum jobId heq
    obtain ⟨rfl, rfl⟩ := Prod.mk.inj (Option.some.inj heq)
    exact ⟨intNumeral_numberOf hdigits hfits.1, intNumeral_numberOf hdigits2 hfits2.1⟩
  · rw [if_neg hfits2]
    refine iff_of_false ?_ fun h => hfits2 ((h hsign.1 hsign.2 hdigits).2 hdigits2)
    rintro ⟨_, hnone, -⟩
    cases hnone

/-- The arguments for which `fg` and `kill` cannot throw: whatever the loops accept
has a digit and is an `int`. -/
theorem numbers_safe_iff (arg1 arg2 : Text) :
    (ForegroundSafe arg1 ↔
      (DigitsOnly arg1 → arg1.head? ≠ some '-' → FitsInt arg1)) ∧
    (KillSafe arg1 arg2 ↔
      (arg1.head? = some '-' → arg1 ≠ ['-'] → DigitsOnly (arg1.drop 1) →
        FitsInt (arg1.drop 1) ∧ (DigitsOnly arg2 → FitsInt arg2))) :=
  ⟨foregroundSafe_iff, killSafe_iff⟩

/-- `fg 2147483648`, `kill -9 2147483648` and `kill -- 1` end the shell. -/
theorem numbers_throw :
    ¬ ForegroundSafe "2147483648".toList ∧
      ¬ KillSafe "-9".toList "2147483648".toList ∧
      ¬ KillSafe "--".toList "1".toList := by
  have hlarge : DigitsOnly "2147483648".toList ∧ ¬ FitsInt "2147483648".toList := by
    decide +kernel
  have hnine : DigitsOnly ("-9".toList.drop 1) := by decide +kernel
  have hminus : DigitsOnly ("--".toList.drop 1) ∧ ¬ FitsInt ("--".toList.drop 1) := by
    decide +kernel
  refine ⟨fun h => ?_, fun h => ?_, fun h => ?_⟩
  · exact hlarge.2 (foregroundSafe_iff.mp h hlarge.1 (by decide))
  · exact hlarge.2 ((killSafe_iff.mp h (by decide) (by decide) hnine).2 hlarge.1)
  · exact hminus.2 (killSafe_iff.mp h (by decide) (by decide) hminus.1).1

end OsCoursework.Shell
