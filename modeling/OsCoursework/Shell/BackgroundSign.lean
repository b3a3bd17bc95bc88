import OsCoursework.Shell.Text

/-!
# The background sign of a line

What the two functions on the background sign should do, stated on the line alone,
and which lines they do it for.  A search that finds nothing answers `npos`:
`_isBackgroundComamnd` indexes the string with it, and an `unsigned int` never
compares equal to it.
-/

namespace OsCoursework.Shell

open OsCoursework.Words

/-! ## Positions -/

/-- The position that `_isBackgroundComamnd` reads. -/
def signPosition (cmdLine : Text) : ℕ :=
  (findLastNotOf cmdLine).getD npos

/-- The position that `_removeBackgroundSignConstant` reads and writes, if it gets
there. -/
def removalPosition (cmdLine : Text) : Option ℕ :=
  let idx := toUnsigned (findLastNotOf cmdLine)
  if idx = npos then none else some idx

theorem isBackgroundComamnd_eq (s : Text) :
    isBackgroundComamnd s = (charAt s (signPosition s)).map (· == '&') :=
  rfl

/-- Without a position to look at, the line stays as it is. -/
theorem removeBackgroundSignConstant_of_none {s : Text} (h : removalPosition s = none) :
    removeBackgroundSignConstant s = some s := by
  rw [removalPosition] at h
  rw [removeBackgroundSignConstant]
  split at h
  · next hidx => exact if_pos hidx
  · cases h

/-- Outside of the string the result is undefined. -/
theorem removeBackgroundSignConstant_of_outside {s : Text} {i : ℕ}
    (h : removalPosition s = some i) (hout : s.length < i) :
    removeBackgroundSignConstant s = none := by
  rw [removalPosition] at h
  rw [removeBackgroundSignConstant]
  split at h
  · cases h
  · next hidx =>
    have hnone : charAt s i = none := by
      rw [charAt, List.getElem?_eq_none_iff, List.length_append, List.length_singleton]
      omega
    rw [Option.some.injEq] at h
    rw [if_neg hidx, h, hnone]
    rfl

/-! ## The sign -/

/-- The last character that is not blank is `&`. -/
def EndsWithSign (s : Text) : Prop :=
  ∃ front post, s = front ++ '&' :: post ∧ Blank isSpace post

/-- What the callers rely on. -/
structure SignHandled (s : Text) : Prop where
  sign_lt : signPosition s < s.length
  removal_lt : ∀ i, removalPosition s = some i → i < s.length
  background : isBackgroundComamnd s = some true ↔ EndsWithSign s
  foreground : isBackgroundComamnd s = some false ↔ ¬ EndsWithSign s
  unchanged : ¬ EndsWithSign s → removeBackgroundSignConstant s = some s
  removed : ∀ front post, s = front ++ '&' :: post → Blank isSpace post →
    removeBackgroundSignConstant s = some (front.rdropWhile isSpace)

variable {s pre post : Text} {c : Char}

/-- A line ends with a sign exactly when that is its last visible character. -/
theorem endsWithSign_iff (pre : Text) (hc : isSpace c = false)
    (hpost : Blank isSpace post) : EndsWithSign (pre ++ c :: post) ↔ c = '&' := by
  constructor
  · rintro ⟨front, rest, heq, hrest⟩
    have hlast : findLastNotOf (front ++ '&' :: rest) = some front.length :=
      lastIdx?_append (by decide) fun x hx => by simp [hrest x hx]
    rw [← heq, findLastNotOf, lastIdx?_append (by simp [hc]) fun x hx => by
      simp [hpost x hx], Option.some.injEq] at hlast
    have hcons := (List.append_inj heq hlast).2
    exact (List.cons.inj hcons).1
  · rintro rfl
    exact ⟨pre, post, rfl, hpost⟩

/-- The removed line in terms of what stands in front of the sign. -/
theorem stripSign_of_sign (hpost : Blank isSpace post) :
    stripSign (pre ++ '&' :: post) = pre.rdropWhile isSpace := by
  rw [stripSign_eq pre (by decide) hpost, if_pos rfl, rtrim_eq]

theorem stripSign_of_not_sign (h : ¬ EndsWithSign s) : stripSign s = s := by
  by_cases hblank : Blank isSpace s
  · have hnil : rtrim s = [] := by
      rw [rtrim_eq]
      exact List.rdropWhile_eq_nil_iff.mpr hblank
    rw [stripSign, hnil]
    rfl
  · obtain ⟨pre, c, post, rfl, hc, hpost, -⟩ := exists_of_not_blank hblank
    rw [endsWithSign_iff pre hc hpost] at h
    rw [stripSign_eq pre hc hpost, if_neg h]

/-- Whatever a removal should bring is the line without its sign. -/
theorem SignHandled.removal (h : SignHandled s) :
    removeBackgroundSignConstant s = some (stripSign s) := by
  by_cases hsign : EndsWithSign s
  · obtain ⟨front, post, rfl, hpost⟩ := hsign
    rw [h.removed front post rfl hpost, stripSign_of_sign hpost]
  · rw [h.unchanged hsign, stripSign_of_not_sign hsign]

theorem isBackgroundComamnd_append (pre : Text) (hc : isSpace c = false)
    (hpost : Blank isSpace post) :
    isBackgroundComamnd (pre ++ c :: post) = some (c == '&') := by
  have hlast : findLastNotOf (pre ++ c :: post) = some pre.length :=
    lastIdx?_append (by simp [hc]) fun x hx => by simp [hpost x hx]
  rw [isBackgroundComamnd_eq, signPosition, hlast, Option.getD_some, charAt]
  simp

/-- A blank line has no sign, and no position to look for it. -/
theorem not_signHandled_of_blank (hlen : s.length < npos) (hblank : Blank isSpace s) :
    ¬ SignHandled s := by
  intro h
  have hnone : findLastNotOf s = none :=
    lastIdx?_eq_none.mpr fun c hc => by simp [hblank c hc]
  have hlt := h.sign_lt
  rw [signPosition, hnone, Option.getD_none] at hlt
  omega

/-- The functions handle the sign of a line exactly when the line is not blank and
the cut to 32 bits does not move the place where they look for it. -/
theorem signHandled_iff (s : Text) (hlen : s.length < npos) :
    SignHandled s ↔ ¬ Blank isSpace s ∧ SignInReach s := by
  constructor
  · intro h
    have hblank : ¬ Blank isSpace s := fun hb => not_signHandled_of_blank hlen hb h
    exact ⟨hblank, signInReach_of_ink hblank h.removal rfl⟩
  · rintro ⟨hblank, hreach⟩
    have hremoval := removeBackgroundSignConstant_of_reach hblank hreach
    obtain ⟨pre, c, post, rfl, hc, hpost, hlast⟩ := exists_of_not_blank hblank
    have hbackground := isBackgroundComamnd_append pre hc hpost
    have hsign := endsWithSign_iff pre hc hpost
    constructor
    · rw [signPosition, hlast]
      simp
    · intro i hi
      rw [removalPosition, hlast, toUnsigned, Option.getD_some] at hi
      split at hi
      · cases hi
      · rw [← Option.some.inj hi]
        have hle := Nat.mod_le pre.length (2 ^ 32)
        simp
        omega
    · rw [hbackground, hsign]
      simp
    · rw [hbackground, hsign]
      simp
    · intro hno
      rw [hremoval, stripSign_of_not_sign hno]
    · intro front rest heq hrest
      rw [hremoval, heq, stripSign_of_sign hrest]

theorem signHandled_iff_sleep :
    "sleep 5 &".toList.length < npos ∧ SignHandled "sleep 5 &".toList := by
  have hlen : "sleep 5 &".toList.length < npos := by decide +kernel
  have hreach : SignInReach "sleep 5 &".toList := by
    intro p hp
    have hp' : findLastNotOf "sleep 5 &".toList = some 8 := by decide +kernel
    rw [hp', Option.some.injEq] at hp
    exact Or.inl (by omega)
  exact ⟨hlen, (signHandled_iff _ hlen).mpr ⟨by decide +kernel, hreach⟩⟩

/-- For the empty line, `_isBackgroundComamnd` reads `str[npos]`. -/
theorem empty_not_signHandled : ¬ SignHandled [] :=
  not_signHandled_of_blank (by decide +kernel) nofun

end OsCoursework.Shell
