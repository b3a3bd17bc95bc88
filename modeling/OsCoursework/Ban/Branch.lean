import OsCoursework.Ban.Kernel

/-!
# Flipping the bans of a branch

`toggle` is what `sys_flip_ban_branch` is for: flip one flag of the tasks of a list.
The loop toggles the first `height` ancestors of the caller.
-/

namespace OsCoursework.Ban

open OsCoursework.ParentChain

variable {τ W : Type*} [DecidableEq τ]

/-! ## Flags -/

/-- The three flags. -/
def IsSignal (sig : BitVec 8) : Prop :=
  sig = GETPID ∨ sig = PIPE ∨ sig = KILL

theorem isSignal_of_signalOf {ban : Char} {sig : BitVec 8}
    (h : signalOf ban = some sig) : IsSignal sig := by
  unfold signalOf at h
  split at h
  · exact Or.inl (Option.some.inj h).symm
  · exact Or.inr (Or.inl (Option.some.inj h).symm)
  · exact Or.inr (Or.inr (Option.some.inj h).symm)
  · cases h

theorem IsSignal.or_eq {sig : BitVec 8} (h : IsSignal sig) (flags : BitVec 8) :
    (if flags &&& sig = 0 then flags ||| sig else flags &&& ~~~ sig) =
      flags ^^^ sig := by
  rcases h with rfl | rfl | rfl <;> revert flags <;> decide +kernel

theorem IsSignal.xor_and {sig : BitVec 8} (h : IsSignal sig) (flags : BitVec 8) :
    (flags ^^^ sig) &&& sig = 0 ↔ ¬ flags &&& sig = 0 := by
  rcases h with rfl | rfl | rfl <;> revert flags <;> decide +kernel

/-! ## Toggling -/

/-- Flip the flag `sig` of the tasks in `l`. -/
def toggle (sig : BitVec 8) (l : List τ) (task : τ → Task τ) : τ → Task τ :=
  fun t => if t ∈ l then
    { task t with bannedSignals := (task t).bannedSignals ^^^ sig } else task t

/-- The tasks of `l` whose flag is clear. -/
def clear (sig : BitVec 8) (task : τ → Task τ) (l : List τ) : ℕ :=
  l.countP fun t => (task t).bannedSignals &&& sig = 0

@[simp] theorem toggle_realParent (sig : BitVec 8) (l : List τ) (task : τ → Task τ)
    (t : τ) : (toggle sig l task t).realParent = (task t).realParent := by
  rw [toggle]
  split <;> rfl

theorem toggle_flags (sig : BitVec 8) (l : List τ) (task : τ → Task τ) (t : τ) :
    (toggle sig l task t).bannedSignals =
      if t ∈ l then (task t).bannedSignals ^^^ sig else (task t).bannedSignals := by
  rw [toggle]
  split <;> rfl

theorem toggle_of_not_mem {sig : BitVec 8} {l : List τ} {task : τ → Task τ} {t : τ}
    (h : t ∉ l) : toggle sig l task t = task t :=
  if_neg h

theorem toggle_nil (sig : BitVec 8) (task : τ → Task τ) : toggle sig [] task = task := by
  funext t
  exact toggle_of_not_mem List.not_mem_nil

theorem toggle_cons {sig : BitVec 8} {p : τ} {l : List τ} (task : τ → Task τ)
    (hp : p ∉ l) : toggle sig (p :: l) task = toggle sig l (toggle sig [p] task) := by
  funext t
  by_cases htp : t = p
  · subst htp
    rw [toggle_of_not_mem hp]
    simp [toggle]
  · simp [toggle, htp]

theorem toggle_toggle (sig : BitVec 8) (l : List τ) (task : τ → Task τ) :
    toggle sig l (toggle sig l task) = task := by
  funext t
  by_cases ht : t ∈ l
  · simp only [toggle, if_pos ht, BitVec.xor_assoc, BitVec.xor_self, BitVec.xor_zero]
  · rw [toggle_of_not_mem ht, toggle_of_not_mem ht]

theorem toggle_comm (sig sig' : BitVec 8) (l l' : List τ) (task : τ → Task τ) :
    toggle sig l (toggle sig' l' task) = toggle sig' l' (toggle sig l task) := by
  funext t
  by_cases ht : t ∈ l <;> by_cases ht' : t ∈ l' <;> simp [toggle, ht, ht']
  rw [BitVec.xor_assoc, BitVec.xor_comm sig', BitVec.xor_assoc]

omit [DecidableEq τ] in
/-- Tasks outside `l` do not matter for the number of clear flags. -/
theorem clear_congr {sig : BitVec 8} {task task' : τ → Task τ} {l : List τ}
    (h : ∀ t ∈ l, task' t = task t) : clear sig task' l = clear sig task l := by
  refine List.countP_congr fun t ht => ?_
  rw [h t ht]

/-- After toggling, the other tasks are the clear ones. -/
theorem clear_toggle {sig : BitVec 8} (h : IsSignal sig) (task : τ → Task τ)
    (l : List τ) : clear sig task l + clear sig (toggle sig l task) l = l.length := by
  have hflip : clear sig (toggle sig l task) l =
      l.countP fun t => ¬ (task t).bannedSignals &&& sig = 0 := by
    refine List.countP_congr fun t ht => ?_
    rw [decide_eq_true_eq, decide_eq_true_eq, toggle_flags, if_pos ht, h.xor_and]
  rw [hflip, clear, List.length_eq_countP_add_countP
    (fun t => decide ((task t).bannedSignals &&& sig = 0))]
  congr 2
  funext t
  simp

/-! ## The loop -/

/-- One round of the loop. -/
theorem flip_round {sig : BitVec 8} (h : IsSignal sig) (task : τ → Task τ) (p : τ)
    (count : ℤ) :
    (if (task p).bannedSignals &&& sig = 0 then
        (count + 1, setFlags task p ((task p).bannedSignals ||| sig))
      else (count, setFlags task p ((task p).bannedSignals &&& ~~~ sig))) =
      (count + clear sig task [p], toggle sig [p] task) := by
  have hflags := h.or_eq (task p).bannedSignals
  have htoggle : toggle sig [p] task =
      setFlags task p ((task p).bannedSignals ^^^ sig) := by
    funext t
    by_cases htp : t = p
    · subst htp
      simp [toggle, setFlags]
    · rw [setFlags, Function.update_of_ne htp, toggle_of_not_mem (by simp [htp])]
  rw [htoggle, ← hflags]
  split
  · next hclear => simp [clear, hclear]
  · next hset =>
    have hnone : clear sig task [p] = 0 := by
      rw [clear, List.countP_singleton, if_neg (by simpa using hset)]
    rw [hnone, Int.natCast_zero, Int.add_zero]

/-- The loop toggles the first `height` tasks of the chain that starts with `p`. -/
theorem flipLoop_eq {sig : BitVec 8} (h : IsSignal sig) {task : τ → Task τ} {p : τ}
    {l : List τ} (hp : Ancestors (fun t => (task t).realParent) p l) (height : ℕ)
    (count : ℤ) :
    flipLoop sig height task (some p) count =
      (count + clear sig task ((p :: l).take height),
        toggle sig ((p :: l).take height) task) := by
  induction height generalizing task p l count with
  | zero => simp [flipLoop, clear, toggle_nil]
  | succ height ih =>
      rw [flipLoop, flip_round h]
      simp only [toggle_realParent, List.take_succ_cons]
      cases hp with
      | root hroot =>
          rw [if_pos hroot, List.take_nil]
      | @step _ q l hparent hne hq =>
          have hbreak : ¬ (task p).realParent = some p := by
            rw [hparent, Option.some.injEq]
            exact hne
          have hmem : p ∉ (q :: l).take height := fun hmem =>
            (Ancestors.step hparent hne hq).not_mem (List.mem_of_mem_take hmem)
          have hq' : Ancestors (fun t => (toggle sig [p] task t).realParent) q l := by
            simpa only [toggle_realParent] using hq
          have hsame : clear sig (toggle sig [p] task) ((q :: l).take height) =
              clear sig task ((q :: l).take height) := by
            refine clear_congr fun t ht => toggle_of_not_mem ?_
            rw [List.mem_singleton]
            rintro rfl
            exact hmem ht
          rw [if_neg hbreak, hparent, ih hq', ← toggle_cons _ hmem, hsame, Int.add_assoc]
          simp [clear, List.countP_cons, Int.add_comm]

/-! ## The call -/

variable {k : Kernel τ W} {c : τ} {height : ℤ} {ban : Char} {sig : BitVec 8}
  {l : List τ}

/-- The caller may flip: a positive height, a known letter, its own flag clear. -/
def MayFlip (k : Kernel τ W) (c : τ) (height : ℤ) (ban : Char) : Prop :=
  0 < height ∧ ∃ sig, signalOf ban = some sig ∧
    (k.task c).bannedSignals &&& sig = 0

theorem sysFlipBanBranch_of_not (h : ¬ MayFlip k c height ban) :
    (sysFlipBanBranch k c height ban).1 < 0 ∧
      (sysFlipBanBranch k c height ban).2 = k := by
  rw [sysFlipBanBranch]
  split
  · exact ⟨show -EINVAL < 0 by decide, rfl⟩
  · next hheight =>
    split
    · exact ⟨show -EINVAL < 0 by decide, rfl⟩
    · next sig hsig =>
      split
      · exact ⟨show -EPERM < 0 by decide, rfl⟩
      · next hclear =>
        rw [not_not] at hclear
        exact absurd ⟨not_le.mp hheight, sig, hsig, hclear⟩ h

/-- The tasks that a flip of the given height concerns. -/
def branch (height : ℤ) (l : List τ) : List τ :=
  l.take height.toNat

/-- The kernel after toggling the flag `sig` of the tasks in `l`. -/
def Kernel.toggle (k : Kernel τ W) (sig : BitVec 8) (l : List τ) : Kernel τ W :=
  { k with task := Ban.toggle sig l k.task }

@[simp] theorem Kernel.toggle_parent (k : Kernel τ W) (sig : BitVec 8) (l : List τ) :
    (k.toggle sig l).parent = k.parent := by
  funext t
  exact toggle_realParent sig l k.task t

theorem sysFlipBanBranch_eq (hl : Ancestors k.parent c l)
    (hroot : k.parent c ≠ some c) (hheight : 0 < height)
    (hsig : signalOf ban = some sig)
    (hclear : (k.task c).bannedSignals &&& sig = 0) :
    sysFlipBanBranch k c height ban =
      (((clear sig k.task (branch height l) : ℕ) : ℤ),
        k.toggle sig (branch height l)) := by
  unfold sysFlipBanBranch
  rw [if_neg (not_le.mpr hheight), hsig]
  dsimp only
  rw [if_neg (not_not.mpr hclear)]
  cases hl with
  | root h => exact absurd h hroot
  | @step _ p l hparent _ hp =>
      have hfirst : (k.task c).realParent = some p := hparent
      rw [hfirst, flipLoop_eq (isSignal_of_signalOf hsig) hp, Int.zero_add]
      rfl

/-- A flip after one that did not concern the caller. -/
theorem sysFlipBanBranch_toggle_eq (hl : Ancestors k.parent c l)
    (hroot : k.parent c ≠ some c) (hheight : 0 < height)
    (hsig : signalOf ban = some sig)
    (hclear : (k.task c).bannedSignals &&& sig = 0) (sig' : BitVec 8) (l' : List τ)
    (hc : c ∉ l') :
    sysFlipBanBranch (k.toggle sig' l') c height ban =
      (((clear sig (toggle sig' l' k.task) (branch height l) : ℕ) : ℤ),
        (k.toggle sig' l').toggle sig (branch height l)) := by
  have hsame : (k.toggle sig' l').task c = k.task c := toggle_of_not_mem hc
  rw [← Kernel.toggle_parent k sig' l'] at hl hroot
  rw [← hsame] at hclear
  exact sysFlipBanBranch_eq hl hroot hheight hsig hclear

omit [DecidableEq τ] in
/-- The caller is not among its own ancestors. -/
theorem not_mem_branch (hl : Ancestors k.parent c l) (height : ℤ) : c ∉ branch height l :=
  fun hc => hl.not_mem (List.mem_of_mem_take hc)

/-- `sys_flip_ban_branch` toggles the flag of the first `height` proper ancestors and
counts those whose flag was clear; done twice it does nothing, and flips that do
not concern each other's callers commute. -/
theorem flip_ban_branch_spec (k : Kernel τ W) (hforest : k.Forest) (c : τ)
    (hlive : c ∈ k.live) (hroot : (k.task c).realParent ≠ some c) (height : ℤ)
    (ban : Char) :
    (¬ MayFlip k c height ban → (sysFlipBanBranch k c height ban).1 < 0 ∧
      (sysFlipBanBranch k c height ban).2 = k) ∧
    ∃ l, Ancestors k.parent c l ∧ ∀ sig, signalOf ban = some sig →
      MayFlip k c height ban →
      (sysFlipBanBranch k c height ban).1 =
        ((l.take height.toNat).countP fun t =>
          (k.task t).bannedSignals &&& sig = 0 : ℕ) ∧
      (∀ t, ((sysFlipBanBranch k c height ban).2.task t).bannedSignals =
        if t ∈ l.take height.toNat then (k.task t).bannedSignals ^^^ sig
        else (k.task t).bannedSignals) ∧
      (sysFlipBanBranch (sysFlipBanBranch k c height ban).2 c height ban).2 = k ∧
      (sysFlipBanBranch k c height ban).1 +
        (sysFlipBanBranch (sysFlipBanBranch k c height ban).2 c height ban).1 =
          min height l.length ∧
      ∀ c' ∈ k.live, (k.task c').realParent ≠ some c' → ∀ height' ban',
        MayFlip k c' height' ban' → c' ∉ l.take height.toNat →
        (∀ l', Ancestors k.parent c' l' → c ∉ l'.take height'.toNat) →
        (sysFlipBanBranch (sysFlipBanBranch k c height ban).2 c' height' ban').2 =
          (sysFlipBanBranch (sysFlipBanBranch k c' height' ban').2 c height ban).2 := by
  refine ⟨sysFlipBanBranch_of_not, ?_⟩
  obtain ⟨l, hl, -⟩ := hforest c hlive
  refine ⟨l, hl, ?_⟩
  rintro sig hsig ⟨hheight, sig₀, hsig₀, hclear⟩
  rw [hsig, Option.some.injEq] at hsig₀
  subst hsig₀
  have hone := sysFlipBanBranch_eq hl hroot hheight hsig hclear
  have hagain := sysFlipBanBranch_toggle_eq hl hroot hheight hsig hclear
    sig _ (not_mem_branch hl height)
  rw [hone]
  refine ⟨rfl, fun t => toggle_flags _ _ _ _, ?_, ?_, ?_⟩
  · rw [hagain]
    dsimp only [Kernel.toggle]
    rw [toggle_toggle]
  · have hcount := clear_toggle (isSignal_of_signalOf hsig) k.task (branch height l)
    rw [hagain]
    dsimp only
    rw [branch, List.length_take] at hcount
    rw [branch]
    omega
  · rintro c' hlive' hroot' height' ban' ⟨hheight', sig', hsig', hclear'⟩ hc' hc
    obtain ⟨l', hl', -⟩ := hforest c' hlive'
    have hone' := sysFlipBanBranch_eq hl' hroot' hheight' hsig' hclear'
    have hafter := sysFlipBanBranch_toggle_eq hl' hroot' hheight' hsig' hclear'
      sig (branch height l) hc'
    have hafter' := sysFlipBanBranch_toggle_eq hl hroot hheight hsig hclear
      sig' (branch height' l') (hc l' hl')
    rw [hone', hafter, hafter']
    dsimp only [Kernel.toggle]
    rw [toggle_comm]

/-- Three tasks in a row; the first is its own parent. -/
def threeTasks : Kernel (Fin 3) Unit where
  task := fun t => ⟨some ⟨t - 1, by omega⟩, 1000, 0⟩
  live := {0, 1, 2}
  world := ()

theorem threeTasks_ancestors : Ancestors threeTasks.parent 2 [1, 0] :=
  .step rfl (by decide) (.step rfl (by decide) (.root rfl))

theorem threeTasks_forest : threeTasks.Forest := by
  intro t _
  match t with
  | 0 => exact ⟨[], .root rfl, by decide⟩
  | 1 => exact ⟨[0], .step rfl (by decide) (.root rfl), by decide⟩
  | 2 => exact ⟨[1, 0], threeTasks_ancestors, by decide⟩

theorem flip_ban_branch_spec_three : MayFlip threeTasks 2 5 'g' ∧
    (sysFlipBanBranch threeTasks 2 5 'g').1 = 2 := by
  have hmay : MayFlip threeTasks 2 5 'g' := ⟨by decide, GETPID, by decide, by decide⟩
  refine ⟨hmay, ?_⟩
  obtain ⟨-, l, hl, hflip⟩ := flip_ban_branch_spec threeTasks threeTasks_forest 2
    (by decide) (by decide) 5 'g'
  have hcount := (hflip GETPID (by decide) hmay).1
  rw [hl.unique threeTasks_ancestors] at hcount
  exact hcount

end OsCoursework.Ban
