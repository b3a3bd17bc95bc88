import Mathlib.Algebra.Ring.Parity
import OsCoursework.Ban.Authority
import OsCoursework.Support.Transition

/-!
# Bans as parities

Over a whole run the flag of a task that does not set its own bans depends on the
record of the calls only: it is the flag at the start, changed once for each flip
that succeeded and whose branch the task is on.
-/

namespace OsCoursework.Ban

open OsCoursework.ParentChain OsCoursework.Transition

variable {τ W : Type*} [DecidableEq τ] {svc : Services τ W} {k k' : Kernel τ W}
  {t : τ} {b : Char} {sig : BitVec 8}

/-! ## Recorded runs -/

/-- A call with its caller and its return value, or a fork. -/
inductive Record (τ : Type*) where
  | call (current : τ) (c : Call) (ret : ℤ)
  | fork (parent child : τ)

/-- The steps, with their records. -/
inductive Logged (svc : Services τ W) : Record τ → Kernel τ W → Kernel τ W → Prop where
  | call {k : Kernel τ W} {current : τ} (c : Call) (hlive : current ∈ k.live)
      (hroot : (k.task current).realParent ≠ some current) :
      Logged svc (.call current c (exec svc k current c).1) k (exec svc k current c).2
  | fork {k : Kernel τ W} {parent child : τ} (hlive : parent ∈ k.live)
      (hnew : child ∉ k.live) : Logged svc (.fork parent child) k (fork k parent child)

theorem step_iff_exists_logged : Step svc k k' ↔ ∃ r, Logged svc r k k' := by
  constructor
  · rintro (⟨c, hlive, hroot⟩ | ⟨hlive, hnew⟩)
    · exact ⟨_, .call c hlive hroot⟩
    · exact ⟨_, .fork hlive hnew⟩
  · rintro ⟨r, ⟨c, hlive, hroot⟩ | ⟨hlive, hnew⟩⟩
    · exact .call c hlive hroot
    · exact .fork hlive hnew

/-- A flip for `b` that succeeded and whose branch the task is on. -/
def Covers (parent : τ → Option τ) (b : Char) (t : τ) : Record τ → Prop
  | .call current (.flipBanBranch height ban) ret =>
      ban = b ∧ 0 ≤ ret ∧ ∃ l, Ancestors parent current l ∧ t ∈ l.take height.toNat
  | _ => False

noncomputable instance (parent : τ → Option τ) (b : Char) (t : τ) :
    DecidablePred (Covers parent b t) :=
  Classical.decPred _

/-- The task sets its own bans. -/
def SetsOwn (t : τ) : Record τ → Prop
  | .call current (.setBan _ _ _) ret => current = t ∧ 0 ≤ ret
  | _ => False

/-! ## Parents -/

theorem Logged.inv {r : Record τ} (h : Logged svc r k k') (hk : KernelInv k) :
    KernelInv k' :=
  hk.step (step_iff_exists_logged.mpr ⟨r, h⟩)

/-- Tasks in use stay in use and keep their parents. -/
theorem Logged.parent_eq {r : Record τ} (h : Logged svc r k k') (hk : KernelInv k)
    (ht : t ∈ k.live) : t ∈ k'.live ∧ k'.parent t = k.parent t := by
  cases h with
  | @call _ current c hlive hroot =>
      obtain ⟨heffect, hsame⟩ := exec_effect svc (hk.exists_ancestors hlive) hroot c
      exact ⟨hsame ▸ ht, heffect.realParent_eq t⟩
  | @fork _ parent child hlive hnew =>
      have hne : t ≠ child := by
        rintro rfl
        exact hnew ht
      refine ⟨Finset.mem_insert_of_mem ht, ?_⟩
      rw [Kernel.parent, fork_task_of_ne hne]
      rfl

theorem logged_parent_eq {rs : List (Record τ)} (h : Run (Logged svc) rs k k')
    (hk : KernelInv k) (ht : t ∈ k.live) : t ∈ k'.live ∧ k'.parent t = k.parent t := by
  induction h with
  | nil => exact ⟨ht, rfl⟩
  | cons hstep _ ih =>
      obtain ⟨hlive, hparent⟩ := hstep.parent_eq hk ht
      obtain ⟨hlive', hparent'⟩ := ih (hstep.inv hk) hlive
      exact ⟨hlive', hparent'.trans hparent⟩

/-- The branch of a caller is the same at the end of the run. -/
theorem covers_iff {rs : List (Record τ)} (h : Run (Logged svc) rs k k')
    (hk : KernelInv k) {current : τ} (hlive : current ∈ k.live) {c : Call} {ret : ℤ} :
    Covers k'.parent b t (.call current c ret) ↔
      Covers k.parent b t (.call current c ret) := by
  obtain ⟨l, hl, hmem⟩ := hk.forest current hlive
  have hl' : Ancestors k'.parent current l :=
    hl.congr (logged_parent_eq h hk hlive).2 fun a ha =>
      (logged_parent_eq h hk (hmem a ha)).2
  cases c with
  | flipBanBranch height ban =>
      refine and_congr_right fun _ => and_congr_right fun _ => ?_
      constructor
      · rintro ⟨l', hl₁, hl₂⟩
        exact ⟨l, hl, hl₁.unique hl' ▸ hl₂⟩
      · rintro ⟨l', hl₁, hl₂⟩
        exact ⟨l, hl', hl₁.unique hl ▸ hl₂⟩
  | _ => exact Iff.rfl

/-! ## Parity -/

/-- A flip changes the flags for its own ban, of the tasks of its branch. -/
theorem banned_flip {c : τ} {height : ℤ} {ban : Char} (hl : ∃ l, Ancestors k.parent c l)
    (hroot : k.parent c ≠ some c) (hsig : signalOf b = some sig) :
    Banned (sysFlipBanBranch k c height ban).2 t sig ↔
      ¬ (Banned k t sig ↔ Covers k.parent b t
        (.call c (.flipBanBranch height ban) (sysFlipBanBranch k c height ban).1)) := by
  by_cases hmay : MayFlip k c height ban
  · obtain ⟨hheight, sig', hsig', hclear⟩ := hmay
    obtain ⟨l, hl⟩ := hl
    rw [sysFlipBanBranch_eq hl hroot hheight hsig' hclear]
    by_cases hban : ban = b
    · subst hban
      obtain rfl : sig' = sig := Option.some.inj (hsig'.symm.trans hsig)
      have hcovers : Covers k.parent ban t (.call c (.flipBanBranch height ban)
          (clear sig' k.task (branch height l) : ℕ)) ↔ t ∈ branch height l := by
        constructor
        · rintro ⟨-, -, l', hl', hmem⟩
          exact hl'.unique hl ▸ hmem
        · exact fun hmem => ⟨rfl, Int.natCast_nonneg _, l, hl, hmem⟩
      rw [hcovers, Banned, Kernel.toggle, toggle_flags]
      by_cases hmem : t ∈ branch height l
      · rw [if_pos hmem, Ne, (isSignal_of_signalOf hsig).xor_and, iff_true_right hmem]
        rfl
      · rw [if_neg hmem, iff_false_right hmem, not_not]
        rfl
    · have hne : sig' ≠ sig := by
        rintro rfl
        exact hban (signalOf_inj hsig' hsig)
      have hcovers : ¬ Covers k.parent b t (.call c (.flipBanBranch height ban)
          (clear sig' k.task (branch height l) : ℕ)) := fun h => hban h.1
      rw [iff_false_right hcovers, not_not, Banned, Kernel.toggle, toggle_flags]
      split
      · rw [xor_and_of_ne (isSignal_of_signalOf hsig') (isSignal_of_signalOf hsig) hne]
        rfl
      · rfl
  · obtain ⟨hneg, hsame⟩ := sysFlipBanBranch_of_not hmay
    have hcovers : ¬ Covers k.parent b t (.call c (.flipBanBranch height ban)
        (sysFlipBanBranch k c height ban).1) := fun h => absurd h.2.1 hneg.not_ge
    rw [hsame, iff_false_right hcovers, not_not]

theorem sysSetBan_task_of_ne {c : τ} {g p q : ℤ} (h : t ≠ c) :
    (sysSetBan k c g p q).2.task t = k.task t := by
  rw [sysSetBan]
  split
  · rfl
  · split
    · rfl
    · exact Function.update_of_ne h _ _

/-- One step changes the flag exactly when it covers the task. -/
theorem Logged.banned_iff {r : Record τ} (h : Logged svc r k k') (hk : KernelInv k)
    (ht : t ∈ k.live) (hsig : signalOf b = some sig) (hset : ¬ SetsOwn t r) :
    Banned k' t sig ↔ ¬ (Banned k t sig ↔ Covers k.parent b t r) := by
  have hsame {k' : Kernel τ W} (htask : k'.task t = k.task t) :
      Banned k' t sig ↔ ¬ (Banned k t sig ↔ False) := by
    rw [Banned, htask, iff_false, not_not]
    rfl
  cases h with
  | @fork _ parent child hlive hnew =>
      refine hsame (fork_task_of_ne ?_)
      rintro rfl
      exact hnew ht
  | @call _ current c hlive hroot =>
      have hl := hk.exists_ancestors hlive
      by_cases hchanges : c.ChangesFlags
      · cases c with
        | setBan g p q =>
            refine hsame ?_
            change (sysSetBan k current g p q).2.task t = k.task t
            by_cases hneg : (sysSetBan k current g p q).1 < 0
            · rw [(sysSetBan_effect k current g p q).1.task_eq_of_neg hneg]
            · have hne : t ≠ current := fun htc => hset ⟨htc.symm, not_lt.mp hneg⟩
              exact sysSetBan_task_of_ne hne
        | flipBanBranch height ban => exact banned_flip hl hroot hsig
        | _ => exact hchanges.elim
      · have hcovers : ¬ Covers k.parent b t (.call current c (exec svc k current c).1) := by
          cases c with
          | flipBanBranch height ban => exact absurd trivial hchanges
          | _ => exact id
        rw [iff_false_right hcovers, not_not, Banned, exec_task_of_not_changesFlags hchanges]
        rfl

/-- Between any two moments of a run, the flag of a task that does not set its own
bans has changed exactly when the task is on the branches of an odd number of
successful flips for this ban. -/
theorem banned_iff_even {k₀ : Kernel τ W} {rs : List (Record τ)} (hboot : Boot k₀)
    (hbefore : Relation.ReflTransGen (Step svc) k₀ k) (hrun : Run (Logged svc) rs k k')
    (ht : t ∈ k.live) (hsig : signalOf b = some sig) (hset : ∀ r ∈ rs, ¬ SetsOwn t r) :
    Banned k' t sig ↔ (Banned k t sig ↔ Even (rs.countP fun r => Covers k'.parent b t r)) := by
  have hk := hboot.reachable_inv hbefore
  clear hbefore
  induction hrun with
  | nil => simp
  | @cons r rs k k₁ k' hstep hrest ih =>
      obtain ⟨hlive, -⟩ := hstep.parent_eq hk ht
      have hfirst := hstep.banned_iff hk ht hsig (hset r List.mem_cons_self)
      have hlast := ih hlive (fun r' hr' => hset r' (List.mem_cons_of_mem _ hr'))
        (hstep.inv hk)
      have hcovers : Covers k'.parent b t r ↔ Covers k.parent b t r := by
        have hrun : Run (Logged svc) (r :: rs) k k' := .cons hstep hrest
        cases hstep with
        | fork _ _ => exact Iff.rfl
        | call c hcurrent _ => exact covers_iff hrun hk hcurrent
      refine hlast.trans ?_
      rw [hfirst, List.countP_cons]
      by_cases hr : Covers k.parent b t r
      · rw [if_pos (decide_eq_true (hcovers.mpr hr)), Nat.even_add_one, iff_true_right hr]
        exact not_iff_comm.trans iff_comm
      · rw [if_neg (by simpa [hcovers] using hr), iff_false_right hr, not_not]
        rfl

/-- Two flips of the branch of the last task, and the flag of its parent is clear
again. -/
theorem banned_iff_even_twice :
    ∃ k' : Kernel (Fin 3) Unit, Run (Logged idle) [.call 2 (.flipBanBranch 1 'g') 1,
      .call 2 (.flipBanBranch 1 'g') 0] threeTasks k' ∧ ¬ Banned k' 1 GETPID := by
  have hfirst : Logged idle (.call 2 (.flipBanBranch 1 'g') 1) threeTasks
      (exec idle threeTasks 2 (.flipBanBranch 1 'g')).2 :=
    .call _ (show 2 ∈ threeTasks.live by decide) (by decide)
  have hsecond : Logged idle (.call 2 (.flipBanBranch 1 'g') 0)
      (exec idle threeTasks 2 (.flipBanBranch 1 'g')).2
      (exec idle (exec idle threeTasks 2 (.flipBanBranch 1 'g')).2 2
        (.flipBanBranch 1 'g')).2 :=
    .call _ (show 2 ∈ (exec idle threeTasks 2 (.flipBanBranch 1 'g')).2.live by decide)
      (by decide)
  have hrun := Run.cons hfirst (.cons hsecond .nil)
  refine ⟨_, hrun, fun hbanned => ?_⟩
  have hlive : (1 : Fin 3) ∈ threeTasks.live := by decide
  have hset : ∀ r ∈ [Record.call (2 : Fin 3) (.flipBanBranch 1 'g') 1,
      .call 2 (.flipBanBranch 1 'g') 0], ¬ SetsOwn 1 r := by
    simp [SetsOwn]
  have heven := (banned_iff_even threeTasks_boot .refl hrun hlive (b := 'g') rfl
    hset).mp hbanned
  -- Both flips cover the parent.
  have hl : Ancestors (exec idle (exec idle threeTasks 2 (.flipBanBranch 1 'g')).2 2
      (.flipBanBranch 1 'g')).2.parent 2 [1, 0] :=
    .step rfl (by decide) (.step rfl (by decide) (.root rfl))
  rw [List.countP_eq_length.mpr] at heven
  · exact absurd (heven.mpr (by decide)) (by decide)
  · intro r hr
    refine decide_eq_true ?_
    rcases List.mem_cons.mp hr with rfl | hr
    · exact ⟨rfl, by decide, [1, 0], hl, by decide⟩
    · rw [List.mem_singleton.mp hr]
      exact ⟨rfl, by decide, [1, 0], hl, by decide⟩

end OsCoursework.Ban
