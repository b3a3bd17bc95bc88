import Mathlib.Logic.Relation
import OsCoursework.Ban.Branch

/-!
# Bans change only with authority

`Effect` lists what a call can do to the flags.  From it follow the invariant of
all runs and the rule that a flag of a task changes only by the task's own
privileged `set_ban` or by a flip of a descendant that is not banned itself.
-/

namespace OsCoursework.Ban

open OsCoursework.ParentChain

variable {τ W : Type*} [DecidableEq τ] {svc : Services τ W} {k k' : Kernel τ W}
  {c t : τ} {call : Call}

/-! ## Flags -/

def allBans : BitVec 8 := GETPID ||| PIPE ||| KILL

/-- The flag `sig` of the task is set. -/
def Banned (k : Kernel τ W) (t : τ) (sig : BitVec 8) : Prop :=
  (k.task t).bannedSignals &&& sig ≠ 0

instance (k : Kernel τ W) (t : τ) (sig : BitVec 8) : Decidable (Banned k t sig) :=
  inferInstanceAs (Decidable (_ ≠ _))

theorem signalOf_inj {b b' : Char} {sig : BitVec 8} (h : signalOf b = some sig)
    (h' : signalOf b' = some sig) : b = b' := by
  unfold signalOf at h h'
  split at h <;> cases h <;> split at h' <;> first | rfl | cases h'

/-- Another flag is not affected by toggling. -/
theorem xor_and_of_ne {sig sig' : BitVec 8} (h : IsSignal sig) (h' : IsSignal sig')
    (hne : sig ≠ sig') (flags : BitVec 8) :
    (flags ^^^ sig) &&& sig' = flags &&& sig' := by
  rcases h with rfl | rfl | rfl <;> rcases h' with rfl | rfl | rfl <;>
    first | exact absurd rfl hne | (revert flags; decide +kernel)

theorem xor_within {sig : BitVec 8} (h : IsSignal sig) (flags : BitVec 8) :
    flags &&& ~~~ allBans = 0 → (flags ^^^ sig) &&& ~~~ allBans = 0 := by
  rcases h with rfl | rfl | rfl <;> revert flags <;> decide +kernel

/-! ## Effects -/

/-- What a call of the task `c` with return value `ret` does to the flags. -/
inductive Effect (k : Kernel τ W) (c : τ) : Call → ℤ → (τ → Task τ) → Prop where
  | nothing {call : Call} {ret : ℤ} : Effect k c call ret k.task
  | set {banGetpid banPipe banKill : ℤ} {flags : BitVec 8}
      (heuid : (k.task c).euid = 0) (hwithin : flags &&& ~~~ allBans = 0) :
      Effect k c (.setBan banGetpid banPipe banKill) 0 (setFlags k.task c flags)
  | flip {height : ℤ} {ban : Char} {sig : BitVec 8} {l : List τ} {count : ℕ}
      (hsig : signalOf ban = some sig) (hclear : ¬ Banned k c sig)
      (hl : Ancestors k.parent c l) :
      Effect k c (.flipBanBranch height ban) count
        (toggle sig (l.take height.toNat) k.task)

theorem sysSetBan_effect (k : Kernel τ W) (c : τ) (g p q : ℤ) :
    Effect k c (.setBan g p q) (sysSetBan k c g p q).1 (sysSetBan k c g p q).2.task ∧
      (sysSetBan k c g p q).2.live = k.live := by
  unfold sysSetBan
  split
  · exact ⟨.nothing, rfl⟩
  · split
    · exact ⟨.nothing, rfl⟩
    · next heuid =>
      refine ⟨.set (not_not.mp heuid) ?_, rfl⟩
      split <;> split <;> split <;> decide

theorem sysFlipBanBranch_effect (hl : ∃ l, Ancestors k.parent c l)
    (hroot : k.parent c ≠ some c) (height : ℤ) (ban : Char) :
    Effect k c (.flipBanBranch height ban) (sysFlipBanBranch k c height ban).1
        (sysFlipBanBranch k c height ban).2.task ∧
      (sysFlipBanBranch k c height ban).2.live = k.live := by
  by_cases hmay : MayFlip k c height ban
  · obtain ⟨hheight, sig, hsig, hclear⟩ := hmay
    obtain ⟨l, hl⟩ := hl
    rw [sysFlipBanBranch_eq hl hroot hheight hsig hclear]
    exact ⟨.flip hsig (not_not.mpr hclear) hl, rfl⟩
  · rw [(sysFlipBanBranch_of_not hmay).2]
    exact ⟨.nothing, rfl⟩

/-- Every call has one of the effects. -/
theorem exec_effect (svc : Services τ W) (hl : ∃ l, Ancestors k.parent c l)
    (hroot : k.parent c ≠ some c) (call : Call) :
    Effect k c call (exec svc k c call).1 (exec svc k c call).2.task ∧
      (exec svc k c call).2.live = k.live := by
  cases call with
  | setBan g p q => exact sysSetBan_effect k c g p q
  | getBan ban => exact ⟨.nothing, rfl⟩
  | checkBan pid ban => exact ⟨.nothing, rfl⟩
  | flipBanBranch height ban => exact sysFlipBanBranch_effect hl hroot height ban
  | getpid =>
      simp only [exec, sysGetpid]
      split <;> exact ⟨.nothing, rfl⟩
  | pipe fildes =>
      simp only [exec, sysPipe]
      split <;> exact ⟨.nothing, rfl⟩
  | kill pid sig =>
      simp only [exec, sysKill]
      split <;> exact ⟨.nothing, rfl⟩

section Effects

variable {ret : ℤ} {task : τ → Task τ}

theorem Effect.realParent_eq (h : Effect k c call ret task) (t : τ) :
    (task t).realParent = k.parent t := by
  cases h with
  | nothing => rfl
  | set heuid hwithin =>
      by_cases htc : t = c
      · subst htc
        rw [setFlags, Function.update_self]
        rfl
      · rw [setFlags, Function.update_of_ne htc]
        rfl
  | flip hsig hclear hl => exact toggle_realParent _ _ _ _

theorem Effect.within (h : Effect k c call ret task)
    (hk : (k.task t).bannedSignals &&& ~~~ allBans = 0) :
    (task t).bannedSignals &&& ~~~ allBans = 0 := by
  cases h with
  | nothing => exact hk
  | set heuid hwithin =>
      by_cases htc : t = c
      · subst htc
        rwa [setFlags, Function.update_self]
      · rwa [setFlags, Function.update_of_ne htc]
  | flip hsig hclear hl =>
      rw [toggle_flags]
      split
      · exact xor_within (isSignal_of_signalOf hsig) _ hk
      · exact hk

/-- A call that fails changes nothing. -/
theorem Effect.task_eq_of_neg (h : Effect k c call ret task) (hret : ret < 0) :
    task = k.task := by
  cases h with
  | nothing => rfl
  | set heuid hwithin => exact absurd hret (lt_irrefl 0)
  | flip hsig hclear hl => exact absurd hret (Int.natCast_nonneg _).not_gt

/-- Who may change the flag for `b` of the task `t`: the task itself with effective
uid 0, or a proper descendant whose own flag is clear, from within its reach. -/
def Authority (k : Kernel τ W) (c : τ) (call : Call) (t : τ) (b : Char) : Prop :=
  (t = c ∧ (∃ g p q, call = .setBan g p q) ∧ (k.task c).euid = 0) ∨
    ∃ height sig l, call = .flipBanBranch height b ∧ signalOf b = some sig ∧
      ¬ Banned k c sig ∧ Ancestors k.parent c l ∧ t ∈ l.take height.toNat

theorem Effect.authority (h : Effect k c call ret task) {b : Char} {sig : BitVec 8}
    (hsig : signalOf b = some sig)
    (hchange : (task t).bannedSignals &&& sig ≠ (k.task t).bannedSignals &&& sig) :
    Authority k c call t b := by
  cases h with
  | nothing => exact absurd rfl hchange
  | @set g p q flags heuid hwithin =>
      by_cases htc : t = c
      · exact Or.inl ⟨htc, ⟨g, p, q, rfl⟩, heuid⟩
      · rw [setFlags, Function.update_of_ne htc] at hchange
        exact absurd rfl hchange
  | @flip height ban sig' l count hsig' hclear hl =>
      rw [toggle_flags] at hchange
      split at hchange
      · next hmem =>
        -- Toggling another flag would not show in this one.
        have heq : sig' = sig := by
          by_contra hne
          exact hchange (xor_and_of_ne (isSignal_of_signalOf hsig')
            (isSignal_of_signalOf hsig) hne _)
        subst heq
        rw [signalOf_inj hsig' hsig]
        exact Or.inr ⟨height, sig', l, rfl, hsig, hclear, hl, hmem⟩
      · exact absurd rfl hchange

end Effects

/-! ## Runs -/

structure KernelInv (k : Kernel τ W) : Prop where
  forest : k.Forest
  within : ∀ t ∈ k.live, (k.task t).bannedSignals &&& ~~~ allBans = 0

omit [DecidableEq τ] in
theorem KernelInv.exists_ancestors (h : KernelInv k) (hc : c ∈ k.live) :
    ∃ l, Ancestors k.parent c l := by
  obtain ⟨l, hl, -⟩ := h.forest c hc
  exact ⟨l, hl⟩

theorem KernelInv.exec (h : KernelInv k) (hc : c ∈ k.live)
    (hroot : k.parent c ≠ some c) (call : Call) :
    KernelInv (exec svc k c call).2 := by
  obtain ⟨heffect, hlive⟩ := exec_effect svc (h.exists_ancestors hc) hroot call
  have hparent : (Ban.exec svc k c call).2.parent = k.parent :=
    funext heffect.realParent_eq
  constructor
  · rw [Kernel.Forest, hlive, hparent]
    exact h.forest
  · intro t ht
    rw [hlive] at ht
    exact heffect.within (h.within t ht)

theorem fork_task_child (k : Kernel τ W) (parent child : τ) :
    (fork k parent child).task child =
      { k.task parent with realParent := some parent } :=
  Function.update_self _ _ _

theorem fork_task_of_ne {parent child : τ} (h : t ≠ child) :
    (fork k parent child).task t = k.task t :=
  Function.update_of_ne h _ _

/-- A new task hangs below its parent and has its flags. -/
theorem KernelInv.fork {parent child : τ} (h : KernelInv k) (hlive : parent ∈ k.live)
    (hnew : child ∉ k.live) : KernelInv (fork k parent child) := by
  have hne {a : τ} (ha : a ∈ k.live) : a ≠ child := by
    rintro rfl
    exact hnew ha
  have hsame {a : τ} (ha : a ∈ k.live) :
      (Ban.fork k parent child).task a = k.task a :=
    fork_task_of_ne (hne ha)
  -- The chains of the old tasks do not meet the new one.
  have hold {a : τ} {l : List τ} (ha : a ∈ k.live) (hl : Ancestors k.parent a l)
      (hmem : ∀ b ∈ l, b ∈ k.live) :
      Ancestors (Ban.fork k parent child).parent a l :=
    hl.congr (by rw [Kernel.parent, hsame ha]; rfl)
      fun b hb => by rw [Kernel.parent, hsame (hmem b hb)]; rfl
  constructor
  · intro t ht
    rcases Finset.mem_insert.mp ht with rfl | ht
    · obtain ⟨l, hl, hmem⟩ := h.forest parent hlive
      refine ⟨parent :: l, .step ?_ (hne hlive) (hold hlive hl hmem), ?_⟩
      · rw [Kernel.parent, fork_task_child]
      · intro a ha
        rcases List.mem_cons.mp ha with rfl | ha
        · exact Finset.mem_insert_of_mem hlive
        · exact Finset.mem_insert_of_mem (hmem a ha)
    · obtain ⟨l, hl, hmem⟩ := h.forest t ht
      exact ⟨l, hold ht hl hmem, fun a ha => Finset.mem_insert_of_mem (hmem a ha)⟩
  · intro t ht
    rcases Finset.mem_insert.mp ht with rfl | ht
    · rw [fork_task_child]
      exact h.within parent hlive
    · rw [hsame ht]
      exact h.within t ht

theorem KernelInv.step (h : KernelInv k) (hstep : Step svc k k') : KernelInv k' := by
  cases hstep with
  | call c hlive hroot => exact h.exec hlive hroot c
  | fork hlive hnew => exact h.fork hlive hnew

omit [DecidableEq τ] in
theorem Boot.inv (h : Boot k) : KernelInv k := by
  refine ⟨h.forest, fun t ht => ?_⟩
  rw [h.flags_eq t ht]
  decide

theorem Boot.reachable_inv (h : Boot k) (hrun : Relation.ReflTransGen (Step svc) k k') :
    KernelInv k' := by
  induction hrun with
  | refl => exact h.inv
  | tail _ hstep ih => exact ih.step hstep

/-! ## Refusals -/

/-- The letter of the ban that a call is subject to. -/
def Call.letter : Call → Option Char
  | .getpid => some 'g'
  | .pipe _ => some 'p'
  | .kill _ _ => some 'k'
  | _ => none

/-- The calls that may change a flag. -/
def Call.ChangesFlags : Call → Prop
  | .setBan _ _ _ => True
  | .flipBanBranch _ _ => True
  | _ => False

/-- What a call that can be banned does when it is not. -/
def serve (svc : Services τ W) (k : Kernel τ W) (c : τ) : Call → ℤ × Kernel τ W
  | .getpid => (svc.taskTgidVnr k.world c, k)
  | .pipe fildes => ((svc.sysPipe2 k.world c fildes 0).1,
      { k with world := (svc.sysPipe2 k.world c fildes 0).2 })
  | .kill pid sig => ((svc.killSomethingInfo k.world c sig pid).1,
      { k with world := (svc.killSomethingInfo k.world c sig pid).2 })
  | _ => (0, k)

/-- The call fails before any service is asked: it does so whatever the services do. -/
def Refused (k : Kernel τ W) (c : τ) (call : Call) : Prop :=
  ∀ svc, exec svc k c call = (-EPERM, k)

/-- Services that succeed and do nothing. -/
def idle : Services τ W where
  findTaskByVpid := fun _ _ _ => none
  taskTgidVnr := fun _ _ => 0
  sysPipe2 := fun w _ _ _ => (0, w)
  killSomethingInfo := fun w _ _ _ => (0, w)

omit [DecidableEq τ] in
theorem sysGetBan_eq {b : Char} {sig : BitVec 8} (hsig : signalOf b = some sig) :
    sysGetBan k c b = if Banned k c sig then 1 else 0 := by
  rw [sysGetBan, hsig]
  rfl

omit [DecidableEq τ] in
theorem sysGetBan_ne_zero {b : Char} {sig : BitVec 8} (hsig : signalOf b = some sig) :
    sysGetBan k c b ≠ 0 ↔ Banned k c sig := by
  rw [sysGetBan_eq hsig]
  split
  · next h => exact iff_of_true (by decide) h
  · next h => exact iff_of_false (by decide) h

omit [DecidableEq τ] in
theorem sysCheckBan_eq {b : Char} {sig : BitVec 8} {pid : ℤ} {other : τ}
    (hsig : signalOf b = some sig)
    (hother : svc.findTaskByVpid k.world c pid = some other)
    (hclear : ¬ Banned k c sig) :
    sysCheckBan svc k c pid b = if Banned k other sig then 1 else 0 := by
  rw [sysCheckBan, hsig]
  dsimp only
  rw [hother]
  exact if_neg hclear

/-- The ban check is the first thing that a call with a letter does. -/
theorem exec_of_letter (svc : Services τ W) {b : Char} {sig : BitVec 8}
    (hb : call.letter = some b) (hsig : signalOf b = some sig) :
    (Banned k c sig → exec svc k c call = (-EPERM, k)) ∧
      (¬ Banned k c sig → exec svc k c call = serve svc k c call) := by
  rw [← sysGetBan_ne_zero hsig]
  cases call with
  | getpid =>
      cases hb
      exact ⟨fun h => if_pos h, fun h => if_neg h⟩
  | pipe fildes =>
      cases hb
      exact ⟨fun h => if_pos h, fun h => if_neg h⟩
  | kill pid sig' =>
      cases hb
      exact ⟨fun h => if_pos h, fun h => if_neg h⟩
  | _ => cases hb

omit [DecidableEq τ] in
theorem serve_idle_ne (hb : call.letter ≠ none) : serve idle k c call ≠ (-EPERM, k) := by
  have hne : ((0, k) : ℤ × Kernel τ W) ≠ (-EPERM, k) := fun h =>
    absurd (congrArg Prod.fst h) (show (0 : ℤ) ≠ -EPERM by decide)
  cases call with
  | getpid => exact hne
  | pipe fildes => exact hne
  | kill pid sig => exact hne
  | _ => exact absurd rfl hb

theorem refused_iff {b : Char} {sig : BitVec 8} (hb : call.letter = some b)
    (hsig : signalOf b = some sig) : Refused k c call ↔ Banned k c sig := by
  constructor
  · intro h
    by_contra hclear
    have hserve := (exec_of_letter idle hb hsig).2 hclear
    rw [h idle] at hserve
    exact serve_idle_ne (by simp [hb]) hserve.symm
  · intro h svc
    exact (exec_of_letter _ hb hsig).1 h

theorem exec_task_of_not_changesFlags (h : ¬ call.ChangesFlags) :
    (exec svc k c call).2.task = k.task := by
  cases call with
  | setBan g p q => exact absurd trivial h
  | flipBanBranch height ban => exact absurd trivial h
  | getBan ban => rfl
  | checkBan pid ban => rfl
  | getpid =>
      simp only [exec, sysGetpid]
      split <;> rfl
  | pipe fildes =>
      simp only [exec, sysPipe]
      split <;> rfl
  | kill pid sig =>
      simp only [exec, sysKill]
      split <;> rfl

/-- A flip toggles the flag that the checks read. -/
theorem banned_flip_iff {height : ℤ} {b : Char} {sig : BitVec 8} {l : List τ}
    (hsig : signalOf b = some sig) (hl : Ancestors k.parent c l)
    (hroot : k.parent c ≠ some c) (hheight : 0 < height) (hclear : ¬ Banned k c sig) :
    Banned (exec svc k c (.flipBanBranch height b)).2 t sig ↔
      if t ∈ l.take height.toNat then ¬ Banned k t sig else Banned k t sig := by
  rw [exec, sysFlipBanBranch_eq hl hroot hheight hsig (not_not.mp hclear)]
  rw [Banned, Kernel.toggle, toggle_flags, branch]
  split
  · rw [Ne, (isSignal_of_signalOf hsig).xor_and]
    rfl
  · rfl

/-- In every state of every run the flags stay within the three bans, a call changes
them only with authority, a new task has the flags of its parent, and a call is
refused by the ban check exactly when the flag that `get_ban`, `check_ban` and
`flip_ban_branch` use is set. -/
theorem bans_change_with_authority (svc : Services τ W) {k₀ k : Kernel τ W}
    (hboot : Boot k₀) (hrun : Relation.ReflTransGen (Step svc) k₀ k) :
    (∀ t ∈ k.live, (k.task t).bannedSignals &&& ~~~ allBans = 0) ∧
    (∀ parent ∈ k.live, ∀ child, child ∉ k.live →
      ((fork k parent child).task child).bannedSignals =
        (k.task parent).bannedSignals ∧
      ∀ t, t ≠ child → (fork k parent child).task t = k.task t) ∧
    ∀ c ∈ k.live, (k.task c).realParent ≠ some c →
      (∀ call, (exec svc k c call).1 < 0 ∨ ¬ call.ChangesFlags →
        (exec svc k c call).2.task = k.task) ∧
      (∀ call t b sig, signalOf b = some sig →
        ¬ (Banned (exec svc k c call).2 t sig ↔ Banned k t sig) →
        Authority k c call t b) ∧
      (∀ call b sig, call.letter = some b → signalOf b = some sig →
        (Refused k c call ↔ Banned k c sig) ∧
        (¬ Banned k c sig → exec svc k c call = serve svc k c call)) ∧
      ∀ b sig, signalOf b = some sig →
        sysGetBan k c b = (if Banned k c sig then 1 else 0) ∧
        (¬ Banned k c sig →
          (∀ pid other, svc.findTaskByVpid k.world c pid = some other →
            sysCheckBan svc k c pid b = if Banned k other sig then 1 else 0) ∧
          ∃ l, Ancestors k.parent c l ∧ ∀ height > 0, ∀ t,
            (Banned (exec svc k c (.flipBanBranch height b)).2 t sig ↔
              if t ∈ l.take height.toNat then ¬ Banned k t sig
              else Banned k t sig)) := by
  have hinv := hboot.reachable_inv hrun
  refine ⟨hinv.within, ?_, ?_⟩
  · intro parent _ child _
    rw [fork_task_child]
    exact ⟨rfl, fun t ht => fork_task_of_ne ht⟩
  · intro c hc hroot
    obtain ⟨l, hl⟩ := hinv.exists_ancestors hc
    refine ⟨?_, ?_, ?_, ?_⟩
    · rintro call (hneg | hreads)
      · exact (exec_effect svc ⟨l, hl⟩ hroot call).1.task_eq_of_neg hneg
      · exact exec_task_of_not_changesFlags hreads
    · intro call t b sig hsig hchange
      refine (exec_effect svc ⟨l, hl⟩ hroot call).1.authority hsig ?_
      intro heq
      exact hchange (by rw [Banned, Banned, heq])
    · intro call b sig hb hsig
      exact ⟨refused_iff hb hsig, (exec_of_letter _ hb hsig).2⟩
    · intro b sig hsig
      refine ⟨sysGetBan_eq hsig, fun hclear => ⟨?_, l, hl, ?_⟩⟩
      · intro pid other hother
        exact sysCheckBan_eq hsig hother hclear
      · intro height hheight t
        exact banned_flip_iff hsig hl hroot hheight hclear

theorem threeTasks_boot : Boot threeTasks :=
  ⟨threeTasks_forest, fun _ _ => rfl⟩

/-- The last task flips the ban of `getpid` for its parent, whose call is then
refused. -/
theorem bans_change_with_authority_flip :
    Refused (exec idle threeTasks 2 (.flipBanBranch 1 'g')).2 1 .getpid := by
  have hstep : Step idle threeTasks (exec idle threeTasks 2 (.flipBanBranch 1 'g')).2 :=
    .call _ (by decide) (by decide)
  obtain ⟨-, -, h⟩ := bans_change_with_authority idle threeTasks_boot
    (Relation.ReflTransGen.single hstep)
  exact (((h 1 (by decide) (by decide)).2.2.1 .getpid 'g' GETPID rfl rfl).1).2 (by decide)

end OsCoursework.Ban
