import Mathlib.Data.Set.Basic
import OsCoursework.Shell.Execute

/-!
# The descriptors of the shell

`Accounted` says that a part of a run leaves open what its recorded failures leave
open, and nothing else; unless it is `strict`, standard output may refer to another
file when restoring it has failed.  All commands are accounted for, so that a
redirection or a pipe leaves the table as it was exactly when no such failure was
recorded.
-/

namespace OsCoursework.Shell

open OsCoursework.Calls

variable {α β : Type} {s s₁ s₂ s' : World} {new new' : List Event} {left left' : Set ℕ}
  {strict : Prop}

/-! ## Accounting -/

/-- There was a failure after which a descriptor stays open. -/
def Leaky (new : List Event) : Prop :=
  ∃ call, .failed call ∈ new

/-- The descriptors in `left` have been opened and not closed; the others are as they
were, but for the file of standard output without `stdout`. -/
structure LeftOpen (stdout : Prop) (s s' : World) (left : Set ℕ) : Prop where
  same : ∀ fd ∉ left, (fd = 1 → stdout) → s'.fds fd = s.fds fd
  kept : ∀ fd ∉ left, (s'.fds fd = none ↔ s.fds fd = none)
  opened : ∀ fd ∈ left, s.fds fd = none ∧ s'.fds fd ≠ none

/-- Descriptors are left open where failures were recorded. -/
structure AccountedBy (strict : Prop) (s s' : World) (new : List Event) (left : Set ℕ) :
    Prop where
  history_eq : s'.history = s.history ++ new
  leftOpen : LeftOpen (strict ∨ .restored false ∉ new) s s' left
  left_eq : left = ∅ ↔ ¬ Leaky new

def Accounted (strict : Prop) (s s' : World) : Prop :=
  ∃ new left, AccountedBy strict s s' new left

theorem LeftOpen.not_mem {stdout : Prop} (h : LeftOpen stdout s s' left) {fd : ℕ}
    (hfd : s.fds fd ≠ none) : fd ∉ left :=
  fun hin => hfd (h.opened fd hin).1

theorem LeftOpen.mono {stdout stdout' : Prop} (h : LeftOpen stdout s s' left)
    (himp : stdout' → stdout) : LeftOpen stdout' s s' left where
  same := fun fd hfd hone => h.same fd hfd fun heq => himp (hone heq)
  kept := h.kept
  opened := h.opened

theorem LeftOpen.trans {stdout : Prop} (h : LeftOpen stdout s s₁ left)
    (h' : LeftOpen stdout s₁ s₂ left') : LeftOpen stdout s s₂ (left ∪ left') := by
  constructor
  · intro fd hfd hone
    rw [Set.mem_union, not_or] at hfd
    rw [h'.same fd hfd.2 hone, h.same fd hfd.1 hone]
  · intro fd hfd
    rw [Set.mem_union, not_or] at hfd
    rw [h'.kept fd hfd.2, h.kept fd hfd.1]
  · rintro fd (hfd | hfd)
    · obtain ⟨hbefore, hafter⟩ := h.opened fd hfd
      exact ⟨hbefore, by rwa [Ne, h'.kept fd (h'.not_mem hafter)]⟩
    · obtain ⟨hbefore, hafter⟩ := h'.opened fd hfd
      by_cases hin : fd ∈ left
      · exact absurd hbefore (h.opened fd hin).2
      · exact ⟨by rwa [← h.kept fd hin], hafter⟩

theorem leaky_append : Leaky (new ++ new') ↔ Leaky new ∨ Leaky new' := by
  unfold Leaky
  simp only [List.mem_append, ← exists_or]

theorem AccountedBy.trans (h : AccountedBy strict s s₁ new left)
    (h' : AccountedBy strict s₁ s₂ new' left') :
    AccountedBy strict s s₂ (new ++ new') (left ∪ left') where
  history_eq := by rw [h'.history_eq, h.history_eq, List.append_assoc]
  leftOpen := by
    refine (h.leftOpen.mono (Or.imp_right ?_)).trans (h'.leftOpen.mono (Or.imp_right ?_))
    · exact fun hno hin => hno (List.mem_append_left new' hin)
    · exact fun hno hin => hno (List.mem_append_right new hin)
  left_eq := by
    rw [leaky_append, not_or, ← h.left_eq, ← h'.left_eq, Set.union_empty_iff]

instance : IsPreorder World (Accounted strict) where
  refl s := ⟨[], ∅, by simp, ⟨fun _ _ _ => rfl, fun _ _ => Iff.rfl, by simp⟩,
    by simp [Leaky]⟩
  trans _ _ _ h h' := by
    obtain ⟨new, left, h⟩ := h
    obtain ⟨new', left', h'⟩ := h'
    exact ⟨new ++ new', left ∪ left', h.trans h'⟩

/-- Nothing happened to the descriptors. -/
theorem Accounted.of_eq (hhistory : s'.history = s.history ++ new)
    (hnew : ∀ call, .failed call ∉ new) (hfds : s'.fds = s.fds) :
    Accounted strict s s' := by
  refine ⟨new, ∅, hhistory, ⟨?_, ?_, by simp⟩, ?_⟩
  · intro fd _ _
    rw [hfds]
  · intro fd _
    rw [hfds]
  · simp only [true_iff]
    rintro ⟨call, hcall⟩
    exact hnew call hcall

theorem Accounted.unchanged (hhistory : s'.history = s.history) (hfds : s'.fds = s.fds) :
    Accounted strict s s' := by
  have hnil : s'.history = s.history ++ [] := by rw [hhistory, List.append_nil]
  exact .of_eq hnil (fun _ => List.not_mem_nil) hfds

theorem Accounted.trans (h : Accounted strict s s₁) (h' : Accounted strict s₁ s₂) :
    Accounted strict s s₂ :=
  IsTrans.trans s s₁ s₂ h h'

/-! ## Calls that leave the descriptors alone -/

def LeavesFds : Sys → Prop
  | .dup _ => False
  | .openFile _ _ => False
  | .dup2 _ _ => False
  | .pipe => False
  | .close _ => False
  | .note (.failed _) => False
  | _ => True

/-- What such a call does. -/
theorem Step.fds_eq {o : Sys} {x : o.Answer} (ho : LeavesFds o) (h : Step s o x s') :
    s'.fds = s.fds ∧ ∃ new, s'.history = s.history ++ new ∧ ∀ call, .failed call ∉ new := by
  obtain ⟨ended, -, h⟩ := h
  have hnil : ∃ new, s.history = s.history ++ new ∧ ∀ call, Event.failed call ∉ new :=
    ⟨[], by simp⟩
  cases o with
  | dup fd => exact ho.elim
  | openFile path mode => exact ho.elim
  | dup2 oldFd newFd => exact ho.elim
  | pipe => exact ho.elim
  | close fd => exact ho.elim
  | undefined => exact h.elim
  | exit status => exact h.elim
  | note e =>
      obtain rfl := h
      refine ⟨rfl, [e], rfl, fun call hcall => ?_⟩
      rw [← List.mem_singleton.mp hcall] at ho
      exact ho
  | get =>
      obtain ⟨-, rfl⟩ := h
      exact ⟨rfl, hnil⟩
  | getpid =>
      obtain ⟨-, rfl⟩ := h
      exact ⟨rfl, hnil⟩
  | fork =>
      obtain ⟨-, rfl⟩ | ⟨-, -, rfl⟩ := h <;> exact ⟨rfl, hnil⟩
  | waitpid pid nohang =>
      match x, h with
      | .running, ⟨_, _, _, heq⟩ => exact heq ▸ ⟨rfl, hnil⟩
      | .error .ECHILD, ⟨_, heq⟩ => exact heq ▸ ⟨rfl, hnil⟩
      | .error .EINTR, ⟨_, heq⟩ => exact heq ▸ ⟨rfl, hnil⟩
      | .reaped status, ⟨_, _, heq⟩ =>
          exact heq ▸ ⟨rfl, [.terminated pid], rfl, by simp⟩
  | _ =>
      obtain rfl := h
      exact ⟨rfl, hnil⟩

theorem Step.accounted {o : Sys} {x : o.Answer} (ho : LeavesFds o) (h : Step s o x s') :
    Accounted strict s s' := by
  obtain ⟨hfds, new, hhistory, hnew⟩ := h.fds_eq ho
  exact .of_eq hhistory hnew hfds

/-- Every run of the program is accounted for. -/
def Accounts (strict : Prop) (p : ShellM α) : Prop :=
  ∀ s, Post Step p s fun _ s' => Accounted strict s s'

theorem Accounts.of_makes {p : ShellM α} (hp : p.Makes LeavesFds) : Accounts strict p :=
  fun _ _ _ hruns => hp.rel (R := Accounted strict) (fun _ _ _ _ => Step.accounted) hruns

theorem Accounts.bind {p : ShellM α} {f : α → ShellM β} (hp : Accounts strict p)
    (hf : ∀ a, Accounts strict (f a)) : Accounts strict (p >>= f) := by
  intro s
  refine Post.seq (hp s) fun a s₁ h₁ => ?_
  exact (hf a s₁).mono fun _ s' h' => h₁.trans h'

/-- The rest of a program whose beginning is accounted for. -/
theorem Accounted.post {p : ShellM α} (h : Accounted strict s s₁) (hp : Accounts strict p) :
    Post Step p s₁ fun _ s' => Accounted strict s s' :=
  (hp s₁).mono fun _ _ h' => h.trans h'

theorem Accounts.sys {o : Sys} (ho : LeavesFds o) : Accounts strict (sys o) :=
  .of_makes (makes_sys ho)

theorem Accounts.call {o : Sys} {f : o.Answer → ShellM α} (ho : LeavesFds o)
    (hf : ∀ x, Accounts strict (f x)) : Accounts strict (Shell.sys o >>= f) :=
  .bind (.sys ho) hf

theorem Accounts.pure {a : α} : Accounts strict (Pure.pure a : ShellM α) :=
  .of_makes Prog.Makes.pure

/-! ## A descriptor that is closed again -/

/-- A new descriptor. -/
structure Opened (s : World) (d : ℕ) (s₁ : World) : Prop where
  was_closed : s.fds d = none
  fds_eq : ∃ file, s₁.fds = Function.update s.fds d (some file)
  history_eq : s₁.history = s.history

/-- A new descriptor, and a part of the run that is accounted for. -/
def Holding (strict : Prop) (s : World) (d : ℕ) (s₂ : World) : Prop :=
  ∃ s₁, Opened s d s₁ ∧ Accounted strict s₁ s₂

variable {d : ℕ}

theorem Opened.same (h : Opened s d s₁) {fd : ℕ} (hfd : fd ≠ d) :
    s₁.fds fd = s.fds fd := by
  obtain ⟨file, hfds⟩ := h.fds_eq
  rw [hfds, Function.update_of_ne hfd]

theorem Opened.now_open (h : Opened s d s₁) : s₁.fds d ≠ none := by
  obtain ⟨file, hfds⟩ := h.fds_eq
  rw [hfds, Function.update_self]
  exact Option.some_ne_none file

theorem Opened.leftOpen {stdout : Prop} (h : Opened s d s₁) : LeftOpen stdout s s₁ {d} := by
  constructor
  · intro fd hfd _
    exact h.same hfd
  · intro fd hfd
    rw [h.same hfd]
  · rintro fd rfl
    exact ⟨h.was_closed, h.now_open⟩

theorem Opened.holding (h : Opened s d s₁) : Holding strict s d s₁ :=
  ⟨s₁, h, Std.Refl.refl s₁⟩

theorem Holding.run {p : ShellM α} (h : Holding strict s d s₁) (hp : Accounts strict p) :
    Post Step p s₁ fun _ s₂ => Holding strict s d s₂ := by
  obtain ⟨s₀, hopened, hacc⟩ := h
  exact (hp s₁).mono fun _ s₂ h₂ => ⟨s₀, hopened, hacc.trans h₂⟩

theorem Step.close_cases {x : Bool} (h : Step s (.close d) x s') :
    s'.history = s.history ∧
      (x = true ∧ s.fds d ≠ none ∧ s'.fds = Function.update s.fds d none ∨
        x = false ∧ s.fds d = none ∧ s'.fds = s.fds) := by
  obtain ⟨ended, -, ⟨rfl, hopen, rfl⟩ | ⟨rfl, hclosed, rfl⟩⟩ := h
  · exact ⟨rfl, Or.inl ⟨rfl, hopen, rfl⟩⟩
  · exact ⟨rfl, Or.inr ⟨rfl, hclosed, rfl⟩⟩

/-- Closing the descriptor leaves what the part of the run before it left. -/
theorem Holding.close {x : Bool} (h : Holding strict s d s₂)
    (hstep : Step s₂ (.close d) x s') : Accounted strict s s' := by
  obtain ⟨s₁, hopened, new, left, hacc⟩ := h
  obtain ⟨hhistory, hclose⟩ := hstep.close_cases
  have hleft := hacc.leftOpen
  -- The descriptor was open all the time.
  have hnot : d ∉ left := hleft.not_mem hopened.now_open
  rcases hclose with ⟨-, -, hfds⟩ | ⟨-, hclosed, -⟩
  · refine ⟨new, left, ?_, ⟨?_, ?_, ?_⟩, hacc.left_eq⟩
    · rw [hhistory, hacc.history_eq, hopened.history_eq]
    · intro fd hfd hone
      by_cases heq : fd = d
      · rw [heq, hfds, Function.update_self, hopened.was_closed]
      · rw [hfds, Function.update_of_ne heq, hleft.same fd hfd hone,
          hopened.same heq]
    · intro fd hfd
      by_cases heq : fd = d
      · rw [heq, hfds, Function.update_self, hopened.was_closed]
      · rw [hfds, Function.update_of_ne heq, hleft.kept fd hfd, hopened.same heq]
    · intro fd hfd
      have heq : fd ≠ d := fun heq => hnot (heq ▸ hfd)
      obtain ⟨hbefore, hafter⟩ := hleft.opened fd hfd
      exact ⟨by rw [← hopened.same heq, hbefore], by rwa [hfds, Function.update_of_ne heq]⟩
  · rw [hleft.kept d hnot] at hclosed
    exact absurd hclosed hopened.now_open

theorem Holding.close_post {f : Bool → ShellM α} (h : Holding strict s d s₁)
    (hf : ∀ ok, Accounts strict (f ok)) :
    Post Step (sys (.close d) >>= f) s₁ fun _ s' => Accounted strict s s' :=
  Post.call fun ok _ hstep => (h.close hstep).post (hf ok)

theorem Step.openFile_cases {path : Text} {mode : OpenMode} {x : Option ℕ}
    (h : Step s (.openFile path mode) x s') :
    x = none ∧ Accounted strict s s' ∨ ∃ d, x = some d ∧ Opened s d s' := by
  obtain ⟨ended, -, ⟨rfl, rfl⟩ | ⟨d, file, rfl, hclosed, rfl⟩⟩ := h
  · exact Or.inl ⟨rfl, .unchanged rfl rfl⟩
  · exact Or.inr ⟨d, rfl, hclosed, ⟨file, rfl⟩, rfl⟩

theorem openFile_post {path : Text} {mode : OpenMode} {f : Option ℕ → ShellM α}
    (hnone : Accounts strict (f none))
    (hsome : ∀ d s₁, Holding strict s d s₁ →
      Post Step (f (some d)) s₁ fun _ s' => Accounted strict s s') :
    Post Step (sys (.openFile path mode) >>= f) s fun _ s' => Accounted strict s s' := by
  refine Post.call fun x s₁ hstep => ?_
  obtain ⟨rfl, h⟩ | ⟨d, rfl, h⟩ := hstep.openFile_cases
  · exact h.post hnone
  · exact hsome d s₁ h.holding

/-! ## Failures -/

/-- A part of a run in which descriptors were left open. -/
def AccountedLeak (strict : Prop) (s s' : World) : Prop :=
  ∃ new left, AccountedBy strict s s' new left ∧ Leaky new

theorem AccountedLeak.accounted (h : AccountedLeak strict s s') :
    Accounted strict s s' := by
  obtain ⟨new, left, h, -⟩ := h
  exact ⟨new, left, h⟩

/-- The descriptor is left open too. -/
theorem AccountedLeak.opened (h : AccountedLeak strict s₁ s₂) (hopened : Opened s d s₁) :
    AccountedLeak strict s s₂ := by
  obtain ⟨new, left, hacc, hleaky⟩ := h
  refine ⟨new, {d} ∪ left, ⟨?_, hopened.leftOpen.trans hacc.leftOpen, ?_⟩, hleaky⟩
  · rw [hacc.history_eq, hopened.history_eq]
  · exact iff_of_false (Set.singleton_nonempty d).inl.ne_empty (not_not.mpr hleaky)

/-- The failure is recorded while the descriptor is open. -/
theorem Holding.fail (h : Holding strict s d s₂) (call : Failure) :
    Post Step (sys (.note (.failed call))) s₂ fun _ s' => AccountedLeak strict s s' := by
  refine Post.perform fun _ s' hstep => ?_
  obtain ⟨s₁, hopened, new, left, hacc⟩ := h
  obtain ⟨ended, -, rfl⟩ := hstep
  have hleaky : Leaky (new ++ [.failed call]) := ⟨call, by simp⟩
  have hall := hopened.leftOpen.trans hacc.leftOpen
  refine ⟨new ++ [.failed call], {d} ∪ left, ⟨?_, ⟨?_, hall.kept, hall.opened⟩, ?_⟩, hleaky⟩
  · rw [← hopened.history_eq, ← List.append_assoc, ← hacc.history_eq]
  · intro fd hfd hone
    refine hall.same fd hfd fun heq => (hone heq).imp_right ?_
    exact fun hno hin => hno (List.mem_append_left _ hin)
  · exact iff_of_false (Set.singleton_nonempty d).inl.ne_empty (not_not.mpr hleaky)

/-! ## Commands that read files -/

theorem Accounts.ite {c : Prop} [Decidable c] {p q : ShellM α} (hp : Accounts strict p)
    (hq : Accounts strict q) : Accounts strict (if c then p else q) := by
  by_cases h : c
  · rwa [if_pos h]
  · rwa [if_neg h]

theorem Accounts.when {c : Prop} [Decidable c] {p : ShellM Unit} (hp : Accounts strict p) :
    Accounts strict (when c p) :=
  .ite hp .pure

theorem readFile_accounts (path : Text) : Accounts strict (readFile path) := by
  intro s
  refine openFile_post .pure fun d s₁ h => ?_
  refine Post.seq (h.run (.sys trivial)) fun text s₂ h₂ => ?_
  exact h₂.close_post fun _ => .pure

theorem readStream_accounts (path : String) : Accounts strict (readStream path) := by
  intro s
  refine openFile_post .pure fun d s₁ h => ?_
  refine Post.seq (h.run (.sys trivial)) fun text s₂ h₂ => ?_
  exact h₂.close_post fun _ => .pure

theorem findInFile_accounts (path : String) : Accounts strict (findInFile path) := by
  intro s
  refine openFile_post (.call trivial fun _ => .pure) fun d s₁ h => ?_
  refine Post.seq (h.run (.sys trivial)) fun text s₂ h₂ => ?_
  cases text with
  | none =>
      refine Post.seq (h₂.run (.sys trivial)) fun _ s₃ h₃ => ?_
      exact h₃.close_post fun _ => .pure
  | some text => exact h₂.close_post fun ok => .ite (.sys trivial) (.call trivial fun _ => .pure)

theorem whoAmIExecute_accounts : Accounts strict whoAmIExecute :=
  .bind (findInFile_accounts _) fun _ =>
    .ite (.bind (findInFile_accounts _) fun _ => .pure) .pure

theorem sysInfoExecute_accounts : Accounts strict sysInfoExecute :=
  .bind (readStream_accounts _) fun _ => .bind (readStream_accounts _) fun _ =>
    .bind (readStream_accounts _) fun _ => readStream_accounts _

theorem unSetEnvExecute_accounts (cmd : CommandData) :
    Accounts strict (unSetEnvExecute cmd) := by
  unfold unSetEnvExecute
  cases cmd.args[1]? with
  | none => exact .sys trivial
  | some name =>
      intro s
      refine openFile_post (.sys trivial) fun d s₁ h => ?_
      refine Post.seq (h.run (.sys trivial)) fun text s₂ h₂ => ?_
      cases text with
      | none =>
          refine Post.seq (h₂.run (.sys trivial)) fun _ s₃ h₃ => ?_
          exact (h₃.fail _).mono fun _ _ h => h.accounted
      | some text => exact h₂.close_post fun _ => .when (.sys trivial)

theorem addEntries_accounts {visit : Text → ShellM ℕ}
    (hvisit : ∀ path, Accounts strict (visit path)) (path : Text) (names : List Text)
    (total : ℕ) : Accounts strict (addEntries visit path names total) := by
  induction names generalizing total with
  | nil => exact .pure
  | cons name names ih =>
      refine .ite (ih total) (.call trivial fun st => ?_)
      cases st with
      | none => exact .call trivial fun _ => ih total
      | some st => exact .ite (.bind (hvisit _) fun size => ih _) (ih _)

theorem dirLoop_accounts {visit : Text → ShellM ℕ}
    (hvisit : ∀ path, Accounts strict (visit path)) (path : Text) (fd rounds total : ℕ) :
    Accounts strict (dirLoop visit path fd rounds total) := by
  induction rounds generalizing total with
  | zero => exact .of_makes (makes_undefined trivial)
  | succ rounds ih =>
      refine .call trivial fun names => ?_
      match names with
      | none => exact .call trivial fun _ => .pure
      | some [] => exact .pure
      | some (name :: names) =>
          exact .bind (addEntries_accounts hvisit path _ total) fun total => ih total

theorem getDirSize_accounts (depth : ℕ) (path : Text) :
    Accounts strict (getDirSize depth path) := by
  induction depth generalizing path with
  | zero => exact .of_makes (makes_undefined trivial)
  | succ depth ih =>
      intro s
      refine openFile_post (.call trivial fun _ => .pure) fun d s₁ h => ?_
      refine Post.seq (h.run (dirLoop_accounts ih path d depth 0)) fun total s₂ h₂ => ?_
      exact h₂.close_post fun _ => .pure

theorem diskUsageExecute_accounts (depth : ℕ) (cmd : CommandData) :
    Accounts strict (diskUsageExecute depth cmd) :=
  .ite (.sys trivial) (.bind (getDirSize_accounts depth _) fun _ => .sys trivial)

theorem readDevice_accounts (devPath : Text) : Accounts strict (readDevice devPath) := by
  refine .bind (readFile_accounts _) fun found => .ite ?_ .pure
  exact .bind (readFile_accounts _) fun _ => .bind (readFile_accounts _) fun _ =>
    .bind (readFile_accounts _) fun _ => .bind (readFile_accounts _) fun _ =>
    .bind (readFile_accounts _) fun _ => .pure

theorem readDevices_accounts (base : Text) (names : List Text) :
    Accounts strict (readDevices base names) := by
  induction names with
  | nil => exact .pure
  | cons name names ih =>
      refine .ite ih (.call trivial fun isDir => ?_)
      exact .bind (.when (readDevice_accounts _)) fun _ => ih

theorem usbInfoExecute_accounts : Accounts strict usbInfoExecute := by
  intro s
  refine openFile_post (.sys trivial) fun d s₁ h => ?_
  refine Post.seq (h.run (.sys trivial)) fun names s₂ h₂ => ?_
  refine Post.seq (h₂.run (readDevices_accounts _ _)) fun _ s₃ h₃ => ?_
  exact h₃.close_post fun _ => .pure

end OsCoursework.Shell
