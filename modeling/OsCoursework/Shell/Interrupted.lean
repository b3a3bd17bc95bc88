import OsCoursework.Shell.Signals

/-!
# Commands under ctrl-C

Each command follows itself without interrupts: outside of the commands that wait
there is no foreground process, so that the handler does nothing, and in these the
number of the process is overwritten whether it was cleared or not.
-/

namespace OsCoursework.Shell

open OsCoursework.Calls

variable {α β : Type} {s s' w v v' : World} {pid fg : ℤ}

/-! ## What is watched -/

/-- A process that can be waited for, and a job of the table. -/
structure Signalled (s : World) (pid : ℤ) : Prop where
  fgPid_eq : s.memory.fgPid = -1
  child : pid ∈ s.children
  listed : ∃ job ∈ s.memory.jobList, job.pid = pid ∧ job.key ∈ pending s.history

/-- No background job, and not waited for before the last event. -/
structure InForeground (s : World) (pid : ℤ) : Prop where
  not_pending : pid ∉ (pending s.history).map Prod.fst
  alive : pid ∈ s.children ∨ s.history.getLast? = some (.terminated pid)

/-- At a call: the foreground process may have been cleared, it is no background job,
and only jobs are sent signals. -/
structure Watch (w v : World) (o : Sys) : Prop where
  fades : ∃ fg, (fg = w.memory.fgPid ∨ fg = -1) ∧ Fades w fg v
  foreground : 0 < w.memory.fgPid → InForeground w w.memory.fgPid
  signalled : ∀ pid sig, o = .kill pid sig → Signalled w pid

/-- There is no foreground process. -/
structure Even (w v : World) : Prop where
  fgPid_eq : w.memory.fgPid = -1
  fades : Fades w (-1) v

/-- There is one, or ctrl-C has cleared its number. -/
structure Foregrounded (pid : ℤ) (w v : World) : Prop where
  fgPid_eq : w.memory.fgPid = pid
  fades : ∃ fg, (fg = pid ∨ fg = -1) ∧ Fades w fg v
  inForeground : InForeground w pid

theorem Even.refl (h : w.memory.fgPid = -1) : Even w w :=
  ⟨h, h ▸ Fades.refl w⟩

theorem Even.stable (w : World) : Stable Step ctrlCHandler (Even w) := by
  intro v v' h hruns
  have hpost := ctrlCHandler_post v () v' hruns
  rw [h.fades.memory_eq] at hpost
  exact ⟨h.fgPid_eq, h.fades.trans hpost⟩

theorem Foregrounded.stable (pid : ℤ) (w : World) :
    Stable Step ctrlCHandler (Foregrounded pid w) := by
  intro v v' h hruns
  obtain ⟨fg, hfg, hfades⟩ := h.fades
  have hpost := ctrlCHandler_post v () v' hruns
  rw [hfades.memory_eq, interruptedPid] at hpost
  refine ⟨h.fgPid_eq, ?_, h.inForeground⟩
  split at hpost
  · exact ⟨-1, Or.inr rfl, hfades.trans hpost⟩
  · exact ⟨fg, hfg, hfades.trans hpost⟩

theorem Even.watch {o : Sys} (h : Even w v)
    (hkill : ∀ pid sig, o = .kill pid sig → Signalled w pid) : Watch w v o where
  fades := ⟨-1, Or.inr rfl, h.fades⟩
  foreground := by
    rw [h.fgPid_eq]
    intro hpos
    omega
  signalled := hkill

theorem Foregrounded.watch {o : Sys} (h : Foregrounded pid w v)
    (hkill : ∀ pid sig, o ≠ .kill pid sig) : Watch w v o where
  fades := h.fgPid_eq ▸ h.fades
  foreground := fun _ => h.fgPid_eq ▸ h.inForeground
  signalled := fun pid sig ho => absurd ho (hkill pid sig)

/-- The program with interrupts follows the program without, from `w` and `v` on. -/
abbrev Shadows (p : ShellM α) (w v : World) (S : World → World → Prop) : Prop :=
  Follows Step ctrlCHandler Watch p w v S

/-! ## Programs without a foreground process -/

/-- The calls that neither change the memory nor send a signal. -/
def Modest : Sys → Prop
  | .put _ => False
  | .kill _ _ => False
  | _ => True

def LeavesMemory : Sys → Prop
  | .put _ => False
  | _ => True

theorem Step.memory_eq {o : Sys} {x : o.Answer} (ho : LeavesMemory o)
    (h : Step s o x s') : s'.memory = s.memory := by
  obtain ⟨ended, -, h⟩ := h
  cases o with
  | put m => exact ho.elim
  | undefined => exact h.elim
  | exit status => exact h.elim
  | get =>
      obtain ⟨-, rfl⟩ := h
      rfl
  | getpid =>
      obtain ⟨-, rfl⟩ := h
      rfl
  | fork => obtain ⟨-, rfl⟩ | ⟨-, -, rfl⟩ := h <;> rfl
  | waitpid pid nohang =>
      match x, h with
      | .running, ⟨_, _, _, heq⟩ => exact heq ▸ rfl
      | .reaped _, ⟨_, _, heq⟩ => exact heq ▸ rfl
      | .error .ECHILD, ⟨_, heq⟩ => exact heq ▸ rfl
      | .error .EINTR, ⟨_, heq⟩ => exact heq ▸ rfl
  | dup fd => obtain ⟨-, rfl⟩ | ⟨d, file, -, -, -, rfl⟩ := h <;> rfl
  | openFile path mode => obtain ⟨-, rfl⟩ | ⟨d, file, -, -, rfl⟩ := h <;> rfl
  | dup2 oldFd newFd => obtain ⟨-, rfl⟩ | ⟨file, -, -, rfl⟩ := h <;> rfl
  | pipe => obtain ⟨-, rfl⟩ | ⟨d, e, f, g, -, -, -, -, rfl⟩ := h <;> rfl
  | close fd => obtain ⟨-, -, rfl⟩ | ⟨-, -, rfl⟩ := h <;> rfl
  | _ =>
      obtain rfl := h
      rfl

/-- What the shell does between interrupts it can do without. -/
theorem Even.step {o : Sys} {x : o.Answer} (h : Even w v) (hstep : Step v o x v') :
    Step w o x v' := by
  obtain ⟨hfg, ended, hended, rfl⟩ := h
  have hw : w.setFgPid (-1) = w := by rw [World.setFgPid, ← hfg]
  rw [hw] at hstep
  exact hstep.of_ending hended

/-- A call that is no signal, and after which there is no foreground process. -/
theorem Even.call {o : Sys} {f : o.Answer → ShellM α} {S : World → World → Prop}
    (h : Even w v) (ho : ∀ pid sig, o ≠ .kill pid sig)
    (hf : ∀ x w', Step w o x w' → w'.memory.fgPid = -1 ∧ Shadows (f x) w' w' S) :
    Shadows (sys o >>= f) w v S := by
  refine Follows.call (Even.stable w) h (fun v hv => hv.watch ?_) fun v x v' hv hstep => ?_
  · exact fun pid sig hkill => absurd hkill (ho pid sig)
  · have hstep' := hv.step hstep
    exact ⟨x, v', hstep', rfl, (hf x v' hstep').2⟩

/-- Where there is no foreground process, the program follows itself. -/
def Calm (p : ShellM α) : Prop :=
  ∀ w v, Even w v → Shadows p w v Even

namespace Calm

theorem pure {a : α} : Calm (Pure.pure a : ShellM α) :=
  fun _ _ h => h

theorem seq {p : ShellM α} {f : α → ShellM β} (hp : Calm p) (hf : ∀ a, Calm (f a)) :
    Calm (p >>= f) :=
  fun w v h => (hp w v h).seq fun a w' v' h' => hf a w' v' h'

theorem makes {p : ShellM α} (hp : p.Makes Modest) : Calm p := by
  intro w v h
  induction p generalizing w v with
  | pure a => exact h
  | call o next ih =>
      have ho : LeavesMemory o := by
        cases o with
        | put m => exact hp.1
        | _ => trivial
      have hkill : ∀ pid sig, o ≠ .kill pid sig := by
        rintro pid sig rfl
        exact hp.1
      refine ⟨Even w, Even.stable w, h, fun v hv => ⟨hv.watch ?_, fun x v' hstep => ?_⟩⟩
      · exact fun pid sig heq => absurd heq (hkill pid sig)
      · have hstep' := hv.step hstep
        refine ⟨x, v', hstep', rfl, ih x (hp.2 x) v' v' (Even.refl ?_)⟩
        rw [hstep'.memory_eq ho, hv.fgPid_eq]

theorem put {m : Memory} (hm : m.fgPid = -1) : Calm (sys (.put m)) := by
  intro w v h
  refine Follows.perform (Even.stable w) h (fun v hv => hv.watch nofun) ?_
  intro v x v' hv hstep
  have hstep' := hv.step hstep
  obtain ⟨ended, -, rfl⟩ := hstep
  exact ⟨_, hstep', Even.refl hm⟩

theorem get {f : Memory → ShellM α} (hf : ∀ m, m.fgPid = -1 → Calm (f m)) :
    Calm (sys .get >>= f) := by
  intro w v h
  refine h.call nofun fun m w' hstep => ?_
  obtain ⟨rfl, hfades⟩ := hstep.get_fades
  have hw' : w'.memory.fgPid = -1 := by rw [hfades.memory_eq, h.fgPid_eq]
  exact ⟨hw', hf _ h.fgPid_eq w' w' (Even.refl hw')⟩

theorem ite {c : Prop} [Decidable c] {p q : ShellM α} (hp : Calm p) (hq : Calm q) :
    Calm (if c then p else q) := by
  by_cases h : c
  · rwa [if_pos h]
  · rwa [if_neg h]

theorem ofOption {x : Option β} {f : β → ShellM α} (hf : ∀ b, Calm (f b)) :
    Calm (ofOption x >>= f) :=
  seq (makes (makes_ofOption x trivial)) hf

end Calm

/-! ## With the job table -/

/-- Calls that leave the memory and the jobs alone and send no signal. -/
def Plain (o : Sys) : Prop :=
  Modest o ∧ LeavesJobs o

theorem FileCall.plain {o : Sys} (h : FileCall o) : Plain o := by
  refine ⟨?_, h.leavesJobs⟩
  cases o with
  | put m => exact h.elim
  | kill pid sig => exact h.elim
  | _ => trivial

/-- There is no foreground process, and the job table is in order. -/
structure EvenTable (w v : World) : Prop extends Even w v where
  table : Table w

theorem EvenTable.refl (h : w.memory.fgPid = -1) (ht : Table w) : EvenTable w w :=
  ⟨Even.refl h, ht⟩

theorem Table.signalled (h : Table s) (hfg : s.memory.fgPid = -1) {job : JobEntry}
    (hjob : job ∈ s.memory.jobList) : Signalled s job.pid := by
  have htracked : Tracked s.memory.jobList [] s := h.listed
  refine ⟨hfg, htracked.child _ ?_, job, hjob, rfl, ?_⟩
  · rw [List.append_nil, List.map_map]
    exact List.mem_map_of_mem (f := Prod.fst ∘ JobEntry.key) hjob
  · rw [htracked.pending_eq, List.append_nil]
    exact List.mem_map_of_mem hjob

theorem Step.table {o : Sys} {x : o.Answer} (ho : LeavesJobs o) (h : Step s o x s')
    (ht : Table s) : Table s' :=
  ht.makes (p := Prog.perform o) (Prog.Makes.perform ho) x s' (runs_perform.mpr h)

namespace EvenTable

theorem calm {p : ShellM α} (h : EvenTable w v) (hp : Calm p) {Q : α → World → Prop}
    (hpost : Post Step p w Q) (hQ : ∀ a s', Q a s' → Table s') :
    Shadows p w v EvenTable :=
  ((hp w v h.toEven).and_post hpost hQ).mono fun _ _ h' => ⟨h'.1, h'.2⟩

theorem keeps {p : ShellM α} (h : EvenTable w v) (hp : p.Makes Plain) :
    Shadows p w v fun w' v' => EvenTable w' v' ∧ w'.memory = w.memory := by
  have hplain : p.Makes LeavesJobs := hp.mono fun _ => And.right
  have hpost : Post Step p w fun _ w' => Table w' ∧ w'.memory = w.memory := by
    intro a w' hruns
    have hkept : Kept w w' := hplain.rel (R := Kept) (fun _ _ _ _ => Step.kept) hruns
    exact ⟨h.table.makes hplain a w' hruns, hkept.memory_eq⟩
  have hcalm : Calm p := .makes (hp.mono fun _ => And.left)
  refine ((hcalm w v h.toEven).and_post hpost fun _ _ => id).mono ?_
  rintro w' v' ⟨heven, htable, hmemory⟩
  exact ⟨⟨heven, htable⟩, hmemory⟩

theorem makes {p : ShellM α} (h : EvenTable w v) (hp : p.Makes Plain) :
    Shadows p w v EvenTable :=
  (h.keeps hp).mono fun _ _ => And.left

theorem get {f : Memory → ShellM α} {S : World → World → Prop} (h : EvenTable w v)
    (hf : ∀ w', EvenTable w' w' → Shadows (f w'.memory) w' w' S) :
    Shadows (sys .get >>= f) w v S := by
  refine h.toEven.call nofun fun m w' hstep => ?_
  obtain ⟨rfl, hfades⟩ := hstep.get_fades
  have hmemory := Step.memory_eq (o := .get) trivial hstep
  have hw' : w'.memory.fgPid = -1 := by rw [hmemory, h.fgPid_eq]
  exact ⟨hw', hmemory ▸ hf w' (.refl hw' (Step.table (o := .get) trivial hstep h.table))⟩

theorem ofOption {x : Option β} {f : β → ShellM α} {S : World → World → Prop}
    (h : EvenTable w v) (hf : ∀ b, x = some b → Shadows (f b) w v S) :
    Shadows (ofOption x >>= f) w v S := by
  cases x with
  | some b => exact hf b rfl
  | none =>
      refine ⟨Even w, Even.stable w, h.toEven, fun v hv => ⟨hv.watch nofun, ?_⟩⟩
      exact fun x _ _ => x.elim

/-- A signal to a job of the table. -/
theorem kill {job : JobEntry} {sig : ℤ} {f : Bool → ShellM α} {S : World → World → Prop}
    (h : EvenTable w v) (hjob : job ∈ w.memory.jobList)
    (hf : ∀ x w', EvenTable w' w' → w'.memory = w.memory → Shadows (f x) w' w' S) :
    Shadows (sys (.kill job.pid sig) >>= f) w v S := by
  refine Follows.call (Even.stable w) h.toEven (fun v hv => hv.watch ?_) ?_
  · intro pid sig' heq
    obtain ⟨rfl, -⟩ := Sys.kill.inj heq
    exact h.table.signalled h.fgPid_eq hjob
  · intro v x v' hv hstep
    have hstep' := hv.step hstep
    have hmemory := Step.memory_eq (o := .kill job.pid sig) trivial hstep'
    refine ⟨x, v', hstep', rfl, hf x v' (.refl ?_ ?_) hmemory⟩
    · rw [hmemory, h.fgPid_eq]
    · exact Step.table (o := .kill job.pid sig) trivial hstep' h.table

end EvenTable

/-! ## Waiting for a process -/

theorem InForeground.congr (h : InForeground s pid) (hchildren : s'.children = s.children)
    (hhistory : s'.history = s.history) : InForeground s' pid := by
  refine ⟨?_, ?_⟩
  · rw [hhistory]
    exact h.not_pending
  · rw [hchildren, hhistory]
    exact h.alive

/-- A process that ends or comes to the foreground is no background job any more. -/
theorem not_pending_concat (history : List Event) {e : Event}
    (he : e = .terminated pid ∨ e = .foregrounded pid) :
    pid ∉ (pending (history ++ [e])).map Prod.fst := by
  have hstep : pendingStep (pending history) e = (pending history).filter (·.1 ≠ pid) := by
    rcases he with rfl | rfl <;> rfl
  rw [pending_concat, hstep]
  intro hmem
  obtain ⟨x, hx, rfl⟩ := List.mem_map.mp hmem
  simpa using (List.mem_filter.mp hx).2

/-- `waitpid` does not see the foreground process. -/
theorem waitEffect_setFgPid {nohang : Bool} {x : WaitResult}
    (h : waitEffect (s.setFgPid fg) pid nohang x v') :
    ∃ s', waitEffect s pid nohang x s' ∧ v' = s'.setFgPid fg := by
  match x, h with
  | .running, ⟨hnohang, hchild, hexited, heq⟩ =>
      exact ⟨s, ⟨hnohang, hchild, hexited, rfl⟩, heq⟩
  | .reaped _, ⟨hchild, hexited, heq⟩ => exact ⟨s.reap pid, ⟨hchild, hexited, rfl⟩, heq⟩
  | .error .ECHILD, ⟨hchild, heq⟩ => exact ⟨s, ⟨hchild, rfl⟩, heq⟩
  | .error .EINTR, ⟨hnohang, heq⟩ => exact ⟨s, ⟨hnohang, rfl⟩, heq⟩

/-- The process that was waited for is the last that ended. -/
theorem InForeground.wait {x : WaitResult} (h : InForeground s pid)
    (hwait : waitEffect s pid false x s') : InForeground s' pid := by
  match x, hwait with
  | .running, ⟨hnohang, _⟩ => cases hnohang
  | .error .ECHILD, ⟨_, heq⟩ => exact heq ▸ h
  | .error .EINTR, ⟨_, heq⟩ => exact heq ▸ h
  | .reaped _, ⟨_, _, heq⟩ =>
      subst heq
      refine ⟨not_pending_concat s.history (Or.inl rfl), Or.inr ?_⟩
      rw [World.reap, List.getLast?_concat]

/-- Calls that print. -/
def Speaks : Sys → Prop
  | .print _ => True
  | .perror _ => True
  | _ => False

theorem Speaks.silent {o : Sys} (h : Speaks o) : Silent o := by
  cases o with
  | print out => trivial
  | perror text => trivial
  | _ => exact h.elim

theorem Speaks.step_self {o : Sys} (h : Speaks o) (x : o.Answer) : Step s o x s := by
  apply Step.of_effect
  cases o with
  | print out => rfl
  | perror text => rfl
  | _ => exact h.elim

namespace Foregrounded

theorem set (h : Even w v) (hfg : InForeground w pid) :
    Shadows (setForegroundPid pid) w v (Foregrounded pid) := by
  refine h.call nofun fun m w' hget => ?_
  obtain ⟨rfl, hfades⟩ := hget.get_fades
  have hw' : w'.memory.fgPid = -1 := by rw [hfades.memory_eq, h.fgPid_eq]
  refine ⟨hw', Follows.perform (Even.stable w') (Even.refl hw')
    (fun v hv => hv.watch nofun) fun v x v' hv hstep => ?_⟩
  have hput := hv.step hstep
  obtain ⟨ended, -, rfl⟩ := hput
  refine ⟨_, hv.step hstep, ?_⟩
  exact ⟨rfl, ⟨pid, Or.inl rfl, Fades.refl _⟩,
    hfg.congr hfades.children_eq hfades.history_eq⟩

/-- What is printed while there is a foreground process. -/
theorem speak {o : Sys} {f : o.Answer → ShellM α} {S : World → World → Prop}
    (h : Foregrounded pid w v) (ho : Speaks o)
    (hf : ∀ x v', Foregrounded pid w v' → Shadows (f x) w v' S) :
    Shadows (sys o >>= f) w v S := by
  refine Follows.call (Foregrounded.stable pid w) h (fun v hv => hv.watch ?_) ?_
  · rintro pid' sig rfl
    exact ho
  · intro v x v' hv hstep
    obtain ⟨fg, hfg, hfades⟩ := hv.fades
    have hfades' := hfades.step (hstep.silent ho.silent)
    exact ⟨x, w, ho.step_self x, rfl,
      hf x v' ⟨hv.fgPid_eq, ⟨fg, hfg, hfades'⟩, hv.inForeground⟩⟩

theorem waitpid (h : Foregrounded pid w v) :
    Shadows (sys (.waitpid pid false)) w v (Foregrounded pid) := by
  refine Follows.perform (Foregrounded.stable pid w) h (fun v hv => hv.watch nofun) ?_
  intro v x v' hv hstep
  obtain ⟨fg, hfg, ended, hended, rfl⟩ := hv.fades
  obtain ⟨ended', hended', heffect⟩ := hstep
  rw [World.ending, Finset.union_assoc] at heffect
  obtain ⟨w', hwait, rfl⟩ := waitEffect_setFgPid (s := w.ending (ended ∪ ended')) heffect
  have hstep' : Step w (.waitpid pid false) x w' :=
    ⟨ended ∪ ended', Finset.union_subset hended hended', hwait⟩
  have hin : InForeground (w.ending (ended ∪ ended')) pid := hv.inForeground.congr rfl rfl
  refine ⟨w', hstep', ?_, ⟨fg, hfg, Fades.setFgPid w' fg⟩, hin.wait hwait⟩
  have hmemory := Step.memory_eq (o := .waitpid pid false) trivial hstep'
  rw [hmemory, hv.fgPid_eq]

/-- Whatever the number has become, it is overwritten. -/
theorem unset (h : Foregrounded pid w v) :
    Shadows (setForegroundPid (-1)) w v Even := by
  refine Follows.call (Foregrounded.stable pid w) h (fun v hv => hv.watch nofun) ?_
  intro v m v' hv hget
  obtain ⟨rfl, hfades⟩ := hget.get_fades
  obtain ⟨fg, hfg, hv'⟩ := hv.fades
  refine ⟨w.memory, w, Step.of_effect ⟨rfl, rfl⟩, by rw [hv'.memory_eq], ?_⟩
  have h' : Foregrounded pid w v' := ⟨hv.fgPid_eq, ⟨fg, hfg, hv'.step hfades⟩, hv.inForeground⟩
  refine Follows.perform (Foregrounded.stable pid w) h' (fun v hv => hv.watch nofun) ?_
  intro v₂ x v₃ hv₂ hput
  obtain ⟨fg₂, -, hv₂'⟩ := hv₂.fades
  rw [hv'.memory_eq] at hput ⊢
  exact ⟨w.setFgPid (-1), Step.of_effect rfl, rfl, (hv₂'.put hput).congr (-1)⟩

end Foregrounded

end OsCoursework.Shell
