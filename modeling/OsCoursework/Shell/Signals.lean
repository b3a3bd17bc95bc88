import OsCoursework.Shell.JobRuns
import OsCoursework.Support.Interrupts

/-!
# The shell under ctrl-C

`ctrlCHandler` and the loop of `main`.  The handler may run before any call of the
shell and at the prompt.  It changes the number of the foreground process only, and
this number is seen only in the commands that wait for a process: everywhere else the
shell goes on as if it had not been interrupted.
-/

namespace OsCoursework.Shell

open OsCoursework.Calls Relation

/-! ## The handler and the loop -/

def SIGINT : ℤ := 2

def ctrlCHandler : ShellM Unit := do
  let m ← sys .get
  cout "smash: got ctrl-C".toList
  when (m.fgPid > 0) (do
    if ← sys (.kill m.fgPid SIGINT) then
      cout ("smash: process ".toList ++ decimal m.fgPid ++ " was killed".toList)
    else sys (.perror "smash error: kill failed")
    setForegroundPid (-1))

/-- What `main` does once: the prompt it shows, the line it reads, and the depth to
which the line is executed. -/
structure Turn where
  name : Text
  cmdLine : Text
  depth : ℕ

/-- The loop of `main`, as far as there is input. -/
def smash : List Turn → ShellM Unit
  | [] => pure ()
  | turn :: turns => do
      cout (turn.name ++ "> ".toList)
      executeCommand turn.depth turn.cmdLine
      smash turns

variable {α β : Type} {s s' w v v' : World} {fg : ℤ}

/-! ## States that differ in the foreground process -/

/-- More children have ended. -/
def World.ending (s : World) (ended : Finset ℤ) : World :=
  { s with exited := s.exited ∪ ended }

def World.setFgPid (s : World) (pid : ℤ) : World :=
  { s with memory := { s.memory with fgPid := pid } }

/-- Children that ended before a call may as well end with it. -/
theorem Step.of_ending {o : Sys} {x : o.Answer} {ended : Finset ℤ}
    (hended : ended ⊆ s.children) (h : Step (s.ending ended) o x s') : Step s o x s' := by
  obtain ⟨ended', hended', h⟩ := h
  refine ⟨ended ∪ ended', Finset.union_subset hended hended', ?_⟩
  rwa [← Finset.union_assoc]

/-- The state is as before, with another foreground process, and more children may
have ended. -/
def Fades (s : World) (fg : ℤ) (s' : World) : Prop :=
  ∃ ended ⊆ s.children, s' = (s.setFgPid fg).ending ended

theorem Fades.refl (s : World) : Fades s s.memory.fgPid s :=
  ⟨∅, Finset.empty_subset _, by simp [World.ending, World.setFgPid]⟩

theorem Fades.setFgPid (s : World) (fg : ℤ) : Fades s fg (s.setFgPid fg) :=
  ⟨∅, Finset.empty_subset _, by simp [World.ending]⟩

/-- Another foreground process at the start makes no difference. -/
theorem Fades.congr (h : Fades s fg v) (fg' : ℤ) : Fades (s.setFgPid fg') fg v := by
  obtain ⟨ended, hended, rfl⟩ := h
  exact ⟨ended, hended, rfl⟩

theorem Fades.memory_eq (h : Fades s fg v) : v.memory = { s.memory with fgPid := fg } := by
  obtain ⟨ended, -, rfl⟩ := h
  rfl

theorem Fades.fgPid_eq (h : Fades s fg v) : v.memory.fgPid = fg := by
  rw [h.memory_eq]

theorem Fades.children_eq (h : Fades s fg v) : v.children = s.children := by
  obtain ⟨ended, -, rfl⟩ := h
  rfl

theorem Fades.history_eq (h : Fades s fg v) : v.history = s.history := by
  obtain ⟨ended, -, rfl⟩ := h
  rfl

theorem Fades.fds_eq (h : Fades s fg v) : v.fds = s.fds := by
  obtain ⟨ended, -, rfl⟩ := h
  rfl

theorem Fades.trans {fg' : ℤ} (h : Fades s fg v) (h' : Fades v fg' v') : Fades s fg' v' := by
  obtain ⟨ended, hended, rfl⟩ := h
  obtain ⟨ended', hended', rfl⟩ := h'
  refine ⟨ended ∪ ended', Finset.union_subset hended hended', ?_⟩
  simp only [World.ending, World.setFgPid, Finset.union_assoc]

/-- Calls that do nothing to the shell. -/
def Silent : Sys → Prop
  | .print _ => True
  | .perror _ => True
  | .kill _ _ => True
  | _ => False

theorem Step.silent {o : Sys} {x : o.Answer} (ho : Silent o) (h : Step s o x s') :
    Fades s s.memory.fgPid s' := by
  obtain ⟨ended, hended, h⟩ := h
  refine ⟨ended, hended, ?_⟩
  cases o with
  | print out => exact h
  | perror text => exact h
  | kill pid sig => exact h
  | _ => exact ho.elim

theorem Step.get_fades {m : Memory} (h : Step s .get m s') :
    m = s.memory ∧ Fades s s.memory.fgPid s' := by
  obtain ⟨ended, hended, rfl, rfl⟩ := h
  exact ⟨rfl, ended, hended, rfl⟩

theorem Fades.step (h : Fades s fg v) (hstep : Fades v v.memory.fgPid v') :
    Fades s fg v' := by
  have hfg : v.memory.fgPid = fg := by rw [h.memory_eq]
  exact h.trans (hfg ▸ hstep)

theorem Fades.silent {p : ShellM α} (h : Fades s fg v) (hp : p.Makes Silent) :
    Post Step p v fun _ v' => Fades s fg v' := by
  intro _ v' hruns
  induction p generalizing v with
  | pure a =>
      obtain ⟨-, rfl⟩ := hruns
      exact h
  | call o next ih =>
      obtain ⟨x, v₁, hstep, hrest⟩ := hruns
      exact ih x (h.step (hstep.silent hp.1)) (hp.2 x) hrest

/-- Writing back the memory with another foreground process. -/
theorem Fades.put {pid : ℤ} (h : Fades s fg v)
    (hput : Step v (.put { s.memory with fgPid := pid }) () v') : Fades s pid v' := by
  obtain ⟨ended, hended, rfl⟩ := hput
  refine h.trans ⟨ended, hended, ?_⟩
  simp only [World.ending, World.setFgPid, h.memory_eq]

theorem Fades.setForegroundPid (h : Fades s fg v) (pid : ℤ) :
    Post Step (setForegroundPid pid) v fun _ v' => Fades s pid v' := by
  refine Post.call fun m v₁ hget => ?_
  obtain ⟨rfl, hv₁⟩ := hget.get_fades
  refine Post.perform fun _ v' hput => ?_
  apply (h.step hv₁).put
  rwa [h.memory_eq] at hput

/-! ## What the handler does -/

/-- The foreground process after ctrl-C. -/
def interruptedPid (fgPid : ℤ) : ℤ :=
  if fgPid > 0 then -1 else fgPid

theorem ctrlCHandler_post (s : World) :
    Post Step ctrlCHandler s fun _ s' => Fades s (interruptedPid s.memory.fgPid) s' := by
  refine Post.call fun m s₁ hget => ?_
  obtain ⟨rfl, h₁⟩ := hget.get_fades
  refine Post.seq (h₁.silent (makes_sys trivial)) fun _ s₂ h₂ => ?_
  rw [interruptedPid, when]
  split
  · refine Post.seq (h₂.silent (makes_sys trivial)) fun sent s₃ h₃ => ?_
    have hset (s₄ : World) (h₄ : Fades s s.memory.fgPid s₄) := h₄.setForegroundPid (-1)
    cases sent with
    | true => exact Post.seq (h₃.silent (makes_sys trivial)) fun _ s₄ h₄ => hset s₄ h₄
    | false => exact Post.seq (h₃.silent (makes_sys trivial)) fun _ s₄ h₄ => hset s₄ h₄
  · exact Post.pure h₂

end OsCoursework.Shell
