import OsCoursework.Shell.DiskUsage
import OsCoursework.Shell.Environment
import OsCoursework.Shell.Signals
import OsCoursework.Shell.WorkingDirectory
import OsCoursework.Support.Mirror

/-!
# Commands that are followed twice

The shell follows the calls of `du`, `unsetenv` and `cd` for the sake of its jobs and
descriptors only, and each of these commands has a model of its own that says what it
is for.  Here the two are the same command: `du` makes the same calls in both,
`unsetenv` goes on with the bytes it has read, and the calls of `cd` do nothing to the
shell.
-/

namespace OsCoursework.Shell

open OsCoursework.Calls

/-! ## `du` -/

section DiskUsage

open DiskUsage (TreeCall TreeM TreeStep TreeState)

/-- The calls of `du` among those of the shell. -/
def treeCallOf : Sys → Option TreeCall
  | .undefined => some .undefined
  | .openFile path .readOnly => some (.openDir path)
  | .getdents fd => some (.getdents64 fd)
  | .lstat path => some (.lstat path)
  | .close fd => some (.close fd)
  | .print o => some (.print o)
  | .perror text => some (.print (.cerr text.toList))
  | _ => none

/-- The shell sees the names of the records in the buffer. -/
def NamesOf (buf : Option Text) (names : Option (List Text)) : Prop :=
  buf = none ∧ names = none ∨
    ∃ records : List Record, buf = some (encode records) ∧
      names = some (records.map Record.name)

/-- The answers, of which only the names are written in another way. -/
def SameAnswer : (o : TreeCall) → (o' : Sys) → o.Answer → o'.Answer → Prop
  | .openDir _, .openFile _ _ => fun fd fd' => fd' = fd
  | .getdents64 _, .getdents _ => NamesOf
  | .lstat _, .lstat _ => fun st st' => st' = st
  | .close _, .close _ => fun ok ok' => ok' = ok
  | _, _ => fun _ _ => True

variable {fs : FileSystem} {s s' : TreeState}

/-- A call of the shell in a directory tree. -/
abbrev ShellTreeStep (fs : FileSystem) :
    TreeState → (o : Sys) → o.Answer → TreeState → Prop :=
  Paired treeCallOf SameAnswer (TreeStep fs)

theorem addEntries_mirrors {visit : Text → TreeM ℕ} {visit' : Text → ShellM ℕ}
    (h : ∀ path, Mirrors treeCallOf SameAnswer (visit path) (visit' path)) (path : Text)
    (records : List Record) (total : ℕ) :
    Mirrors treeCallOf SameAnswer
      (DiskUsage.recordLoop visit path (encode records) total)
      (addEntries visit' path (records.map Record.name) total) := by
  induction records generalizing total with
  | nil =>
      rw [encode, DiskUsage.recordLoop]
      exact Mirrors.pure total
  | cons r records ih =>
      have hencode : encode (r :: records) = r.bytes ++ encode records := rfl
      rw [hencode, DiskUsage.recordLoop_append, List.map_cons, addEntries,
        DiskUsage.addEntry]
      split
      · exact ih total
      · refine ⟨.lstat (join path r.name), _, rfl, rfl, ?_⟩
        rintro _ st rfl
        rcases st with _ | ⟨_ | _, blocks⟩
        · exact ⟨.perror _, _, rfl, rfl, fun _ _ _ => ih total⟩
        · exact ih ((total + blocks * 512) % 2 ^ 64)
        · change Mirrors _ _ ((visit (join path r.name) >>= fun size =>
            pure ((total + size) % 2 ^ 64)) >>= _) _
          rw [Prog.bind_assoc]
          exact Mirrors.bind (h _) fun size => ih ((total + size) % 2 ^ 64)

theorem dirLoop_mirrors {visit : Text → TreeM ℕ} {visit' : Text → ShellM ℕ}
    (h : ∀ path, Mirrors treeCallOf SameAnswer (visit path) (visit' path)) (path : Text)
    (fd rounds total : ℕ) :
    Mirrors treeCallOf SameAnswer (DiskUsage.dirLoop visit path fd rounds total)
      (dirLoop visit' path fd rounds total) := by
  induction rounds generalizing total with
  | zero => exact ⟨.undefined, _, rfl, rfl, fun x => x.elim⟩
  | succ rounds ih =>
      rw [DiskUsage.dirLoop, dirLoop]
      refine Mirrors.call rfl ?_
      rintro _ _ (⟨rfl, rfl⟩ | ⟨records, rfl, rfl⟩)
      · exact ⟨.perror _, _, rfl, rfl, fun _ _ _ => Mirrors.pure total⟩
      · cases records with
        | nil => exact Mirrors.pure total
        | cons r records =>
            have hne := DiskUsage.encode_ne_nil (List.cons_ne_nil r records)
            obtain ⟨c, rest, hcons⟩ := List.exists_cons_of_ne_nil hne
            rw [hcons]
            dsimp only
            rw [← hcons]
            exact Mirrors.bind (addEntries_mirrors h path (r :: records) total) ih

theorem getDirSize_mirrors (depth : ℕ) (path : Text) :
    Mirrors treeCallOf SameAnswer (DiskUsage.getDirSize depth path)
      (getDirSize depth path) := by
  induction depth generalizing path with
  | zero => exact ⟨.undefined, _, rfl, rfl, fun x => x.elim⟩
  | succ depth ih =>
      rw [DiskUsage.getDirSize, getDirSize]
      refine Mirrors.call rfl ?_
      rintro _ fd rfl
      cases fd with
      | none => exact ⟨.perror _, _, rfl, rfl, fun _ _ _ => Mirrors.pure 0⟩
      | some fd =>
          refine Mirrors.bind (dirLoop_mirrors ih path fd depth 0) fun total => ?_
          exact Mirrors.call rfl fun _ _ _ => Mirrors.pure total

theorem diskUsageExecute_mirrors (depth : ℕ) (cmd : CommandData) :
    Mirrors treeCallOf SameAnswer (DiskUsage.diskUsageExecute depth cmd.args)
      (diskUsageExecute depth cmd) := by
  rw [DiskUsage.diskUsageExecute, diskUsageExecute]
  split
  · exact ⟨.print _, _, rfl, rfl, fun _ _ _ => Mirrors.pure ()⟩
  · refine Mirrors.bind (getDirSize_mirrors depth _) fun total => ?_
    exact ⟨.print _, _, rfl, rfl, fun _ _ _ => Mirrors.pure ()⟩

/-! ### Runs -/

/-- The buffers that an open directory still has are whole records. -/
def Encoded (s : TreeState) : Prop :=
  ∀ fd bufs, s.streams fd = some bufs → ∀ buf ∈ bufs, ∃ records, buf = encode records

theorem Encoded.set (hs : Encoded s) (fd : ℕ) {bufs : Option (List Text)}
    (hbufs : ∀ bufs', bufs = some bufs' → ∀ buf ∈ bufs', ∃ records, buf = encode records) :
    Encoded (s.set fd bufs) := by
  intro fd' bufs' hstream
  by_cases hfd : fd' = fd
  · subst hfd
    rw [TreeState.set_streams] at hstream
    exact hbufs bufs' hstream
  · have hother : (s.set fd bufs).streams fd' = s.streams fd' :=
      Function.update_of_ne hfd _ _
    rw [hother] at hstream
    exact hs fd' bufs' hstream

theorem Encoded.step {o : TreeCall} {x : o.Answer} (hs : Encoded s)
    (h : TreeStep fs s o x s') : Encoded s' := by
  cases o with
  | undefined => exact h.elim
  | openDir path =>
      rw [TreeStep] at h
      split at h
      · obtain ⟨fd, _, -, ⟨records, rfl, -⟩, -, rfl⟩ := h
        refine hs.set fd ?_
        rintro _ ⟨⟩ buf hbuf
        obtain ⟨rs, -, rfl⟩ := List.mem_map.mp hbuf
        exact ⟨rs, rfl⟩
      · exact h.2 ▸ hs
  | getdents64 fd =>
      rw [TreeStep] at h
      split at h
      · exact h.2 ▸ hs
      · exact h.2 ▸ hs
      · next buf bufs hstream =>
        rw [h.2]
        refine hs.set fd ?_
        rintro _ ⟨⟩ buf' hbuf'
        exact hs fd _ hstream buf' (List.mem_cons_of_mem buf hbuf')
  | lstat path => exact h.1 ▸ hs
  | close fd =>
      rw [h.2]
      exact hs.set fd fun _ hnone => by cases hnone
  | print o =>
      obtain rfl := h
      exact hs

/-- Every answer is one that the shell can be given. -/
theorem Encoded.exists_sameAnswer {o : TreeCall} {x : o.Answer} (hs : Encoded s)
    (h : TreeStep fs s o x s') {o' : Sys} (ho : treeCallOf o' = some o) :
    ∃ x', SameAnswer o o' x x' := by
  rw [treeCallOf.eq_def] at ho
  split at ho <;> cases ho
  · exact h.elim
  · exact ⟨x, rfl⟩
  · next fd =>
    rw [TreeStep] at h
    split at h
    · exact ⟨none, Or.inl ⟨h.1, rfl⟩⟩
    · exact ⟨some [], Or.inr ⟨[], h.1, rfl⟩⟩
    · next buf bufs hstream =>
      obtain ⟨records, rfl⟩ := hs fd _ hstream buf List.mem_cons_self
      exact ⟨some (records.map Record.name), Or.inr ⟨records, h.1, rfl⟩⟩
  · exact ⟨x, rfl⟩
  · exact ⟨x, rfl⟩
  · exact ⟨(), trivial⟩
  · exact ⟨(), trivial⟩

/-- `du` has the same runs in both. -/
theorem runs_diskUsageExecute_iff (hs : Encoded s) (depth : ℕ) (cmd : CommandData) :
    Runs (ShellTreeStep fs) (diskUsageExecute depth cmd) s () s' ↔
      Runs (TreeStep fs) (DiskUsage.diskUsageExecute depth cmd.args) s () s' :=
  (diskUsageExecute_mirrors depth cmd).runs_iff
    (fun _ _ _ _ hs hstep => ⟨hs.step hstep, fun _ ho => hs.exists_sameAnswer hstep ho⟩) hs

/-- What `du` prints as a command of the shell. -/
theorem diskUsageExecute_prints {cmd : CommandData} {entries : List (Text × Tree)}
    {depth : ℕ} (hargs : cmd.args.length ≤ 2)
    (hpath : fs.lookup (cmd.args[1]?.getD ".".toList) = some (.dir entries))
    (hdepth : needBelow entries < depth)
    (hne : 512 * blocksBelow entries % 2 ^ 64 ≠ 2 ^ 64 - 512) :
    Post (ShellTreeStep fs) (diskUsageExecute depth cmd) s fun _ s' =>
      s' = s.print (DiskUsage.usage ((512 * blocksBelow entries % 2 ^ 64) ⌈/⌉ 1024)) :=
  fun _ _ hruns => (DiskUsage.tellsUsage_of_ne hargs hpath hdepth hne).2.post _ _
    ((diskUsageExecute_mirrors depth cmd).runs hruns)

end DiskUsage

/-! ## Calls that do nothing to the shell -/

section

variable {α : Type} {s s' v : World}

/-- In front of a call nothing may have happened but the end of some children. -/
theorem Fades.runs_call {o : Sys} {next : o.Answer → ShellM α} {a : α}
    (h : Fades s s.memory.fgPid v) (hruns : Runs Step (.call o next) v a s') :
    Runs Step (.call o next) s a s' := by
  obtain ⟨ended, hended, rfl⟩ := h
  obtain ⟨x, s₁, hstep, hrest⟩ := hruns
  exact ⟨x, s₁, hstep.of_ending hended, hrest⟩

/-! ## `unsetenv` -/

/-- What `UnSetEnvCommand::execute` reads; `none` after a failure. -/
def readEnviron : ShellM (Option Text) := do
  match ← sys (.openFile "/proc/self/environ".toList .readOnly) with
  | none => do
      sys (.perror "smash error: open failed")
      pure none
  | some fdEnv => do
      match ← sys (.read fdEnv) with
      | none => do
          sys (.perror "smash error: read failed")
          sys (.note (.failed .unsetenvRead))
          pure none
      | some envFile => do
          if ← sys (.close fdEnv) then pure (some envFile)
          else do
            sys (.perror "smash error: close failed")
            pure none

/-- The whole of `UnSetEnvCommand::execute`, with the array it leaves. -/
def unSetEnv (fuel : ℕ) (cmd : CommandData) (env : EnvArray) : ShellM EnvArray :=
  match cmd.args[1]? with
  | none => do
      cerr "smash error: unsetenv: not enough arguments".toList
      pure env
  | some _ => do
      match ← readEnviron with
      | none => pure env
      | some envFile => do
          let left ← ofOption (unsetVariables fuel envFile (cmd.args.drop 1) env)
          printAll left.2
          pure left.1

/-- The calls that the shell follows are those up to the loop. -/
theorem unSetEnvExecute_eq (cmd : CommandData) :
    unSetEnvExecute cmd =
      match cmd.args[1]? with
      | none => cerr "smash error: unsetenv: not enough arguments".toList
      | some _ => readEnviron >>= fun _ => pure () := by
  rw [unSetEnvExecute]
  cases cmd.args[1]? with
  | none => rfl
  | some arg =>
      refine congrArg (Prog.call _) (funext fun fd => ?_)
      cases fd with
      | none => rfl
      | some fdEnv =>
          refine congrArg (Prog.call _) (funext fun envFile => ?_)
          cases envFile with
          | none => rfl
          | some envFile =>
              refine congrArg (Prog.call _) (funext fun closed => ?_)
              cases closed <;> rfl

/-- The bytes that can be read. -/
def Shows (envFile : Text) : (o : Sys) → o.Answer → Prop
  | .read _ => fun text => ∀ bytes, text = some bytes → bytes = envFile
  | _ => fun _ => True

/-- A call while the file holds these bytes. -/
def StepShowing (envFile : Text) (s : World) (o : Sys) (x : o.Answer) (s' : World) : Prop :=
  Step s o x s' ∧ Shows envFile o x

theorem readEnviron_post (envFile : Text) :
    Post (StepShowing envFile) readEnviron s fun read _ =>
      ∀ bytes, read = some bytes → bytes = envFile := by
  refine Post.call fun fd s₁ _ => ?_
  cases fd with
  | none => exact Post.after fun _ _ => Post.pure nofun
  | some fdEnv =>
      refine Post.call fun text s₂ hread => ?_
      cases text with
      | none => exact Post.after fun _ _ => Post.after fun _ _ => Post.pure nofun
      | some bytes =>
          refine Post.call fun closed s₃ _ => ?_
          cases closed with
          | true => exact Post.pure hread.2
          | false => exact Post.after fun _ _ => Post.pure nofun

/-- A run of `unsetenv` is a run of the calls that the shell follows, after which it
prints only, and leaves what the loop makes of the array, unless a call has failed. -/
theorem runs_unSetEnv {envFile : Text} {fuel : ℕ} {cmd : CommandData}
    {env env' : EnvArray}
    (hruns : Runs (StepShowing envFile) (unSetEnv fuel cmd env) s env' s') :
    (∃ v, Runs Step (unSetEnvExecute cmd) s () v ∧ Fades v v.memory.fgPid s') ∧
      (env' = env ∨
        ∃ out, unsetVariables fuel envFile (cmd.args.drop 1) env = some (env', out)) := by
  rw [unSetEnvExecute_eq]
  rw [unSetEnv] at hruns
  split at hruns
  · obtain ⟨_, v, hcerr, rfl, rfl⟩ := runs_bind.mp hruns
    exact ⟨⟨s', hcerr.mono fun _ _ _ _ h => h.1, Fades.refl s'⟩, Or.inl rfl⟩
  · obtain ⟨read, v, hread, hrest⟩ := runs_bind.mp hruns
    have hcalls : Runs Step (readEnviron >>= fun _ => pure ()) s () v :=
      (hread.mono fun _ _ _ _ h => h.1).seq ⟨rfl, rfl⟩
    cases read with
    | none =>
        obtain ⟨rfl, rfl⟩ := hrest
        exact ⟨⟨_, hcalls, Fades.refl _⟩, Or.inl rfl⟩
    | some bytes =>
        obtain rfl := readEnviron_post envFile _ v hread bytes rfl
        replace hrest := hrest.mono fun _ _ _ _ h => h.1
        dsimp only at hrest
        cases hleft : unsetVariables fuel bytes (cmd.args.drop 1) env with
        | none =>
            rw [hleft] at hrest
            obtain ⟨left, v', hno, -⟩ := runs_bind.mp hrest
            exact (post_undefined (Q := fun _ _ => False) left v' hno).elim
        | some _ =>
            rw [hleft] at hrest
            obtain ⟨left, v, ⟨rfl, rfl⟩, hloop⟩ := runs_bind.mp hrest
            obtain ⟨_, _, hprint, rfl, rfl⟩ := runs_bind.mp hloop
            have hsilent : (printAll left.2).Makes Silent :=
              makes_printAll (fun _ => trivial) left.2
            exact ⟨⟨v, hcalls, (Fades.refl v).silent hsilent () s' hprint⟩,
              Or.inr ⟨left.2, rfl⟩⟩

/-! ## `cd` -/

/-- A call of `cd` does nothing to the shell's jobs and descriptors; some children may
end. -/
def DirStepInShell (names : Text → Prop) (w : World × Directories) (o : DirCall)
    (x : o.Answer) (w' : World × Directories) : Prop :=
  DirStep names w.2 o x w'.2 ∧ Fades w.1 w.1.memory.fgPid w'.1

variable {names : Text → Prop} {d d' : Directories}

theorem runs_inShell {p : DirM α} {a : α}
    (hruns : Runs (DirStepInShell names) p (s, d) a (s', d')) :
    Runs (DirStep names) p d a d' ∧ Fades s s.memory.fgPid s' := by
  induction p generalizing s d with
  | pure b =>
      obtain ⟨rfl, heq⟩ := hruns
      obtain ⟨rfl, rfl⟩ := Prod.mk.inj heq
      exact ⟨⟨rfl, rfl⟩, Fades.refl s'⟩
  | call o next ih =>
      obtain ⟨x, ⟨s₁, d₁⟩, ⟨hdir, hfades⟩, hrest⟩ := hruns
      obtain ⟨hrest, hfades'⟩ := ih x hrest
      exact ⟨⟨x, d₁, hdir, hrest⟩, hfades.step hfades'⟩

/-- In `executeCommand`, what follows `cd` can follow in its place. -/
theorem runs_changeDirExecute {cmd : CommandData} {depth : ℕ}
    (hcd : Runs (DirStepInShell names) (changeDirExecute cmd) (s, d) () (v, d'))
    (hrest : Runs Step removeFinishedJobs v () s') :
    CdStep names cmd d d' ∧
      Runs Step (do builtInExecute depth .cd cmd; removeFinishedJobs) s () s' := by
  obtain ⟨hdir, hfades⟩ := runs_inShell hcd
  exact ⟨hdir, hfades.runs_call hrest⟩

end

end OsCoursework.Shell
