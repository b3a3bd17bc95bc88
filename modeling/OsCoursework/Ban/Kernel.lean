import Mathlib.Data.Finset.Insert
import Mathlib.Data.Int.Notation
import OsCoursework.Support.ParentChain

/-!
# The system calls

The four calls of `hw2.c` and the three calls that ask for a ban, on a kernel whose
tasks have a parent pointer, an effective user and ban flags.  The other code of
the kernel is given by `Services`: it works on a `world` of its own and does not
touch the flags.
-/

namespace OsCoursework.Ban

open OsCoursework.ParentChain

/-! ## The kernel -/

/-- The fields of `task_struct` that the calls use; a `NULL` pointer is `none`. -/
structure Task (τ : Type*) where
  realParent : Option τ
  euid : ℕ
  bannedSignals : BitVec 8

/-- The task structures, which of them are in use, and everything else. -/
structure Kernel (τ W : Type*) where
  task : τ → Task τ
  live : Finset τ
  world : W

/-- The functions of the kernel that the calls end in.  A process number means what
it means to the calling task. -/
structure Services (τ W : Type*) where
  findTaskByVpid : W → τ → ℤ → Option τ
  taskTgidVnr : W → τ → ℤ
  sysPipe2 : W → τ → ℕ → ℤ → ℤ × W
  killSomethingInfo : W → τ → ℤ → ℤ → ℤ × W

variable {τ W : Type*} [DecidableEq τ]

def GETPID : BitVec 8 := 0x01

def PIPE : BitVec 8 := 0x02

def KILL : BitVec 8 := 0x04

def EPERM : ℤ := 1

def ESRCH : ℤ := 3

def EINVAL : ℤ := 22

/-- The `switch` on the letter of a ban. -/
def signalOf : Char → Option (BitVec 8)
  | 'g' => some GETPID
  | 'p' => some PIPE
  | 'k' => some KILL
  | _ => none

/-- The store `t->banned_signals = flags`. -/
def setFlags (task : τ → Task τ) (t : τ) (flags : BitVec 8) : τ → Task τ :=
  Function.update task t { task t with bannedSignals := flags }

/-! ## The calls of `hw2.c` -/

def sysSetBan (k : Kernel τ W) (current : τ) (banGetpid banPipe banKill : ℤ) :
    ℤ × Kernel τ W :=
  if banGetpid < 0 ∨ banPipe < 0 ∨ banKill < 0 then (-EINVAL, k)
  else if (k.task current).euid ≠ 0 then (-EPERM, k)
  else
    let flags : BitVec 8 := 0
    let flags := if banGetpid > 0 then flags ||| GETPID else flags
    let flags := if banPipe > 0 then flags ||| PIPE else flags
    let flags := if banKill > 0 then flags ||| KILL else flags
    (0, { k with task := setFlags k.task current flags })

def sysGetBan (k : Kernel τ W) (current : τ) (ban : Char) : ℤ :=
  match signalOf ban with
  | none => -EINVAL
  | some sig => if (k.task current).bannedSignals &&& sig ≠ 0 then 1 else 0

def sysCheckBan (svc : Services τ W) (k : Kernel τ W) (current : τ) (pid : ℤ)
    (ban : Char) : ℤ :=
  match signalOf ban with
  | none => -EINVAL
  | some sig =>
      match svc.findTaskByVpid k.world current pid with
      | none => -ESRCH
      | some other =>
          if (k.task current).bannedSignals &&& sig ≠ 0 then -EPERM
          else if (k.task other).bannedSignals &&& sig ≠ 0 then 1 else 0

/-- The loop of `sys_flip_ban_branch`; its test `height > 0` is the case of a
successor. -/
def flipLoop (sig : BitVec 8) : ℕ → (τ → Task τ) → Option τ → ℤ → ℤ × (τ → Task τ)
  | 0, task, _, count => (count, task)
  | _ + 1, task, none, count => (count, task)
  | height + 1, task, some parent, count =>
      let flags := (task parent).bannedSignals
      let (count, task) :=
        if flags &&& sig = 0 then
          (count + 1, setFlags task parent (flags ||| sig))
        else (count, setFlags task parent (flags &&& ~~~ sig))
      if (task parent).realParent = some parent then (count, task)
      else flipLoop sig height task (task parent).realParent count

def sysFlipBanBranch (k : Kernel τ W) (current : τ) (height : ℤ) (ban : Char) :
    ℤ × Kernel τ W :=
  if height ≤ 0 then (-EINVAL, k)
  else
    match signalOf ban with
    | none => (-EINVAL, k)
    | some sig =>
        if (k.task current).bannedSignals &&& sig ≠ 0 then (-EPERM, k)
        else
          let (count, task) := flipLoop sig height.toNat k.task
            (k.task current).realParent 0
          (count, { k with task := task })

/-! ## The calls that can be banned -/

def sysGetpid (svc : Services τ W) (k : Kernel τ W) (current : τ) :
    ℤ × Kernel τ W :=
  if sysGetBan k current 'g' ≠ 0 then (-EPERM, k)
  else (svc.taskTgidVnr k.world current, k)

def sysPipe (svc : Services τ W) (k : Kernel τ W) (current : τ) (fildes : ℕ) :
    ℤ × Kernel τ W :=
  if sysGetBan k current 'p' ≠ 0 then (-EPERM, k)
  else
    let (error, world) := svc.sysPipe2 k.world current fildes 0
    (error, { k with world := world })

def sysKill (svc : Services τ W) (k : Kernel τ W) (current : τ) (pid sig : ℤ) :
    ℤ × Kernel τ W :=
  if sysGetBan k current 'k' ≠ 0 then (-EPERM, k)
  else
    let (error, world) := svc.killSomethingInfo k.world current sig pid
    (error, { k with world := world })

/-! ## Runs -/

inductive Call where
  | setBan (banGetpid banPipe banKill : ℤ)
  | getBan (ban : Char)
  | checkBan (pid : ℤ) (ban : Char)
  | flipBanBranch (height : ℤ) (ban : Char)
  | getpid
  | pipe (fildes : ℕ)
  | kill (pid sig : ℤ)

/-- The return value of a call and the kernel after it. -/
def exec (svc : Services τ W) (k : Kernel τ W) (current : τ) : Call → ℤ × Kernel τ W
  | .setBan banGetpid banPipe banKill =>
      sysSetBan k current banGetpid banPipe banKill
  | .getBan ban => (sysGetBan k current ban, k)
  | .checkBan pid ban => (sysCheckBan svc k current pid ban, k)
  | .flipBanBranch height ban => sysFlipBanBranch k current height ban
  | .getpid => sysGetpid svc k current
  | .pipe fildes => sysPipe svc k current fildes
  | .kill pid sig => sysKill svc k current pid sig

/-- `fork` copies the task structure, except for the parent. -/
def fork (k : Kernel τ W) (parent child : τ) : Kernel τ W :=
  { k with
    task := Function.update k.task child
      { k.task parent with realParent := some parent }
    live := insert child k.live }

/-- A task in use that is not its own parent makes a call, or a task forks. -/
inductive Step (svc : Services τ W) : Kernel τ W → Kernel τ W → Prop where
  | call {k : Kernel τ W} {current : τ} (c : Call) (hlive : current ∈ k.live)
      (hroot : (k.task current).realParent ≠ some current) :
      Step svc k (exec svc k current c).2
  | fork {k : Kernel τ W} {parent child : τ} (hlive : parent ∈ k.live)
      (hnew : child ∉ k.live) : Step svc k (fork k parent child)

/-- The parent pointers. -/
def Kernel.parent (k : Kernel τ W) (t : τ) : Option τ :=
  (k.task t).realParent

/-- Each chain of parents of a task in use stays among these and ends at a task that
is its own parent. -/
def Kernel.Forest (k : Kernel τ W) : Prop :=
  ∀ t ∈ k.live, ∃ l, Ancestors k.parent t l ∧ ∀ a ∈ l, a ∈ k.live

/-- A process forest in which nothing is banned. -/
structure Boot (k : Kernel τ W) : Prop where
  forest : k.Forest
  flags_eq : ∀ t ∈ k.live, (k.task t).bannedSignals = 0

end OsCoursework.Ban
