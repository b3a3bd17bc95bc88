import Mathlib.Logic.Relation
import OsCoursework.Allocator.InitHeap

/-!
# Runs of a well-behaved client

A world is an allocator state together with the pointers the client may use: the
ones it was given and has not freed or moved since.  A step of a run is a call
of the interface with `NULL` or a live pointer, or a store into a live payload.
The answers of `sbrk`, `mmap` and `munmap` are arbitrary in every step, except
that regions they hand out are fresh.
-/

namespace OsCoursework.Allocator

open OsCoursework.Bytes

/-! ## Worlds and calls -/

/-- The bytes of the block headed at `a`: its header and its payload. -/
def blockBytes (m : Mem) (a : ℕ) : Set ℕ :=
  range a (getSize m a + sizeofMetaData)

/-- The payload a pointer leads to. -/
def payloadBytes (m : Mem) (p : ℕ) : Set ℕ :=
  range p (getSize m (p - sizeofMetaData))

/-- An allocator state and the client's live pointers. -/
structure World where
  st : State
  live : Finset ℕ

/-- What a client can do. -/
inductive Call where
  | smalloc (size : ℕ)
  | scalloc (num size : ℕ)
  | sfree (p : ℕ)
  | srealloc (oldp size : ℕ)
  | write (a : ℕ) (v : UInt8)

/-- A well-behaved client passes `NULL` or live pointers and writes inside live
payloads. -/
def Call.Allowed (w : World) : Call → Prop
  | .smalloc _ => True
  | .scalloc _ _ => True
  | .sfree p => p = 0 ∨ p ∈ w.live
  | .srealloc oldp _ => oldp = 0 ∨ oldp ∈ w.live
  | .write a _ => ∃ p ∈ w.live, p ≤ a ∧
      a < p + getSize w.st.mem (p - sizeofMetaData)

instance (w : World) : (call : Call) → Decidable (call.Allowed w)
  | .smalloc _ => inferInstanceAs (Decidable True)
  | .scalloc _ _ => inferInstanceAs (Decidable True)
  | .sfree p => inferInstanceAs (Decidable (p = 0 ∨ p ∈ w.live))
  | .srealloc oldp _ => inferInstanceAs (Decidable (oldp = 0 ∨ oldp ∈ w.live))
  | .write a _ => inferInstanceAs (Decidable (∃ p ∈ w.live, p ≤ a ∧
      a < p + getSize w.st.mem (p - sizeofMetaData)))

/-- The live pointers after a call that returned `p`. -/
def addLive (live : Finset ℕ) (p : ℕ) : Finset ℕ :=
  if p = 0 then live else insert p live

/-- The live pointers after `srealloc(oldp, _)` returned `p`. -/
def moveLive (live : Finset ℕ) (oldp p : ℕ) : Finset ℕ :=
  if p = 0 then live else insert p (live.erase oldp)

/-- The pointer a call hands to the allocator, `NULL` for the others. -/
def Call.handed : Call → ℕ
  | .smalloc _ => 0
  | .scalloc _ _ => 0
  | .sfree p => p
  | .srealloc oldp _ => oldp
  | .write _ _ => 0

/-- Whether a call is one of the interface, not a store of the client. -/
def Call.isApi : Call → Bool
  | .write _ _ => false
  | _ => true

/-- Run one call: the world it leaves and the pointer it returns. -/
def exec (env : Env) (w : World) : Call → Option (World × ℕ)
  | .smalloc size =>
      (smalloc env w.st size).map fun (s, p) => (⟨s, addLive w.live p⟩, p)
  | .scalloc num size =>
      (scalloc env w.st num size).map fun (s, p) => (⟨s, addLive w.live p⟩, p)
  | .sfree p =>
      (sfree env w.st p).map fun s => (⟨s, w.live.erase p⟩, 0)
  | .srealloc oldp size =>
      (srealloc env w.st oldp size).map fun (s, p) =>
        (⟨s, moveLive w.live oldp p⟩, p)
  | .write a v =>
      some ({ w with st := { w.st with mem := fill w.st.mem a v 1 } }, 0)

/-! ## The operating system -/

/-- A region of `len` bytes at `a` as `mmap` may return it: page aligned, and
apart from the heap and from every existing mapping. -/
structure Fresh (s : State) (a len : ℕ) : Prop where
  pos : 0 < a
  dvd : 4096 ∣ a
  le : a + len ≤ addressLimit
  off_maps : ∀ c ∈ s.mapped, Disjoint (range a len) (blockBytes s.mem c)
  off_heap : s.initialized = true →
    Disjoint (range a len) (heapBytes s.heapBaseAligned)

/-- The operating system hands out fresh memory only. -/
structure Env.Valid (env : Env) (s : State) : Prop where
  sbrk_le : s.initialized = false → env.sbrk = true →
    alignedBase s.brk + heapAlignmentSize ≤ addressLimit
  sbrk_off_maps : s.initialized = false → env.sbrk = true →
    ∀ c ∈ s.mapped, Disjoint (blockBytes s.mem c) (heapBytes (alignedBase s.brk))
  mmap_fresh : ∀ len a, env.mmap len = some a →
    Fresh (ensureHeap env s) a len

/-! ## Runs -/

/-- The program before its first call; memory holds anything. -/
structure IsStart (w : World) : Prop where
  initialized : w.st.initialized = false
  heads : ∀ k ≤ maxBlockOrder, w.st.freeBlocksList k = 0
  allocatedBlocks : w.st.allocatedBlocks = 0
  allocatedBytes : w.st.allocatedBytes = 0
  metadataBytes : w.st.metadataBytes = 0
  mapped : w.st.mapped = ∅
  brk_pos : 0 < w.st.brk
  live : w.live = ∅

/-- One step of a run whose environments all satisfy `E`. -/
def StepWith (E : Env → Prop) (w w' : World) : Prop :=
  ∃ env call p, E env ∧ env.Valid w.st ∧ call.Allowed w ∧
    exec env w call = some (w', p)

/-- One step of a run. -/
def Step : World → World → Prop :=
  StepWith fun _ => True

/-- The worlds some run leads to. -/
def Reachable (w : World) : Prop :=
  ∃ w₀, IsStart w₀ ∧ Relation.ReflTransGen Step w₀ w

end OsCoursework.Allocator
