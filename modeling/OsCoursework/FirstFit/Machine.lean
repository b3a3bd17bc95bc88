import OsCoursework.Allocator.FreeList
import OsCoursework.Allocator.World

/-!
# The first-fit allocator as a state machine

This module transcribes `stages/malloc_2.cpp`, the stage before the buddy
allocator.  Its header is the one of `malloc_3.cpp`, so the header fields, the
`size_t` arithmetic and the calls of a client are those of that model.  All
blocks stay in one list for ever; `sbrk` is the only call into the operating
system.
-/

namespace OsCoursework.FirstFit

open OsCoursework.Bytes
open OsCoursework.Allocator (getSize isFree getNext getPrev setSize setIsFree
  setNext setPrev add64 mul64 sizeofMetaData maxAllocationSize loopBound
  addressLimit addLive moveLive Call)

/-! ## `MemoryTracker` and the operating system -/

/-- The allocator's global state.  `regions` are the regions that `sbrk` has
returned so far, in order, each with its length; they belong to the operating
system. -/
structure State where
  mem : Mem
  head : ℕ
  freeBlocks : UInt64
  freeBytes : UInt64
  totalBlocks : UInt64
  totalBytes : UInt64
  metaDataBytes : UInt64
  regions : List (ℕ × ℕ)

/-- Where `sbrk` puts a region of a given length during one call; `none` is
`(void*)-1`. -/
structure Env where
  sbrk : ℕ → Option ℕ

/-- `while (curr->next != NULL) curr = curr->next;` -/
def lastBlock (m : Mem) : ℕ → ℕ → Option ℕ
  | 0, _ => none
  | fuel + 1, curr =>
      if getNext m curr ≠ 0 then lastBlock m fuel (getNext m curr)
      else some curr

/-- `MemoryTracker::addNewBlock` -/
def addNewBlock (s : State) (block : ℕ) : Option State :=
  if s.head = 0 then some { s with head := block }
  else do
    let curr ← lastBlock s.mem loopBound s.head
    let m := setNext s.mem curr block
    let m := setPrev m block curr
    let m := setNext m block 0
    some { s with mem := m }

/-! ## The interface -/

/-- The search loop of `smalloc`: the first free block that is large enough, or
`NULL`. -/
def findFree (m : Mem) (size : ℕ) : ℕ → ℕ → Option ℕ
  | 0, _ => none
  | fuel + 1, curr =>
      if curr = 0 then some 0
      else if isFree m curr ∧ size ≤ getSize m curr then some curr
      else findFree m size fuel (getNext m curr)

/-- `smalloc` -/
def smalloc (env : Env) (s : State) (size : ℕ) : Option (State × ℕ) :=
  if size = 0 ∨ maxAllocationSize < size then some (s, 0)
  else do
    let curr ← findFree s.mem size loopBound s.head
    if curr ≠ 0 then
      let m := setIsFree s.mem curr false
      some ({ s with
        mem := m
        freeBlocks := s.freeBlocks - 1
        freeBytes := s.freeBytes - UInt64.ofNat (getSize m curr) },
        curr + sizeofMetaData)
    else
      match env.sbrk (add64 size sizeofMetaData) with
      | none => some (s, 0)
      | some mem => do
          let m := setSize s.mem mem size
          let m := setIsFree m mem false
          let m := setPrev m mem 0
          let m := setNext m mem 0
          let s ← addNewBlock { s with
            mem := m
            regions := s.regions ++ [(mem, add64 size sizeofMetaData)] } mem
          some ({ s with
            totalBlocks := s.totalBlocks + 1
            totalBytes := s.totalBytes + UInt64.ofNat size
            metaDataBytes := s.metaDataBytes + UInt64.ofNat sizeofMetaData },
            mem + sizeofMetaData)

/-- `scalloc` -/
def scalloc (env : Env) (s : State) (num size : ℕ) : Option (State × ℕ) := do
  let total := mul64 num size
  let (s, block) ← smalloc env s total
  if block = 0 then some (s, 0)
  else some ({ s with mem := fill s.mem block 0 total }, block)

/-- `sfree` -/
def sfree (s : State) (p : ℕ) : State :=
  if p = 0 then s
  else
    let block := p - sizeofMetaData
    if isFree s.mem block then s
    else
      let m := setIsFree s.mem block true
      { s with
        mem := m
        freeBlocks := s.freeBlocks + 1
        freeBytes := s.freeBytes + UInt64.ofNat (getSize m block) }

/-- `srealloc` -/
def srealloc (env : Env) (s : State) (oldp size : ℕ) : Option (State × ℕ) :=
  if size = 0 ∨ maxAllocationSize < size then some (s, 0)
  else if oldp = 0 then smalloc env s size
  else
    let oldBlock := oldp - sizeofMetaData
    if size ≤ getSize s.mem oldBlock then some (s, oldp)
    else do
      let (s, newBlock) ← smalloc env s size
      if newBlock = 0 then some (s, 0)
      else
        let m := copy s.mem newBlock oldp (getSize s.mem oldBlock)
        some (sfree { s with mem := m } oldp, newBlock)

/-! ## The statistics -/

def numFreeBlocks (s : State) : UInt64 := s.freeBlocks
def numFreeBytes (s : State) : UInt64 := s.freeBytes
def numAllocatedBlocks (s : State) : UInt64 := s.totalBlocks
def numAllocatedBytes (s : State) : UInt64 := s.totalBytes
def numMetaDataBytes (s : State) : UInt64 := s.metaDataBytes

/-! ## Runs of a well-behaved client -/

/-- An allocator state with the client's live pointers, and the pointers it has
freed that were not handed out again. -/
structure World where
  st : State
  live : Finset ℕ
  freed : Finset ℕ

/-- A well-behaved client passes `NULL` or live pointers and writes inside live
payloads; it may also free a pointer again that it has freed before. -/
def Allowed (w : World) : Call → Prop
  | .smalloc _ => True
  | .scalloc _ _ => True
  | .sfree p => p = 0 ∨ p ∈ w.live ∨ p ∈ w.freed
  | .srealloc oldp _ => oldp = 0 ∨ oldp ∈ w.live
  | .write a _ => ∃ p ∈ w.live, p ≤ a ∧
      a < p + getSize w.st.mem (p - sizeofMetaData)

instance (w : World) : (call : Call) → Decidable (Allowed w call)
  | .smalloc _ => inferInstanceAs (Decidable True)
  | .scalloc _ _ => inferInstanceAs (Decidable True)
  | .sfree p =>
      inferInstanceAs (Decidable (p = 0 ∨ p ∈ w.live ∨ p ∈ w.freed))
  | .srealloc oldp _ => inferInstanceAs (Decidable (oldp = 0 ∨ oldp ∈ w.live))
  | .write a _ => inferInstanceAs (Decidable (∃ p ∈ w.live, p ≤ a ∧
      a < p + getSize w.st.mem (p - sizeofMetaData)))

/-- Run one call: the world it leaves and the pointer it returns. -/
def exec (env : Env) (w : World) : Call → Option (World × ℕ)
  | .smalloc size =>
      (smalloc env w.st size).map fun (s, p) =>
        (⟨s, addLive w.live p, w.freed.erase p⟩, p)
  | .scalloc num size =>
      (scalloc env w.st num size).map fun (s, p) =>
        (⟨s, addLive w.live p, w.freed.erase p⟩, p)
  | .sfree p =>
      some (⟨sfree w.st p, w.live.erase p, addLive w.freed p⟩, 0)
  | .srealloc oldp size =>
      (srealloc env w.st oldp size).map fun (s, p) =>
        (⟨s, moveLive w.live oldp p, w.freed.erase p⟩, p)
  | .write a v =>
      some ({ w with st := { w.st with mem := fill w.st.mem a v 1 } }, 0)

/-- `sbrk` returns increasing regions that do not overlap. -/
def Env.Valid (env : Env) (s : State) : Prop :=
  ∀ len a, env.sbrk len = some a → 0 < a ∧
    (∀ r ∈ s.regions, r.1 + r.2 ≤ a) ∧ a + len ≤ addressLimit

/-- The program before its first call; memory holds anything. -/
structure IsStart (w : World) : Prop where
  head : w.st.head = 0
  freeBlocks : w.st.freeBlocks = 0
  freeBytes : w.st.freeBytes = 0
  totalBlocks : w.st.totalBlocks = 0
  totalBytes : w.st.totalBytes = 0
  metaDataBytes : w.st.metaDataBytes = 0
  regions : w.st.regions = []
  live : w.live = ∅
  freed : w.freed = ∅

/-- One step of a run; `sbrk` may fail in any of them. -/
def Step (w w' : World) : Prop :=
  ∃ env call p, env.Valid w.st ∧ Allowed w call ∧
    exec env w call = some (w', p)

/-- The worlds some run leads to. -/
def Reachable (w : World) : Prop :=
  ∃ w₀, IsStart w₀ ∧ Relation.ReflTransGen Step w₀ w

end OsCoursework.FirstFit
