import Mathlib.Data.Finset.Basic
import Mathlib.Data.Nat.Bitwise
import OsCoursework.Support.Bytes

/-!
# The buddy allocator as a state machine

This module transcribes `malloc_3.cpp`.  Memory is byte addressed and every
block header lives in it: `size` at offset 0, `is_free` at offset 8, `next` at
offset 16 and `prev` at offset 24, 32 bytes in all.  Addresses are natural
numbers and `NULL` is 0; `size_t` arithmetic wraps at `2 ^ 64`.

The operating system is a parameter: an `Env` says how `sbrk`, `mmap` and
`munmap` answer during one call.  The result `none` stands for undefined
behaviour (an access through `NULL`, an index outside the array of free lists)
and for loops that do not end.
-/

namespace OsCoursework.Allocator

open OsCoursework.Bytes

/-! ## Constants and `size_t` arithmetic -/

def maxAllocationSize : ℕ := 100000000
def maxBlockOrder : ℕ := 10
def blockSizeBytes : ℕ := 128 * 1024
def numInitialBlocks : ℕ := 32
def heapAlignmentSize : ℕ := numInitialBlocks * blockSizeBytes
def mmapMinLimit : ℕ := 128 * 1024

/-- `sizeof(MetaData)`. -/
def sizeofMetaData : ℕ := 32

/-- `BLOCK_SIZE_BY_ORDER(order)`. -/
def blockSizeByOrder (order : ℕ) : ℕ := 128 * 2 ^ order

def add64 (a b : ℕ) : ℕ := (a + b) % 2 ^ 64
def sub64 (a b : ℕ) : ℕ := (a + 2 ^ 64 - b) % 2 ^ 64
def mul64 (a b : ℕ) : ℕ := a * b % 2 ^ 64

/-- Bound on the iterations of a loop: a pointer chain that visits more nodes
than there are addresses, or a counter that takes more steps, never ends. -/
def loopBound : ℕ := 2 ^ 64

/-! ## Headers -/

def getSize (m : Mem) (block : ℕ) : ℕ := readLE m block 8
def isFree (m : Mem) (block : ℕ) : Bool := m (block + 8) != 0
def getNext (m : Mem) (block : ℕ) : ℕ := readLE m (block + 16) 8
def getPrev (m : Mem) (block : ℕ) : ℕ := readLE m (block + 24) 8

def setSize (m : Mem) (block v : ℕ) : Mem := writeLE m block 8 v
def setIsFree (m : Mem) (block : ℕ) (v : Bool) : Mem :=
  writeLE m (block + 8) 1 v.toNat
def setNext (m : Mem) (block v : ℕ) : Mem := writeLE m (block + 16) 8 v
def setPrev (m : Mem) (block v : ℕ) : Mem := writeLE m (block + 24) 8 v

def initializeMeta (m : Mem) (block blockSize : ℕ) (freeStatus : Bool)
    (nextBlock prevBlock : ℕ) : Mem :=
  if block = 0 then m
  else
    let m := setSize m block blockSize
    let m := setIsFree m block freeStatus
    let m := setNext m block nextBlock
    setPrev m block prevBlock

def clearLinks (m : Mem) (block : ℕ) : Mem :=
  setPrev (setNext m block 0) block 0

/-! ## `BlockOrderList` -/

/-- `while (iter && block > iter) { prev = iter; iter = iter->next; }` -/
def seek (m : Mem) (block : ℕ) : ℕ → ℕ → ℕ → Option (ℕ × ℕ)
  | 0, _, _ => none
  | fuel + 1, prev, iter =>
      if iter ≠ 0 ∧ iter < block then seek m block fuel iter (getNext m iter)
      else some (prev, iter)

/-- `BlockOrderList::insertBlock`; the second component is the new head. -/
def insertBlock (m : Mem) (head block : ℕ) : Option (Mem × ℕ) :=
  if block = 0 then some (m, head)
  else if head = 0 then some (clearLinks m block, block)
  else
    match seek m block loopBound 0 head with
    | none => none
    | some (prev, iter) =>
        if prev = 0 then
          let m := setNext m block head
          let m := setPrev m head block
          let m := setPrev m block 0
          some (m, block)
        else
          let m := setNext m block iter
          let m := setPrev m block prev
          let m := setNext m prev block
          let m := if iter ≠ 0 then setPrev m iter block else m
          some (m, head)

/-- `BlockOrderList::removeFirst`: memory, new head and removed block. -/
def removeFirst (m : Mem) (head : ℕ) : Mem × ℕ × ℕ :=
  if head = 0 then (m, head, 0)
  else
    let block := head
    let head := getNext m head
    let m := if head ≠ 0 then setPrev m head 0 else m
    (clearLinks m block, head, block)

/-- `BlockOrderList::removeBlock`: memory, new head and removed block. -/
def removeBlock (m : Mem) (head block : ℕ) : Mem × ℕ × ℕ :=
  if block = 0 then (m, head, 0)
  else if block = head then removeFirst m head
  else
    let prev := getPrev m block
    let next := getNext m block
    let m := if prev ≠ 0 then setNext m prev next else m
    let m := if next ≠ 0 then setPrev m next prev else m
    (clearLinks m block, head, block)

/-! ## `MemoryTracker` and the operating system -/

/-- The allocator's global state and the part of the process it works on.
`freeBlocksList` holds the head of each free list; `heapBaseAligned` keeps the
local variable of that name of the successful `initHeap`; `brk` is the program
break and `mapped` the set of anonymous mappings that exist. -/
structure State where
  mem : Mem
  freeBlocksList : ℕ → ℕ
  allocatedBlocks : UInt64
  allocatedBytes : UInt64
  metadataBytes : UInt64
  initialized : Bool
  heapBaseAligned : ℕ
  brk : ℕ
  mapped : Finset ℕ

/-- How the operating system answers during one call: whether `sbrk` grows the
break, where `mmap` puts a mapping of a given length (`none` is `MAP_FAILED`),
and whether `munmap` succeeds. -/
structure Env where
  sbrk : Bool
  mmap : ℕ → Option ℕ
  munmap : Bool

namespace State

/-- The head of `freeBlocksList[order]`. -/
def headAt (s : State) (order : ℤ) : Option ℕ :=
  if 0 ≤ order ∧ order ≤ maxBlockOrder then some (s.freeBlocksList order.toNat)
  else none

/-- Replace memory and the head of `freeBlocksList[order]`. -/
def setList (s : State) (order : ℤ) (mem : Mem) (head : ℕ) : State :=
  { s with
    mem := mem
    freeBlocksList := Function.update s.freeBlocksList order.toNat head }

/-- `freeBlocksList[order].insertBlock(block)` -/
def insertAt (s : State) (order : ℤ) (block : ℕ) : Option State := do
  let head ← s.headAt order
  let (mem, head) ← insertBlock s.mem head block
  some (s.setList order mem head)

/-- `freeBlocksList[order].removeFirst()` -/
def removeFirstAt (s : State) (order : ℤ) : Option (State × ℕ) := do
  let head ← s.headAt order
  let (mem, head, block) := removeFirst s.mem head
  some (s.setList order mem head, block)

/-- `freeBlocksList[order].removeBlock(block)` -/
def removeBlockAt (s : State) (order : ℤ) (block : ℕ) : Option State := do
  let head ← s.headAt order
  let (mem, head, _) := removeBlock s.mem head block
  some (s.setList order mem head)

end State

/-- An access through `block`, undefined when it is `NULL`. -/
def deref (block : ℕ) : Option Unit :=
  if block = 0 then none else some ()

/-- The `for` loop of `initHeap`; `n` blocks remain and the next has index
`i`. -/
def initLoop (heapBaseAligned blockUsableSize : ℕ) : ℕ → ℕ → ℕ → Mem → Mem
  | 0, _, _, m => m
  | n + 1, i, prev, m =>
      let curr := heapBaseAligned + i * blockSizeBytes
      let m := initializeMeta m curr blockUsableSize true 0 prev
      let m := setNext m prev curr
      initLoop heapBaseAligned blockUsableSize n (i + 1) curr m

/-- The padding `initHeap` computes from the current break. -/
def alignmentPadding (currentAddr : ℕ) : ℕ :=
  let misalignment := currentAddr % heapAlignmentSize
  if misalignment = 0 then 0 else heapAlignmentSize - misalignment

/-- `MemoryTracker::initHeap` -/
def initHeap (env : Env) (s : State) : State :=
  let totalHeapSize :=
    alignmentPadding s.brk + numInitialBlocks * blockSizeBytes
  if env.sbrk = false then s
  else
    let heapBaseAligned := s.brk + alignmentPadding s.brk
    let blockUsableSize := blockSizeBytes - sizeofMetaData
    let baseBlock := heapBaseAligned
    let m := initializeMeta s.mem baseBlock blockUsableSize true 0 0
    let m := initLoop heapBaseAligned blockUsableSize
      (numInitialBlocks - 1) 1 baseBlock m
    { s with
      mem := m
      freeBlocksList :=
        Function.update s.freeBlocksList maxBlockOrder baseBlock
      allocatedBlocks := UInt64.ofNat numInitialBlocks
      allocatedBytes :=
        UInt64.ofNat (numInitialBlocks * (blockSizeBytes - sizeofMetaData))
      metadataBytes := UInt64.ofNat (numInitialBlocks * sizeofMetaData)
      initialized := true
      heapBaseAligned := heapBaseAligned
      brk := s.brk + totalHeapSize }

/-- The inner loop of `freeBytesCount` and `freeBlocksCount`: walk a list and
add up what each block counts for. -/
def countLoop (m : Mem) (weight : ℕ → ℕ) :
    ℕ → ℕ → UInt64 → Option UInt64
  | 0, _, _ => none
  | fuel + 1, curr, total =>
      if curr = 0 then some total
      else countLoop m weight fuel (getNext m curr)
        (total + UInt64.ofNat (weight curr))

def freeBytesLoop (m : Mem) : ℕ → ℕ → UInt64 → Option UInt64 :=
  countLoop m fun curr => getSize m curr

def freeBlocksLoop (m : Mem) : ℕ → ℕ → UInt64 → Option UInt64 :=
  countLoop m fun _ => 1

/-- `MemoryTracker::freeBytesCount` -/
def freeBytesCount (s : State) : Option UInt64 :=
  (List.range (maxBlockOrder + 1)).foldlM
    (fun bytes i => freeBytesLoop s.mem loopBound (s.freeBlocksList i) bytes) 0

/-- `MemoryTracker::freeBlocksCount` -/
def freeBlocksCount (s : State) : Option UInt64 :=
  (List.range (maxBlockOrder + 1)).foldlM
    (fun count i => freeBlocksLoop s.mem loopBound (s.freeBlocksList i) count) 0

/-! ## Buddies and orders -/

def findBuddyWithSize (block size : ℕ) : ℕ :=
  block ^^^ add64 size sizeofMetaData

def findBuddy (m : Mem) (block : ℕ) : ℕ :=
  block ^^^ add64 (getSize m block) sizeofMetaData

/-- The loop shared by `getRequiredOrder` and `getBlockOrder`: the least order
whose blocks hold `fullSize` bytes, or `-1`. -/
def orderOf (fullSize : ℕ) : ℤ :=
  match (List.range (maxBlockOrder + 1)).find?
      (fun order => fullSize ≤ blockSizeByOrder order) with
  | some order => order
  | none => -1

def getRequiredOrder (requestedSize : ℕ) : ℤ :=
  orderOf (add64 requestedSize sizeofMetaData)

def getBlockOrder (m : Mem) (block : ℕ) : ℤ :=
  orderOf (add64 (getSize m block) sizeofMetaData)

/-! ## Merging and splitting -/

/-- `mergeBuddyBlocks`: memory and the merged block, or `NULL`. -/
def mergeBuddyBlocks (m : Mem) (blockA blockB : ℕ) : Mem × ℕ :=
  if blockA = 0 ∨ blockB = 0 then (m, 0)
  else if getSize m blockA ≠ getSize m blockB then (m, 0)
  else
    let order := getBlockOrder m blockA
    if isFree m blockA ∧ isFree m blockB ∧ order ≠ maxBlockOrder then
      let merged := if blockA < blockB then blockA else blockB
      (setSize m merged (add64 (mul64 (getSize m blockA) 2) sizeofMetaData),
        merged)
    else (m, 0)

/-- One merge inside the loop of `attemptFreeBuddyMerge`: the state, the merged
block and its order. -/
def mergeStep (s : State) (current buddy : ℕ) (currentOrder : ℤ) :
    Option (State × ℕ × ℤ) := do
  let s ← s.removeBlockAt currentOrder current
  let s ← s.removeBlockAt currentOrder buddy
  let (m, merged) := mergeBuddyBlocks s.mem current buddy
  let s := { s with
    mem := m
    allocatedBlocks := s.allocatedBlocks - 1
    allocatedBytes := s.allocatedBytes + UInt64.ofNat sizeofMetaData
    metadataBytes := s.metadataBytes - UInt64.ofNat sizeofMetaData }
  deref merged
  let currentOrder := getBlockOrder s.mem merged
  let s ← s.insertAt currentOrder merged
  some (s, merged, currentOrder)

/-- The `while (true)` loop of `attemptFreeBuddyMerge`. -/
def mergeLoop (targetOrder : ℤ) :
    ℕ → State → ℕ → ℕ → ℤ → ℕ → Option (State × ℕ)
  | 0, _, _, _, _, _ => none
  | fuel + 1, s, current, buddy, currentOrder, finalBlock =>
      if isFree s.mem buddy = false ∨
          getSize s.mem current ≠ getSize s.mem buddy then
        some (s, finalBlock)
      else if currentOrder ≠ targetOrder then do
        let (s, merged, currentOrder) ← mergeStep s current buddy currentOrder
        if currentOrder ≠ targetOrder then
          mergeLoop targetOrder fuel s merged (findBuddy s.mem merged)
            currentOrder merged
        else
          mergeLoop targetOrder fuel s current buddy currentOrder merged
      else
        some (s, finalBlock)

/-- `attemptFreeBuddyMerge`: the state and the final block, or `NULL`. -/
def attemptFreeBuddyMerge (s : State) (block : ℕ) (targetOrder : ℤ) :
    Option (State × ℕ) :=
  if block = 0 then some (s, 0)
  else
    let current := block
    let currentOrder := getBlockOrder s.mem current
    if currentOrder = targetOrder then some (s, 0)
    else do
      let buddy := findBuddy s.mem current
      deref buddy
      if getSize s.mem current = getSize s.mem buddy then
        mergeLoop targetOrder loopBound s current buddy currentOrder current
      else
        some (s, current)

/-- `splitBlockBuddy`, first loop: the least order from `currentOrder` up with
a free block. -/
def findOrder (s : State) : ℕ → ℤ → Option ℤ
  | 0, _ => none
  | fuel + 1, currentOrder =>
      if currentOrder ≤ maxBlockOrder then do
        let head ← s.headAt currentOrder
        if head = 0 then findOrder s fuel (currentOrder + 1)
        else some currentOrder
      else some currentOrder

/-- `splitBlockBuddy`, body of the second loop: split the first block of
`freeBlocksList[currentOrder]`. -/
def splitStep (s : State) (currentOrder : ℤ) : Option State := do
  let (s, blockToSplit) ← s.removeFirstAt currentOrder
  deref blockToSplit
  let totalSplitSize := add64 (getSize s.mem blockToSplit) sizeofMetaData / 2
  let leftHalf := blockToSplit
  let rightHalf := blockToSplit + totalSplitSize
  let m := setSize s.mem leftHalf (sub64 totalSplitSize sizeofMetaData)
  let m := setIsFree m leftHalf true
  let m := clearLinks m leftHalf
  let m := setSize m rightHalf (sub64 totalSplitSize sizeofMetaData)
  let m := setIsFree m rightHalf true
  let m := clearLinks m rightHalf
  let s := { s with mem := m }
  let currentOrder := currentOrder - 1
  let s ← s.insertAt currentOrder leftHalf
  let s ← s.insertAt currentOrder rightHalf
  some { s with
    allocatedBlocks := s.allocatedBlocks + 1
    allocatedBytes := s.allocatedBytes - UInt64.ofNat sizeofMetaData
    metadataBytes := s.metadataBytes + UInt64.ofNat sizeofMetaData }

/-- `splitBlockBuddy`, second loop. -/
def splitLoop (requestedSize : ℕ) : ℕ → State → ℤ → Option State
  | 0, _, _ => none
  | fuel + 1, s, currentOrder =>
      if 0 < currentOrder then do
        let head ← s.headAt currentOrder
        deref head
        if requestedSize ≤
            sub64 (add64 (getSize s.mem head) sizeofMetaData / 2)
              sizeofMetaData then do
          let s ← splitStep s currentOrder
          splitLoop requestedSize fuel s (currentOrder - 1)
        else some s
      else some s

/-- `splitBlockBuddy`: the state and the payload pointer, or `NULL`. -/
def splitBlockBuddy (s : State) (requestedSize : ℕ) : Option (State × ℕ) := do
  let targetOrder := getRequiredOrder requestedSize
  let currentOrder ← findOrder s loopBound targetOrder
  if (maxBlockOrder : ℤ) < currentOrder then some (s, 0)
  else do
    let s ← splitLoop requestedSize loopBound s currentOrder
    let (s, finalBlock) ← s.removeFirstAt targetOrder
    deref finalBlock
    let s := { s with mem := setIsFree s.mem finalBlock false }
    some (s, finalBlock + sizeofMetaData)

/-! ## The interface -/

/-- `smalloc`'s prologue: the first call sets up the heap. -/
def ensureHeap (env : Env) (s : State) : State :=
  if s.initialized then s else initHeap env s

/-- `smalloc` -/
def smalloc (env : Env) (s : State) (size : ℕ) : Option (State × ℕ) :=
  let s := ensureHeap env s
  if size = 0 ∨ maxAllocationSize < size then some (s, 0)
  else
    let totalSize := add64 size sizeofMetaData
    if mmapMinLimit < totalSize then
      match env.mmap totalSize with
      | none => some (s, 0)
      | some block =>
          let m := fill s.mem block 0 totalSize
          let m := setSize m block size
          let m := setIsFree m block false
          let m := clearLinks m block
          some ({ s with
            mem := m
            mapped := insert block s.mapped
            allocatedBlocks := s.allocatedBlocks + 1
            allocatedBytes := s.allocatedBytes + UInt64.ofNat size
            metadataBytes := s.metadataBytes + UInt64.ofNat sizeofMetaData },
            block + sizeofMetaData)
    else splitBlockBuddy s size

/-- `scalloc` -/
def scalloc (env : Env) (s : State) (num size : ℕ) : Option (State × ℕ) :=
  let totalSize := mul64 num size
  if totalSize = 0 ∨ maxAllocationSize < totalSize then some (s, 0)
  else do
    let (s, allocatedPtr) ← smalloc env s totalSize
    if allocatedPtr = 0 then some (s, 0)
    else some ({ s with mem := fill s.mem allocatedPtr 0 totalSize },
      allocatedPtr)

/-- `sfree` -/
def sfree (env : Env) (s : State) (p : ℕ) : Option State :=
  if p = 0 then some s
  else
    let block := p - sizeofMetaData
    if isFree s.mem block then some s
    else
      let totalSize := add64 (getSize s.mem block) sizeofMetaData
      if mmapMinLimit < totalSize then
        let payloadSize := getSize s.mem block
        if env.munmap then
          some { s with
            mapped := s.mapped.erase block
            allocatedBlocks := s.allocatedBlocks - 1
            allocatedBytes := s.allocatedBytes - UInt64.ofNat payloadSize
            metadataBytes := s.metadataBytes - UInt64.ofNat sizeofMetaData }
        else some s
      else do
        let s := { s with mem := setIsFree s.mem block true }
        let blockOrder := getBlockOrder s.mem block
        let s ← s.insertAt blockOrder block
        let (s, _) ← attemptFreeBuddyMerge s block maxBlockOrder
        some s

/-- The `while (mergedSize < size)` loop of `srealloc`; returns `canMerge` and
the final `mergedSize`. -/
def growLoop (m : Mem) (size : ℕ) : ℕ → ℕ → ℕ → ℕ → Option (Bool × ℕ)
  | 0, _, _, _ => none
  | fuel + 1, mergeCandidate, buddy, mergedSize =>
      if mergedSize < size then
        if mergeCandidate = 0 ∨ buddy = 0 ∨
            getSize m mergeCandidate ≠ getSize m buddy then
          some (false, mergedSize)
        else
          let order := getBlockOrder m mergeCandidate
          if isFree m mergeCandidate = false ∨ isFree m buddy = false ∨
              order = maxBlockOrder then
            some (false, mergedSize)
          else
            let mergeCandidate :=
              if buddy < mergeCandidate then buddy else mergeCandidate
            let mergedSize := add64 (mul64 mergedSize 2) sizeofMetaData
            let buddy :=
              findBuddyWithSize mergeCandidate
                (sub64 mergedSize sizeofMetaData)
            growLoop m size fuel mergeCandidate buddy mergedSize
      else some (true, mergedSize)

/-- The branch of `srealloc` that grows the block in place. -/
def growInPlace (s : State) (oldBlock mergedSize : ℕ) :
    Option (State × ℕ) := do
  let s := { s with mem := setIsFree s.mem oldBlock true }
  let s ← s.insertAt (getBlockOrder s.mem oldBlock) oldBlock
  let oldPayload := oldBlock + sizeofMetaData
  let (s, mergedBlock) ← attemptFreeBuddyMerge s oldBlock
    (getRequiredOrder (sub64 mergedSize sizeofMetaData))
  deref mergedBlock
  let s := { s with mem := setIsFree s.mem mergedBlock false }
  let s ← s.removeBlockAt (getBlockOrder s.mem mergedBlock) mergedBlock
  let newPayload := mergedBlock + sizeofMetaData
  let s := { s with
    mem := copy s.mem newPayload oldPayload (getSize s.mem oldBlock) }
  some (s, newPayload)

/-- The branches of `srealloc` that allocate elsewhere, copy and free. -/
def moveAlloc (env : Env) (s : State) (oldp size : ℕ) :
    Option (State × ℕ) := do
  let oldBlock := oldp - sizeofMetaData
  let (s, newPtr) ← smalloc env s size
  if newPtr = 0 then some (s, 0)
  else do
    let s := { s with mem := copy s.mem newPtr oldp (getSize s.mem oldBlock) }
    let s ← sfree env s oldp
    some (s, newPtr)

/-- `srealloc` -/
def srealloc (env : Env) (s : State) (oldp size : ℕ) : Option (State × ℕ) :=
  if size = 0 ∨ maxAllocationSize < size then some (s, 0)
  else if oldp = 0 then smalloc env s size
  else
    let oldBlock := oldp - sizeofMetaData
    if size ≤ getSize s.mem oldBlock then some (s, oldp)
    else if mmapMinLimit < add64 size sizeofMetaData then
      moveAlloc env s oldp size
    else do
      let originalSize := getSize s.mem oldBlock
      let s := { s with mem := setIsFree s.mem oldBlock true }
      let mergeCandidate := oldBlock
      let buddy := findBuddy s.mem mergeCandidate
      let (canMerge, mergedSize) ← growLoop s.mem size loopBound mergeCandidate
        buddy (getSize s.mem mergeCandidate)
      let m := setSize s.mem oldBlock originalSize
      let m := setIsFree m oldBlock false
      let s := { s with mem := m }
      if canMerge then growInPlace s oldBlock mergedSize
      else moveAlloc env s oldp size

/-! ## The statistics -/

def numFreeBlocks (s : State) : Option UInt64 := freeBlocksCount s
def numFreeBytes (s : State) : Option UInt64 := freeBytesCount s
def numAllocatedBlocks (s : State) : UInt64 := s.allocatedBlocks
def numAllocatedBytes (s : State) : UInt64 := s.allocatedBytes
def numMetaDataBytes (s : State) : UInt64 := s.metadataBytes
def sizeMetaData : ℕ := sizeofMetaData

end OsCoursework.Allocator
