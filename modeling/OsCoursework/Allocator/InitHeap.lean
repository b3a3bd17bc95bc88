import OsCoursework.Allocator.Representation

/-!
# Setting up the heap

A successful `initHeap` lays out 32 free blocks of the largest order, side by
side in one free list, on a base address aligned to the size of the heap.
-/

namespace OsCoursework.Allocator

open OsCoursework.Bytes
open OsCoursework.Dyadic
open OsCoursework.LinkedList

/-! ## The initial tiling -/

/-- The `i`-th block of order `maxBlockOrder` of the heap at `root`. -/
def initialBlock (root : Block) (i : ℕ) : Block :=
  ⟨maxBlockOrder, numInitialBlocks * root.index + i⟩

theorem addr_initialBlock {root : Block} (horder : root.order = 15) (i : ℕ) :
    addr (initialBlock root i) = addr root + i * blockSizeBytes := by
  simp only [addr, Block.first, initialBlock, horder, maxBlockOrder,
    numInitialBlocks, blockSizeBytes]
  ring

theorem maxBlockOrder_le_root {root : Block} (horder : root.order = 15) :
    maxBlockOrder ≤ root.order := by
  rw [horder]
  decide

theorem initialBlock_within {root : Block} (horder : root.order = 15) {i : ℕ}
    (hi : i < numInitialBlocks) : (initialBlock root i).Within root := by
  refine ⟨maxBlockOrder_le_root horder, ?_⟩
  simp only [initialBlock, horder, maxBlockOrder, numInitialBlocks] at hi ⊢
  omega

theorem initialBlock_contains {root : Block} (horder : root.order = 15) {x : ℕ}
    (hx : root.Contains x) :
    (initialBlock root (x / 2 ^ maxBlockOrder % numInitialBlocks)).Contains x := by
  rw [Block.Contains, horder] at hx
  simp only [Block.Contains, initialBlock, numInitialBlocks, maxBlockOrder]
  rw [← hx]
  omega

/-- The heap cut into its 32 largest blocks, none of them used. -/
def initialTiling (root : Block) (horder : root.order = 15) :
    Tiling root maxBlockOrder where
  tiles := (Finset.range numInitialBlocks).image (initialBlock root)
  used := ∅
  used_subset := Finset.empty_subset _
  le_root := maxBlockOrder_le_root horder
  order_le := by
    intro b hb
    obtain ⟨i, -, rfl⟩ := Finset.mem_image.mp hb
    exact Nat.le_refl _
  within_root := by
    intro b hb
    obtain ⟨i, hi, rfl⟩ := Finset.mem_image.mp hb
    exact initialBlock_within horder (Finset.mem_range.mp hi)
  exists_tile := by
    intro x hx
    have hlt : x / 2 ^ maxBlockOrder % numInitialBlocks < numInitialBlocks :=
      Nat.mod_lt _ (by decide)
    exact ⟨_, Finset.mem_image_of_mem _ (Finset.mem_range.mpr hlt),
      initialBlock_contains horder hx⟩
  tile_unique := by
    intro b hb c hc x hbx hcx
    obtain ⟨i, -, rfl⟩ := Finset.mem_image.mp hb
    obtain ⟨j, -, rfl⟩ := Finset.mem_image.mp hc
    exact Block.eq_of_order_of_contains rfl hbx hcx

section Initial

variable {root : Block} (horder : root.order = 15)

theorem mem_initialTiling_free {b : Block} :
    b ∈ (initialTiling root horder).free ↔
      ∃ i < numInitialBlocks, initialBlock root i = b := by
  simp [Tiling.free, initialTiling]

theorem initialTiling_coalesced : (initialTiling root horder).Coalesced := by
  intro b hb _ hlt
  obtain ⟨i, -, rfl⟩ := (mem_initialTiling_free horder).mp hb
  exact Nat.lt_irrefl _ hlt

theorem initialBlock_injective : Function.Injective (initialBlock root) := by
  intro i j h
  have hindex := congrArg Block.index h
  simp only [initialBlock] at hindex
  omega

theorem initialTiling_card :
    (initialTiling root horder).tiles.card = numInitialBlocks := by
  change ((Finset.range numInitialBlocks).image (initialBlock root)).card = _
  rw [Finset.card_image_of_injective _ initialBlock_injective,
    Finset.card_range]

theorem initialTiling_sum :
    ∑ b ∈ (initialTiling root horder).tiles, usable b.order =
      numInitialBlocks * (blockSizeBytes - sizeofMetaData) := by
  have hconst : ∀ b ∈ (initialTiling root horder).tiles,
      usable b.order = blockSizeBytes - sizeofMetaData := by
    intro b hb
    obtain ⟨i, -, rfl⟩ := Finset.mem_image.mp hb
    rfl
  rw [Finset.sum_congr rfl hconst, Finset.sum_const, initialTiling_card]
  rfl

/-- The free lists `initHeap` builds. -/
theorem freeAddrs_initialTiling (k : ℕ) :
    freeAddrs (initialTiling root horder) k =
      if k = maxBlockOrder then
        (Finset.range numInitialBlocks).image
          (fun i => addr root + i * blockSizeBytes)
      else ∅ := by
  ext a
  rw [mem_freeAddrs]
  simp only [mem_initialTiling_free]
  split
  · next hk =>
    simp only [Finset.mem_image, Finset.mem_range]
    constructor
    · rintro ⟨b, ⟨i, hi, rfl⟩, -, rfl⟩
      exact ⟨i, hi, (addr_initialBlock horder i).symm⟩
    · rintro ⟨i, hi, rfl⟩
      exact ⟨_, ⟨i, hi, rfl⟩, hk.symm, addr_initialBlock horder i⟩
  · next hk =>
    constructor
    · rintro ⟨b, ⟨i, -, rfl⟩, hb, -⟩
      exact absurd hb.symm hk
    · intro h
      simp at h

end Initial

/-! ## The loop -/

/-- The addresses of the first `n` blocks. -/
def firstBlocks (base n : ℕ) : List ℕ :=
  (List.range n).map fun i => base + i * blockSizeBytes

theorem firstBlocks_succ (base n : ℕ) :
    firstBlocks base (n + 1) =
      firstBlocks base n ++ [base + n * blockSizeBytes] := by
  rw [firstBlocks, List.range_succ, List.map_append]
  rfl

theorem mem_firstBlocks {base n a : ℕ} :
    a ∈ firstBlocks base n ↔ ∃ i < n, base + i * blockSizeBytes = a := by
  simp [firstBlocks]

theorem endOf_firstBlocks (x base n : ℕ) :
    endOf x (firstBlocks base (n + 1)) = base + n * blockSizeBytes := by
  simp only [firstBlocks_succ, endOf, ← List.cons_append,
    List.getLast_append_singleton]

/-- The headers of the first `n` blocks are in place. -/
structure LaidOut (m : Mem) (base n : ℕ) : Prop where
  list : FreeList m base (firstBlocks base n)
  size : ∀ i < n,
    getSize m (base + i * blockSizeBytes) = blockSizeBytes - sizeofMetaData
  free : ∀ i < n, isFree m (base + i * blockSizeBytes) = true

theorem slot_of_base {base i : ℕ} (hpos : 0 < base) (hdvd : 32 ∣ base)
    (htop : base + heapAlignmentSize ≤ addressLimit)
    (hi : i < numInitialBlocks) : Slot (base + i * blockSizeBytes) := by
  simp only [heapAlignmentSize, numInitialBlocks, blockSizeBytes] at *
  exact ⟨by omega, by omega, by omega⟩

/-- A header written by `initializeMeta`. -/
theorem initializeMeta_fields (m : Mem) {a c size : ℕ} (f : Bool)
    (next prev : ℕ) (ha0 : a ≠ 0) (ha : 32 ∣ a) (hc : 32 ∣ c) (hsize : size < addressLimit) :
    getSize (initializeMeta m a size f next prev) c =
        (if c = a then size else getSize m c) ∧
      isFree (initializeMeta m a size f next prev) c =
        (if c = a then f else isFree m c) := by
  simp [initializeMeta, ha0, getSize_setPrev, getSize_setNext,
    getSize_setIsFree, getSize_setSize, isFree_setPrev, isFree_setNext,
    isFree_setIsFree, isFree_setSize, ha, hc, hsize]

theorem agreeOff_initializeMeta (m : Mem) {a size next prev : ℕ} {f : Bool}
    {S : Set ℕ} (ha : a ∈ S) :
    AgreeOff (headerBytes S) m (initializeMeta m a size f next prev) := by
  rw [initializeMeta]
  split
  · exact AgreeOff.refl _ m
  · exact (((agreeOff_setSize m ha).trans (agreeOff_setIsFree _ ha f)).trans
      ((agreeOff_setNext _ ha).mono (linkBytes_subset_headerBytes S))).trans
      ((agreeOff_setPrev _ ha).mono (linkBytes_subset_headerBytes S))

/-- One iteration lays out one more block. -/
theorem LaidOut.step {m : Mem} {base n : ℕ} (h : LaidOut m base (n + 1))
    (hpos : 0 < base) (hdvd : 32 ∣ base)
    (htop : base + heapAlignmentSize ≤ addressLimit)
    (hn : n + 1 < numInitialBlocks) :
    LaidOut (setNext (initializeMeta m (base + (n + 1) * blockSizeBytes)
      (blockSizeBytes - sizeofMetaData) true 0 (base + n * blockSizeBytes))
      (base + n * blockSizeBytes) (base + (n + 1) * blockSizeBytes))
      base (n + 2) := by
  have hslot := slot_of_base hpos hdvd htop hn
  have hslot' := slot_of_base (i := n) hpos hdvd htop (by omega)
  have hnew : base + (n + 1) * blockSizeBytes ∉ firstBlocks base (n + 1) := by
    rw [mem_firstBlocks]
    rintro ⟨i, hi, heq⟩
    simp only [blockSizeBytes] at heq
    omega
  have hfields {i : ℕ} (hi : i < numInitialBlocks) :=
    initializeMeta_fields m true 0 (base + n * blockSizeBytes) hslot.ne_zero hslot.dvd
      (slot_of_base hpos hdvd htop hi).dvd
      (show blockSizeBytes - sizeofMetaData < addressLimit by
        rw [addressLimit]; decide)
  refine ⟨?_, ?_, ?_⟩
  · rw [firstBlocks_succ, initializeMeta, if_neg hslot.ne_zero]
    have hmeta : FreeList (setIsFree (setSize m
        (base + (n + 1) * blockSizeBytes) (blockSizeBytes - sizeofMetaData))
        (base + (n + 1) * blockSizeBytes) true) base
        (firstBlocks base (n + 1)) := by
      refine h.list.congr ?_ ?_
      · intro a ha
        have had := (h.list.slot a ha).dvd
        rw [getNext_setIsFree _ hslot.dvd had, getNext_setSize _ hslot.dvd had]
      · intro a ha
        have had := (h.list.slot a ha).dvd
        rw [getPrev_setIsFree _ hslot.dvd had, getPrev_setSize _ hslot.dvd had]
    have hend := endOf_firstBlocks 0 base n
    have hlink := hmeta.link_end hslot hnew
      (by
        intro a ha
        obtain ⟨i, hi, rfl⟩ := mem_firstBlocks.mp ha
        simp only [blockSizeBytes]
        omega)
      (by
        rw [hend]
        exact mem_firstBlocks.mpr ⟨n, by omega, rfl⟩)
    rw [hend] at hlink
    exact hlink
  · intro i hi
    rw [getSize_setNext _ hslot'.dvd
      (slot_of_base hpos hdvd htop (by omega)).dvd,
      (hfields (i := i) (by omega)).1]
    split
    · rfl
    · next hne =>
      have hi' : i ≠ n + 1 := fun heq => hne (by rw [heq])
      exact h.size i (by omega)
  · intro i hi
    rw [isFree_setNext _ hslot'.dvd
      (slot_of_base hpos hdvd htop (by omega)).dvd,
      (hfields (i := i) (by omega)).2]
    split
    · rfl
    · next hne =>
      have hi' : i ≠ n + 1 := fun heq => hne (by rw [heq])
      exact h.free i (by omega)

/-- The bytes of the heap at `base`. -/
def heapBytes (base : ℕ) : Set ℕ :=
  range base heapAlignmentSize

theorem range_subset_heapBytes {base i : ℕ} (hi : i < numInitialBlocks) :
    range (base + i * blockSizeBytes) sizeofMetaData ⊆ heapBytes base := by
  rintro x ⟨hx, hx'⟩
  simp only [heapBytes, mem_range, heapAlignmentSize, numInitialBlocks,
    blockSizeBytes, sizeofMetaData] at *
  omega

theorem initLoop_laidOut {m : Mem} {base n k : ℕ}
    (h : LaidOut m base (n + 1)) (hpos : 0 < base) (hdvd : 32 ∣ base)
    (htop : base + heapAlignmentSize ≤ addressLimit)
    (hk : n + 1 + k = numInitialBlocks) :
    LaidOut (initLoop base (blockSizeBytes - sizeofMetaData) k (n + 1)
      (base + n * blockSizeBytes) m) base numInitialBlocks ∧
    AgreeOff (heapBytes base) m
      (initLoop base (blockSizeBytes - sizeofMetaData) k (n + 1)
        (base + n * blockSizeBytes) m) := by
  induction k generalizing m n with
  | zero =>
      rw [Nat.add_zero] at hk
      rw [← hk, initLoop]
      exact ⟨h, AgreeOff.refl _ m⟩
  | succ k ih =>
      obtain ⟨hlaid, hagree⟩ := ih
        (h.step hpos hdvd htop (by omega)) (by omega)
      have hwrites : AgreeOff (headerBytes {base + n * blockSizeBytes,
          base + (n + 1) * blockSizeBytes}) m
          (setNext (initializeMeta m (base + (n + 1) * blockSizeBytes)
            (blockSizeBytes - sizeofMetaData) true 0
            (base + n * blockSizeBytes)) (base + n * blockSizeBytes)
            (base + (n + 1) * blockSizeBytes)) :=
        (agreeOff_initializeMeta m (by simp)).trans
          ((agreeOff_setNext _ (by simp)).mono
            (linkBytes_subset_headerBytes _))
      rw [initLoop]
      refine ⟨hlaid, (hwrites.mono ?_).trans hagree⟩
      rintro x ⟨a, rfl | rfl, hx⟩
      · exact range_subset_heapBytes (by omega) hx
      · exact range_subset_heapBytes (by omega) hx

theorem laidOut_one (m : Mem) {base : ℕ} (hpos : 0 < base) (hdvd : 32 ∣ base)
    (htop : base + heapAlignmentSize ≤ addressLimit) :
    LaidOut (initializeMeta m base (blockSizeBytes - sizeofMetaData) true 0 0)
      base 1 := by
  have hslot : Slot base := by
    simpa using slot_of_base (i := 0) hpos hdvd htop (by decide)
  have hfields := initializeMeta_fields m true 0 0
    hslot.ne_zero hdvd hdvd (show blockSizeBytes - sizeofMetaData < addressLimit
      by rw [addressLimit]; decide)
  rw [if_pos rfl, if_pos rfl] at hfields
  refine ⟨?_, ?_, ?_⟩
  · rw [initializeMeta, if_neg hslot.ne_zero]
    have hlist := FreeList.link_empty (setIsFree (setSize m base
      (blockSizeBytes - sizeofMetaData)) base true) hslot
    simp only [firstBlocks, List.range_one, List.map_cons, List.map_nil,
      Nat.zero_mul, Nat.add_zero]
    exact hlist
  · intro i hi
    obtain rfl : i = 0 := by omega
    simpa using hfields.1
  · intro i hi
    obtain rfl : i = 0 := by omega
    simpa using hfields.2

/-! ## `initHeap` -/

/-- The base `initHeap` computes from the current break. -/
def alignedBase (brk : ℕ) : ℕ :=
  brk + alignmentPadding brk

theorem alignedBase_dvd (brk : ℕ) : heapAlignmentSize ∣ alignedBase brk := by
  simp only [alignedBase, alignmentPadding]
  have hpos : 0 < heapAlignmentSize := by decide
  have hmod := Nat.mod_lt brk hpos
  have hdiv := Nat.div_add_mod brk heapAlignmentSize
  split
  · next h => exact Nat.dvd_of_mod_eq_zero h
  · next h =>
    refine ⟨brk / heapAlignmentSize + 1, ?_⟩
    rw [Nat.mul_add, Nat.mul_one]
    omega

/-- The heap block on the base `initHeap` computes. -/
def initialRoot (brk : ℕ) : Block :=
  ⟨15, alignedBase brk / heapAlignmentSize⟩

theorem initialRoot_order (brk : ℕ) : (initialRoot brk).order = 15 := rfl

theorem addr_initialRoot (brk : ℕ) : addr (initialRoot brk) = alignedBase brk := by
  have hsize : blockSizeByOrder 15 = heapAlignmentSize := by decide
  rw [addr_eq_mul, initialRoot_order, hsize, Nat.mul_comm]
  exact Nat.div_mul_cancel (alignedBase_dvd brk)

theorem heapRoot_initialRoot {brk : ℕ} (hpos : 0 < brk)
    (htop : alignedBase brk + heapAlignmentSize ≤ addressLimit) :
    HeapRoot (initialRoot brk) := by
  refine ⟨rfl, ?_, ?_⟩
  · refine Nat.div_pos (Nat.le_of_dvd ?_ (alignedBase_dvd brk)) (by decide)
    exact Nat.lt_of_lt_of_le hpos (Nat.le_add_right _ _)
  · rwa [addr_initialRoot]

/-- What a successful `initHeap` leaves. -/
theorem initHeap_run {env : Env} (henv : env.sbrk = true) (s : State) :
    initHeap env s = { s with
      mem := initLoop (alignedBase s.brk) (blockSizeBytes - sizeofMetaData)
        (numInitialBlocks - 1) 1 (alignedBase s.brk)
        (initializeMeta s.mem (alignedBase s.brk)
          (blockSizeBytes - sizeofMetaData) true 0 0)
      freeBlocksList := Function.update s.freeBlocksList maxBlockOrder
        (alignedBase s.brk)
      allocatedBlocks := UInt64.ofNat numInitialBlocks
      allocatedBytes :=
        UInt64.ofNat (numInitialBlocks * (blockSizeBytes - sizeofMetaData))
      metadataBytes := UInt64.ofNat (numInitialBlocks * sizeofMetaData)
      initialized := true
      heapBaseAligned := alignedBase s.brk
      brk := s.brk +
        (alignmentPadding s.brk + numInitialBlocks * blockSizeBytes) } := by
  simp only [initHeap, henv, Bool.true_eq_false, if_false]
  rfl

/-- Where the tiles of the initial tiling lie. -/
theorem exists_of_mem_initialTiling {brk : ℕ} {b : Block}
    (hb : b ∈ (initialTiling (initialRoot brk) (initialRoot_order brk)).tiles) :
    ∃ i < numInitialBlocks, b = initialBlock (initialRoot brk) i ∧
      addr b = alignedBase brk + i * blockSizeBytes := by
  obtain ⟨i, hi, rfl⟩ := Finset.mem_image.mp hb
  refine ⟨i, Finset.mem_range.mp hi, rfl, ?_⟩
  rw [addr_initialBlock rfl, addr_initialRoot]

/-- Over empty lists, the blocks laid out make up the free lists of the initial
tiling. -/
theorem LaidOut.lists {m : Mem} {brk : ℕ} {heads : ℕ → ℕ}
    (h : LaidOut m (alignedBase brk) numInitialBlocks)
    (hheads : ∀ k ≤ maxBlockOrder, heads k = 0) :
    Lists m (Function.update heads maxBlockOrder (alignedBase brk))
      (freeAddrs (initialTiling (initialRoot brk) (initialRoot_order brk))) := by
  refine ⟨?_, ?_⟩
  · intro k hk
    rw [freeAddrs_initialTiling, addr_initialRoot]
    by_cases hkmax : k = maxBlockOrder
    · subst hkmax
      refine ⟨firstBlocks (alignedBase brk) numInitialBlocks, ?_, ?_⟩
      · simpa using h.list
      · intro a
        rw [mem_firstBlocks, if_pos rfl]
        simp
    · refine ⟨[], ?_, ?_⟩
      · rw [Function.update_of_ne hkmax, hheads k hk]
        exact FreeList.nil _
      · intro a
        rw [if_neg hkmax]
        simp
  · intro j _ k _ a ha ha'
    obtain ⟨b, hb, rfl, rfl⟩ := (mem_freeAddrs _).mp ha
    obtain ⟨c, hc, rfl, heq⟩ := (mem_freeAddrs _).mp ha'
    rw [tile_addr_inj _ (Tiling.mem_free.mp hc).1 (Tiling.mem_free.mp hb).1 heq]

/-- A successful `initHeap` represents the initial tiling, with nothing
accounted for outside the heap. -/
theorem initHeap_eq {env : Env} {s : State} (henv : env.sbrk = true)
    (hpos : 0 < s.brk)
    (htop : alignedBase s.brk + heapAlignmentSize ≤ addressLimit)
    (hheads : ∀ k ≤ maxBlockOrder, s.freeBlocksList k = 0) :
    Rep (initHeap env s)
        (initialTiling (initialRoot s.brk) (initialRoot_order s.brk)) ⟨0, 0⟩ ∧
      AgreeOff (heapBytes (alignedBase s.brk)) s.mem (initHeap env s).mem ∧
      (initHeap env s).initialized = true ∧
      (initHeap env s).heapBaseAligned = alignedBase s.brk ∧
      (initHeap env s).mapped = s.mapped ∧
      0 < (initHeap env s).brk := by
  have hdvd : 32 ∣ alignedBase s.brk := addr_initialRoot s.brk ▸ addr_dvd _
  have hbpos : 0 < alignedBase s.brk :=
    Nat.lt_of_lt_of_le hpos (Nat.le_add_right _ _)
  have hone := laidOut_one s.mem hbpos hdvd htop
  obtain ⟨hlaid, hagree⟩ :=
    initLoop_laidOut (n := 0) (k := numInitialBlocks - 1) hone hbpos hdvd htop rfl
  simp only [Nat.zero_mul, Nat.add_zero, Nat.zero_add] at hlaid hagree
  rw [initHeap_run henv]
  refine ⟨⟨heapRoot_initialRoot hpos htop, (addr_initialRoot s.brk).symm, ?_, ?_,
    hlaid.lists hheads, ?_, ?_, rfl⟩, ?_, rfl, rfl, rfl, ?_⟩
  · intro b hb
    obtain ⟨i, hi, rfl, haddr⟩ := exists_of_mem_initialTiling hb
    rw [haddr]
    exact hlaid.size i hi
  · intro b hb
    obtain ⟨i, hi, rfl, haddr⟩ := exists_of_mem_initialTiling hb
    rw [haddr]
    exact hlaid.free i hi
  · rw [initialTiling_card]
    rfl
  · rw [initialTiling_sum]
    rfl
  · refine AgreeOff.trans (AgreeOff.mono
      (agreeOff_initializeMeta s.mem (Set.mem_singleton _)) ?_) hagree
    rintro x ⟨a, rfl, hx⟩
    apply range_subset_heapBytes (show 0 < numInitialBlocks by decide)
    rw [Nat.zero_mul, Nat.add_zero]
    exact hx
  · exact Nat.lt_of_lt_of_le hpos (Nat.le_add_right _ _)

end OsCoursework.Allocator
