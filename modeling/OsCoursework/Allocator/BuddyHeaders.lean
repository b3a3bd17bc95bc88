import OsCoursework.Allocator.Layout

/-!
# The header at the buddy address

`findBuddy` only computes with addresses, and `attemptFreeBuddyMerge` reads a header
wherever that leads.  In a heap that is cut into blocks, each of them aligned to its size,
it leads to the start of a block of at most the same order, however the blocks around it
have been split.
-/

namespace OsCoursework.Allocator

open OsCoursework.Bytes
open OsCoursework.Dyadic

/-- The heap is aligned to its size, the blocks `B` tile it, and each of them has its
size in its header. -/
structure HeapTiling (s : State) (B : Finset (ℕ × ℕ)) : Prop where
  base_dvd : heapAlignmentSize ∣ s.heapBaseAligned
  covers : ∀ y, y ∈ heapBytes s.heapBaseAligned ↔ ∃ x ∈ B, y ∈ heapBlockBytes x
  disjoint : ∀ x ∈ B, ∀ y ∈ B, x ≠ y →
    Disjoint (heapBlockBytes x) (heapBlockBytes y)
  order_le : ∀ x ∈ B, x.2 ≤ maxBlockOrder
  aligned : ∀ x ∈ B, blockSizeByOrder x.2 ∣ x.1
  size_eq : ∀ x ∈ B,
    getSize s.mem x.1 = blockSizeByOrder x.2 - sizeofMetaData

variable {root : Block} {H : Tiling root maxBlockOrder} {s : State}
  {B : Finset (ℕ × ℕ)} {L : ℕ → List ℕ} {x : ℕ × ℕ} {a j k y : ℕ}

/-- A heap keeps its tiling through the splits and the merges of a call. -/
theorem Heap.heapTiling (h : Heap s H) : HeapTiling s (layoutBlocks H) := by
  obtain ⟨L, hlayout, -⟩ := h.rep.heapLayout
  have hbase : heapAlignmentSize ∣ s.heapBaseAligned := by
    rw [h.base_eq, addr_eq_mul, h.heapRoot.size_eq]
    exact Nat.dvd_mul_right _ _
  exact ⟨hbase, hlayout.covers, hlayout.disjoint, hlayout.order_le, hlayout.aligned,
    hlayout.size_eq⟩

/-- The layout of a reachable heap is a tiling. -/
theorem Reachable.heapTiling {w : World} (hreach : Reachable w)
    (hinit : w.st.initialized = true) (hlayout : HeapLayout w.st B L) :
    HeapTiling w.st B := by
  obtain ⟨root, H, c, h⟩ := hreach.ready hinit
  obtain ⟨rfl, -⟩ := h.rep.layout_eq hlayout
  exact h.rep.heap.heapTiling

/-! ## Heap blocks are dyadic blocks -/

/-- The dyadic block of the heap block at address `x.1` of order `x.2`. -/
def blockAt (x : ℕ × ℕ) : Block :=
  ⟨x.2, x.1 / blockSizeByOrder x.2⟩

/-- The dyadic block of the whole heap. -/
def heapBlock (s : State) : Block :=
  ⟨15, s.heapBaseAligned / heapAlignmentSize⟩

theorem addr_blockAt (h : blockSizeByOrder x.2 ∣ x.1) : addr (blockAt x) = x.1 := by
  rw [addr_eq_mul]
  exact Nat.mul_div_cancel' h

/-- The bytes of a heap block, read as units of its dyadic block. -/
theorem blockAt_contains_iff (h : blockSizeByOrder x.2 ∣ x.1) :
    (blockAt x).Contains (y / 128) ↔ y ∈ heapBlockBytes x := by
  rw [← byte_mem_iff, addr_blockAt h]
  exact Iff.rfl

namespace HeapTiling

theorem heapBlock_contains_iff (h : HeapTiling s B) :
    (heapBlock s).Contains (y / 128) ↔ y ∈ heapBytes s.heapBaseAligned := by
  have hsize : blockSizeByOrder 15 = heapAlignmentSize := by decide
  have hdvd : blockSizeByOrder 15 ∣ s.heapBaseAligned := hsize ▸ h.base_dvd
  have hiff := blockAt_contains_iff (x := (s.heapBaseAligned, 15)) (y := y) hdvd
  rw [blockAt, heapBlockBytes, hsize] at hiff
  exact hiff

/-- The tiling with its blocks read as dyadic blocks.  Which of them are used plays no
role here. -/
def tiling (h : HeapTiling s B) : Tiling (heapBlock s) maxBlockOrder where
  tiles := B.image blockAt
  used := ∅
  used_subset := Finset.empty_subset _
  le_root := show 10 ≤ 15 by decide
  order_le := by
    intro b hb
    obtain ⟨x, hx, rfl⟩ := Finset.mem_image.mp hb
    exact h.order_le x hx
  within_root := by
    intro b hb
    obtain ⟨x, hx, rfl⟩ := Finset.mem_image.mp hb
    have horder : x.2 ≤ 15 := Nat.le_trans (h.order_le x hx) (by decide)
    have hstart := HeapLayout.start_mem x
    apply Block.within_of_contains (x := x.1 / 128) horder
    · exact (blockAt_contains_iff (h.aligned x hx)).mpr hstart
    · exact h.heapBlock_contains_iff.mpr ((h.covers x.1).mpr ⟨x, hx, hstart⟩)
  exists_tile := by
    intro u hu
    have hunit : 128 * u / 128 = u := Nat.mul_div_cancel_left u (by decide)
    rw [← hunit, h.heapBlock_contains_iff, h.covers] at hu
    obtain ⟨x, hx, hux⟩ := hu
    refine ⟨blockAt x, Finset.mem_image_of_mem _ hx, ?_⟩
    rw [← hunit]
    exact (blockAt_contains_iff (h.aligned x hx)).mpr hux
  tile_unique := by
    intro b hb c hc u hub huc
    obtain ⟨x, hx, rfl⟩ := Finset.mem_image.mp hb
    obtain ⟨y, hy, rfl⟩ := Finset.mem_image.mp hc
    have hunit : 128 * u / 128 = u := Nat.mul_div_cancel_left u (by decide)
    rw [← hunit, blockAt_contains_iff (h.aligned x hx)] at hub
    rw [← hunit, blockAt_contains_iff (h.aligned y hy)] at huc
    by_contra hne
    have hxy : x ≠ y := fun heq => hne (by rw [heq])
    exact Set.disjoint_left.mp (h.disjoint x hx y hy hxy) hub huc

/-! ## Where `findBuddy` leads -/

theorem findBuddy_eq (h : HeapTiling s B) (hx : (a, k) ∈ B) :
    findBuddy s.mem a = addr (blockAt (a, k)).buddy := by
  have haddr : addr (blockAt (a, k)) = a := addr_blockAt (h.aligned _ hx)
  have hsize : getSize s.mem (addr (blockAt (a, k))) = usable k := by
    rw [haddr, usable]
    exact h.size_eq (a, k) hx
  rw [← Allocator.findBuddy_eq (h.order_le _ hx) hsize, haddr]

/-- A block of the tiling starts at the buddy address. -/
theorem exists_at_findBuddy (h : HeapTiling s B) (hx : (a, k) ∈ B)
    (hk : k < maxBlockOrder) : ∃ j ≤ k, (findBuddy s.mem a, j) ∈ B := by
  have htile : blockAt (a, k) ∈ h.tiling.tiles := Finset.mem_image_of_mem _ hx
  obtain ⟨c, hc, hfirst, hle⟩ :=
    h.tiling.exists_tile_at_buddy htile (Block.Within.refl _) hk
  obtain ⟨⟨d, j⟩, hd, rfl⟩ := Finset.mem_image.mp hc
  have haddr : d = findBuddy s.mem a := by
    rw [h.findBuddy_eq hx, addr, ← hfirst]
    exact (addr_blockAt (h.aligned _ hd)).symm
  rw [haddr] at hd
  exact ⟨j, hle, hd⟩

theorem eq_of_mem_heapBlockBytes (h : HeapTiling s B) (hx : x ∈ B) (ha : (a, j) ∈ B)
    (hmem : a ∈ heapBlockBytes x) : x = (a, j) := by
  by_contra hne
  exact Set.disjoint_left.mp (h.disjoint x hx _ ha hne) hmem
    (HeapLayout.start_mem (a, j))

/-- The size field tells the order. -/
theorem order_eq_iff (h : HeapTiling s B) {d : ℕ} (ha : (a, k) ∈ B) (hd : (d, j) ∈ B) :
    j = k ↔ getSize s.mem d = getSize s.mem a := by
  rw [h.size_eq _ ha, h.size_eq _ hd]
  constructor
  · intro heq
    rw [heq]
  · exact usable_injective

/-- Toggling the same bit twice leads back. -/
theorem findBuddy_findBuddy
    (hsize : getSize s.mem (findBuddy s.mem a) = getSize s.mem a) :
    findBuddy s.mem (findBuddy s.mem a) = a := by
  conv_lhs => rw [findBuddy, hsize, findBuddy]
  exact Nat.xor_xor_cancel_right _ _

/-- The lower of the two buddies starts their parent. -/
theorem dvd_min_findBuddy (h : HeapTiling s B) (hx : (a, k) ∈ B) :
    2 * blockSizeByOrder k ∣ min a (findBuddy s.mem a) := by
  have haddr : addr (blockAt (a, k)) = a := addr_blockAt (h.aligned _ hx)
  have hparent : min a (findBuddy s.mem a) = addr (blockAt (a, k)).parent := by
    rw [h.findBuddy_eq hx, addr_parent, haddr, min_def]
    split <;> split <;> omega
  rw [hparent, addr_eq_mul, ← blockSizeByOrder_succ]
  exact Nat.dvd_mul_right _ _

end HeapTiling

/-- The buddy address of a block below the largest order is the start of a block of the
tiling, which is its buddy exactly when the two size fields agree. -/
theorem findBuddy_is_header (h : HeapTiling s B) (hx : (a, k) ∈ B)
    (hk : k < maxBlockOrder) :
    findBuddy s.mem a ∈ heapBytes s.heapBaseAligned ∧
      ∃ j ≤ k, (findBuddy s.mem a, j) ∈ B ∧
        (∀ x ∈ B, findBuddy s.mem a ∈ heapBlockBytes x → x = (findBuddy s.mem a, j)) ∧
        (j = k ↔ getSize s.mem (findBuddy s.mem a) = getSize s.mem a) ∧
        (j = k → findBuddy s.mem (findBuddy s.mem a) = a ∧
          2 * blockSizeByOrder k ∣ min a (findBuddy s.mem a)) := by
  obtain ⟨j, hjk, hbuddy⟩ := h.exists_at_findBuddy hx hk
  have horder := h.order_eq_iff hx hbuddy
  refine ⟨?_, j, hjk, hbuddy, ?_, horder, ?_⟩
  · exact (h.covers _).mpr ⟨_, hbuddy, HeapLayout.start_mem _⟩
  · intro x hxB hmem
    exact h.eq_of_mem_heapBlockBytes hxB hbuddy hmem
  · intro heq
    exact ⟨HeapTiling.findBuddy_findBuddy (horder.mp heq), h.dvd_min_findBuddy hx⟩

theorem findBuddy_is_header_oneBlock :
    ∃ B, HeapTiling oneBlock.st B ∧ (4194304, 0) ∈ B ∧
      findBuddy oneBlock.st.mem 4194304 ∈ heapBytes oneBlock.st.heapBaseAligned ∧
      ∃ j ≤ 0, (findBuddy oneBlock.st.mem 4194304, j) ∈ B ∧
        (∀ x ∈ B, findBuddy oneBlock.st.mem 4194304 ∈ heapBlockBytes x →
          x = (findBuddy oneBlock.st.mem 4194304, j)) ∧
        (j = 0 ↔ getSize oneBlock.st.mem (findBuddy oneBlock.st.mem 4194304) =
          getSize oneBlock.st.mem 4194304) ∧
        (j = 0 → findBuddy oneBlock.st.mem (findBuddy oneBlock.st.mem 4194304) =
            4194304 ∧
          2 * blockSizeByOrder 0 ∣ min 4194304 (findBuddy oneBlock.st.mem 4194304)) := by
  obtain ⟨root, H, c, b, h, hb, horder, haddr⟩ := oneBlock_ready
  have htiling := h.rep.heap.heapTiling
  have hmem : (4194304, 0) ∈ layoutBlocks H :=
    mem_layoutBlocks.mpr ⟨b, H.used_subset hb, by rw [haddr, horder]⟩
  exact ⟨_, htiling, hmem, findBuddy_is_header htiling hmem (by decide)⟩

end OsCoursework.Allocator
