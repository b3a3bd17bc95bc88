import OsCoursework.Allocator.Header
import OsCoursework.Support.Coalescing

/-!
# Orders and addresses

The heap of `malloc_3.cpp` is a dyadic block: with a unit of 128 bytes its
4 MiB are the block `root` of order 15, and the allocator's blocks of order
`k` are the dyadic blocks of order `k` inside it.  This module relates the
address arithmetic of the code to that picture: what `getBlockOrder` and
`getRequiredOrder` compute, where block headers lie, and that toggling the bit
of a block's size in its address leads to its buddy.
-/

namespace OsCoursework.Allocator

open OsCoursework.Bytes
open OsCoursework.Dyadic

/-! ## Orders -/

/-- The usable bytes of a block: its size field. -/
def usable (order : ℕ) : ℕ :=
  blockSizeByOrder order - sizeofMetaData

/-- `order` is the least order whose blocks hold `size` bytes and a header. -/
def Fits (size order : ℕ) : Prop :=
  size + sizeofMetaData ≤ blockSizeByOrder order ∧
    ∀ j < order, blockSizeByOrder j < size + sizeofMetaData

instance (size order : ℕ) : Decidable (Fits size order) :=
  inferInstanceAs (Decidable (_ ∧ _))

theorem blockSizeByOrder_succ (k : ℕ) :
    blockSizeByOrder (k + 1) = 2 * blockSizeByOrder k := by
  rw [blockSizeByOrder, blockSizeByOrder, pow_succ]
  ring

theorem blockSizeByOrder_ge (k : ℕ) : 128 ≤ blockSizeByOrder k :=
  Nat.le_mul_of_pos_right 128 (Nat.two_pow_pos k)

theorem blockSizeByOrder_le_of_le {j k : ℕ} (h : j ≤ k) :
    blockSizeByOrder j ≤ blockSizeByOrder k :=
  Nat.mul_le_mul_left 128 (Nat.pow_le_pow_right Nat.two_pos h)

theorem blockSizeByOrder_lt_of_lt {j k : ℕ} (h : j < k) :
    blockSizeByOrder j < blockSizeByOrder k := by
  have hle := blockSizeByOrder_le_of_le h
  have hge := blockSizeByOrder_ge j
  rw [blockSizeByOrder_succ] at hle
  omega

theorem blockSizeByOrder_max : blockSizeByOrder maxBlockOrder = 131072 := rfl

theorem blockSizeByOrder_le_max {k : ℕ} (h : k ≤ maxBlockOrder) :
    blockSizeByOrder k ≤ 131072 :=
  blockSizeByOrder_max ▸ blockSizeByOrder_le_of_le h

theorem usable_add (k : ℕ) :
    usable k + sizeofMetaData = blockSizeByOrder k := by
  have hge := blockSizeByOrder_ge k
  rw [usable, sizeofMetaData]
  omega

theorem usable_succ (k : ℕ) :
    usable (k + 1) = 2 * usable k + sizeofMetaData := by
  have hk := usable_add k
  have hk1 := usable_add (k + 1)
  rw [blockSizeByOrder_succ] at hk1
  omega

theorem usable_lt {k : ℕ} (h : k ≤ maxBlockOrder) : usable k < addressLimit := by
  have hk := usable_add k
  have hle := blockSizeByOrder_le_max h
  rw [addressLimit]
  omega

theorem usable_le_of_le {j k : ℕ} (h : j ≤ k) : usable j ≤ usable k :=
  Nat.sub_le_sub_right (blockSizeByOrder_le_of_le h) _

theorem usable_injective {j k : ℕ} (h : usable j = usable k) : j = k := by
  have hj := usable_add j
  have hk := usable_add k
  rcases Nat.lt_trichotomy j k with hlt | heq | hlt
  · have := blockSizeByOrder_lt_of_lt hlt
    omega
  · exact heq
  · have := blockSizeByOrder_lt_of_lt hlt
    omega

theorem add64_usable {k : ℕ} (h : k ≤ maxBlockOrder) :
    add64 (usable k) sizeofMetaData = blockSizeByOrder k := by
  rw [add64, usable_add]
  apply Nat.mod_eq_of_lt
  have hle := blockSizeByOrder_le_max h
  omega

theorem orderOf_eq {n k : ℕ} (hk : k ≤ maxBlockOrder)
    (hle : n ≤ blockSizeByOrder k) (hmin : ∀ j < k, blockSizeByOrder j < n) :
    orderOf n = k := by
  have hfind : (List.range (maxBlockOrder + 1)).find?
      (fun order => n ≤ blockSizeByOrder order) = some k := by
    rw [List.find?_range_eq_some]
    refine ⟨by simpa using hle, List.mem_range.mpr (by omega), ?_⟩
    intro j hj
    simpa using hmin j hj
  rw [orderOf, hfind]

theorem orderOf_blockSizeByOrder {k : ℕ} (hk : k ≤ maxBlockOrder) :
    orderOf (blockSizeByOrder k) = k :=
  orderOf_eq hk (Nat.le_refl _) fun _ hj => blockSizeByOrder_lt_of_lt hj

/-- The order of a block is read off its size field. -/
theorem getBlockOrder_eq {m : Mem} {a k : ℕ} (hk : k ≤ maxBlockOrder)
    (hsize : getSize m a = usable k) : getBlockOrder m a = k := by
  rw [getBlockOrder, hsize, add64_usable hk, orderOf_blockSizeByOrder hk]

theorem getRequiredOrder_eq {size k : ℕ} (hk : k ≤ maxBlockOrder)
    (h : Fits size k) : getRequiredOrder size = k := by
  have hle := blockSizeByOrder_le_max hk
  have hadd : add64 size sizeofMetaData = size + sizeofMetaData := by
    rw [add64]
    apply Nat.mod_eq_of_lt
    have := h.1
    omega
  rw [getRequiredOrder, hadd]
  exact orderOf_eq hk h.1 h.2

/-- Requests below the `mmap` limit have a required order. -/
theorem exists_fits {size : ℕ} (h : size + sizeofMetaData ≤ mmapMinLimit) :
    ∃ k ≤ maxBlockOrder, Fits size k := by
  have hex : ∃ k, size + sizeofMetaData ≤ blockSizeByOrder k :=
    ⟨maxBlockOrder, h⟩
  refine ⟨Nat.find hex, Nat.find_min' hex h, Nat.find_spec hex, ?_⟩
  intro j hj
  exact Nat.lt_of_not_le (Nat.find_min hex hj)

/-- A block holds a request exactly when its order reaches the required one. -/
theorem Fits.le_usable_iff {size k j : ℕ} (h : Fits size k) :
    size ≤ usable j ↔ k ≤ j := by
  have hj := usable_add j
  have hfits := h.1
  constructor
  · intro hle
    by_contra hlt
    have := h.2 j (by omega)
    omega
  · intro hle
    have := blockSizeByOrder_le_of_le hle
    omega

theorem Fits.unique {size r r' : ℕ} (h : Fits size r) (h' : Fits size r') :
    r = r' :=
  Nat.le_antisymm (h.le_usable_iff.mp (h'.le_usable_iff.mpr (Nat.le_refl _)))
    (h'.le_usable_iff.mp (h.le_usable_iff.mpr (Nat.le_refl _)))

/-! ## Addresses -/

/-- The address of a block. -/
def addr (b : Block) : ℕ :=
  128 * b.first

/-- Where the heap may lie: 4 MiB aligned to their own size, above address 0
and inside the address space. -/
structure HeapRoot (root : Block) : Prop where
  order_eq : root.order = 15
  index_pos : 0 < root.index
  top_le : addr root + heapAlignmentSize ≤ addressLimit

theorem addr_dvd (b : Block) : 32 ∣ addr b :=
  Dvd.dvd.mul_right (by decide) b.first

theorem addr_eq_mul (b : Block) : addr b = blockSizeByOrder b.order * b.index := by
  rw [addr, Block.first, blockSizeByOrder]
  ring

theorem first_eq_of_addr_eq {b c : Block} (h : addr b = addr c) :
    b.first = c.first :=
  Nat.eq_of_mul_eq_mul_left (by decide) h

/-- Address and order determine a block. -/
theorem addr_order_injective :
    Function.Injective fun b : Block => (addr b, b.order) := by
  intro b d heq
  obtain ⟨haddr, horder⟩ := Prod.mk.inj heq
  apply Block.eq_of_order_of_contains horder b.contains_first
  rw [first_eq_of_addr_eq haddr]
  exact d.contains_first

theorem HeapRoot.size_eq {root : Block} (hroot : HeapRoot root) :
    blockSizeByOrder root.order = heapAlignmentSize := by
  rw [hroot.order_eq]
  rfl

theorem HeapRoot.le_addr {root : Block} (hroot : HeapRoot root) :
    heapAlignmentSize ≤ addr root := by
  rw [addr_eq_mul, hroot.size_eq]
  exact Nat.le_mul_of_pos_right _ hroot.index_pos

/-- The bytes of a block are those whose unit it contains. -/
theorem byte_mem_iff {b : Block} {x : ℕ} :
    addr b ≤ x ∧ x < addr b + blockSizeByOrder b.order ↔
      b.Contains (x / 128) := by
  rw [Block.contains_iff, addr, blockSizeByOrder]
  omega

theorem within_addr_le {b c : Block} (h : b.Within c) :
    addr c ≤ addr b ∧
      addr b + blockSizeByOrder b.order ≤ addr c + blockSizeByOrder c.order := by
  have hb := blockSizeByOrder_ge b.order
  have hstart : addr c ≤ addr b ∧ addr b < addr c + blockSizeByOrder c.order :=
    byte_mem_iff.mpr (h.contains (byte_mem_iff.mp ⟨Nat.le_refl _, by omega⟩))
  have hend : addr c ≤ addr b + blockSizeByOrder b.order - 1 ∧
      addr b + blockSizeByOrder b.order - 1 < addr c + blockSizeByOrder c.order :=
    byte_mem_iff.mpr (h.contains (byte_mem_iff.mp ⟨by omega, by omega⟩))
  omega

/-- Toggling the bit of a block's size in its address gives its buddy. -/
theorem addr_xor (b : Block) :
    addr b ^^^ blockSizeByOrder b.order = addr b.buddy := by
  have h := Block.first_xor_eq b 7
  rw [addr, addr, blockSizeByOrder]
  exact h

theorem findBuddy_eq {m : Mem} {b : Block} (hb : b.order ≤ maxBlockOrder)
    (hsize : getSize m (addr b) = usable b.order) :
    findBuddy m (addr b) = addr b.buddy := by
  rw [findBuddy, hsize, add64_usable hb, addr_xor]

theorem addr_parent (b : Block) :
    addr b.parent = if addr b < addr b.buddy then addr b else addr b.buddy := by
  have hmin := b.parent_first
  rw [addr, addr, addr, hmin]
  split
  · next h => rw [Nat.min_eq_left (by omega)]
  · next h => rw [Nat.min_eq_right (by omega)]

theorem addr_left {b : Block} (h : 0 < b.order) : addr b.left = addr b := by
  rw [addr, addr, Block.left_first h]

theorem addr_right {b : Block} (h : 0 < b.order) :
    addr b.right = addr b + blockSizeByOrder (b.order - 1) := by
  rw [addr, addr, Block.right_first h, blockSizeByOrder]
  ring

/-- The addresses of the blocks of order `k` in a set of blocks. -/
def addrsOf (blocks : Finset Block) (k : ℕ) : Finset ℕ :=
  (blocks.filter fun b => b.order = k).image addr

theorem mem_addrsOf {blocks : Finset Block} {k a : ℕ} :
    a ∈ addrsOf blocks k ↔ ∃ b ∈ blocks, b.order = k ∧ addr b = a := by
  simp [addrsOf, and_assoc]

theorem addrsOf_insert (b : Block) (blocks : Finset Block) (k : ℕ) :
    addrsOf (insert b blocks) k =
      if k = b.order then insert (addr b) (addrsOf blocks k)
      else addrsOf blocks k := by
  rw [addrsOf, Finset.filter_insert, apply_ite (Finset.image addr),
    Finset.image_insert]
  exact if_congr eq_comm rfl rfl

/-- Blocks of one order have different addresses, so that erasing a block erases
its address. -/
theorem addrsOf_erase (b : Block) (blocks : Finset Block) (k : ℕ) :
    addrsOf (blocks.erase b) k =
      if k = b.order then (addrsOf blocks k).erase (addr b)
      else addrsOf blocks k := by
  ext a
  simp only [mem_addrsOf, Finset.mem_erase]
  split
  · next hk =>
    rw [Finset.mem_erase, mem_addrsOf]
    constructor
    · rintro ⟨t, ⟨hne, ht⟩, htk, rfl⟩
      refine ⟨?_, t, ht, htk, rfl⟩
      intro heq
      exact hne (addr_order_injective (Prod.ext heq (htk.trans hk)))
    · rintro ⟨hne, t, ht, htk, rfl⟩
      exact ⟨t, ⟨ne_of_apply_ne addr hne, ht⟩, htk, rfl⟩
  · next hk =>
    rw [mem_addrsOf]
    constructor
    · rintro ⟨t, ⟨-, ht⟩, htk, rfl⟩
      exact ⟨t, ht, htk, rfl⟩
    · rintro ⟨t, ht, htk, rfl⟩
      refine ⟨t, ⟨?_, ht⟩, htk, rfl⟩
      rintro rfl
      exact hk htk.symm

section Tiles

variable {root : Block} (H : Tiling root maxBlockOrder)

theorem tile_addr_bounds (hroot : HeapRoot root) {b : Block}
    (hb : b ∈ H.tiles) :
    addr root ≤ addr b ∧ addr b + blockSizeByOrder b.order ≤
      addr root + heapAlignmentSize := by
  have h := within_addr_le (H.within_root b hb)
  rwa [hroot.size_eq] at h

theorem tile_slot (hroot : HeapRoot root) {b : Block} (hb : b ∈ H.tiles) :
    Slot (addr b) := by
  obtain ⟨hlo, hhi⟩ := tile_addr_bounds H hroot hb
  have hge := blockSizeByOrder_ge b.order
  have hpos : 0 < addr root := by
    rw [addr_eq_mul]
    exact Nat.mul_pos (Nat.lt_of_lt_of_le (by decide)
      (blockSizeByOrder_ge _)) hroot.index_pos
  have htop := hroot.top_le
  exact ⟨by omega, addr_dvd b, by omega⟩

theorem tile_addr_inj {b c : Block} (hb : b ∈ H.tiles) (hc : c ∈ H.tiles)
    (h : addr b = addr c) : b = c :=
  H.eq_of_first hb hc (first_eq_of_addr_eq h)

/-- Different tiles have no byte in common. -/
theorem tile_bytes_disjoint {b c : Block} {x : ℕ}
    (hb : b ∈ H.tiles) (hc : c ∈ H.tiles)
    (hbx : addr b ≤ x ∧ x < addr b + blockSizeByOrder b.order)
    (hcx : addr c ≤ x ∧ x < addr c + blockSizeByOrder c.order) : b = c :=
  H.tile_unique b hb c hc _ (byte_mem_iff.mp hbx) (byte_mem_iff.mp hcx)

/-- The addresses of the free tiles of order `k`. -/
def freeAddrs (k : ℕ) : Finset ℕ :=
  (H.free.filter fun b => b.order = k).image addr

theorem mem_freeAddrs {k a : ℕ} :
    a ∈ freeAddrs H k ↔ ∃ b ∈ H.free, b.order = k ∧ addr b = a :=
  mem_addrsOf

theorem freeAddrs_eq (k : ℕ) : freeAddrs H k = addrsOf H.free k :=
  rfl

theorem addr_mem_freeAddrs {b : Block} (hb : b ∈ H.tiles) {k : ℕ} :
    addr b ∈ freeAddrs H k ↔ b ∈ H.free ∧ b.order = k := by
  rw [mem_freeAddrs]
  constructor
  · rintro ⟨c, hc, hk, heq⟩
    obtain rfl := tile_addr_inj H (Tiling.mem_free.mp hc).1 hb heq
    exact ⟨hc, hk⟩
  · rintro ⟨hfree, hk⟩
    exact ⟨b, hfree, hk, rfl⟩

/-- The addresses of all free tiles. -/
def freeStarts : Set ℕ :=
  addr '' (H.free : Set Block)

theorem freeAddrs_subset_freeStarts (k : ℕ) :
    (freeAddrs H k : Set ℕ) ⊆ freeStarts H := by
  intro a ha
  obtain ⟨b, hb, -, heq⟩ := (mem_freeAddrs H).mp ha
  exact ⟨b, hb, heq⟩

end Tiles

end OsCoursework.Allocator
