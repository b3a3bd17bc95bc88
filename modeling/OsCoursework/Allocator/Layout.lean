import OsCoursework.Allocator.Replay

/-!
# The layout of the heap

`HeapLayout s B L` describes a heap by what can be read in memory: `B` are its
blocks, as pairs of an address and an order, and `L k` is the free list of order
`k`.  A state has at most one layout.  Every reachable state with a heap has
one, and in it no two free blocks are buddies.
-/

namespace OsCoursework.Allocator

open OsCoursework.Bytes
open OsCoursework.Dyadic

/-- The bytes of the heap block at address `x.1` of order `x.2`. -/
def heapBlockBytes (x : ℕ × ℕ) : Set ℕ :=
  range x.1 (blockSizeByOrder x.2)

/-- The blocks `B` tile the heap and the lists `L` hold the free ones. -/
structure HeapLayout (s : State) (B : Finset (ℕ × ℕ)) (L : ℕ → List ℕ) :
    Prop where
  covers : ∀ y, y ∈ heapBytes s.heapBaseAligned ↔ ∃ x ∈ B, y ∈ heapBlockBytes x
  disjoint : ∀ x ∈ B, ∀ y ∈ B, x ≠ y →
    Disjoint (heapBlockBytes x) (heapBlockBytes y)
  order_le : ∀ x ∈ B, x.2 ≤ maxBlockOrder
  size_eq : ∀ x ∈ B,
    getSize s.mem x.1 = blockSizeByOrder x.2 - sizeofMetaData
  aligned : ∀ x ∈ B, blockSizeByOrder x.2 ∣ x.1
  isFree_iff : ∀ x ∈ B, isFree s.mem x.1 = true ↔
    (L x.2).count x.1 = 1 ∧ ∀ k ≤ maxBlockOrder, k ≠ x.2 → x.1 ∉ L k
  freeList : ∀ k ≤ maxBlockOrder, FreeList s.mem (s.freeBlocksList k) (L k)
  listed : ∀ k ≤ maxBlockOrder, ∀ a ∈ L k, (a, k) ∈ B

/-! ## Uniqueness -/

namespace HeapLayout

variable {s : State} {B B' : Finset (ℕ × ℕ)} {L L' : ℕ → List ℕ}

theorem eq_of_mem (h : HeapLayout s B L) {x y : ℕ × ℕ} {z : ℕ} (hx : x ∈ B)
    (hy : y ∈ B) (hzx : z ∈ heapBlockBytes x) (hzy : z ∈ heapBlockBytes y) :
    x = y := by
  by_contra hne
  exact Set.disjoint_left.mp (h.disjoint x hx y hy hne) hzx hzy

theorem start_mem (x : ℕ × ℕ) : x.1 ∈ heapBlockBytes x := by
  have hge := blockSizeByOrder_ge x.2
  exact ⟨Nat.le_refl _, by omega⟩

/-- Blocks are read off from low to high addresses, each from its header. -/
theorem blocks_subset (h : HeapLayout s B L) (h' : HeapLayout s B' L') :
    B ⊆ B' := by
  intro x hx
  obtain ⟨a, ha⟩ : ∃ a, x.1 = a := ⟨_, rfl⟩
  induction a using Nat.strong_induction_on generalizing x with
  | _ a ih =>
      have hheap := (h.covers x.1).mpr ⟨x, hx, start_mem x⟩
      obtain ⟨y, hy, hxy⟩ := (h'.covers x.1).mp hheap
      rcases Nat.eq_or_lt_of_le hxy.1 with heq | hlt
      · have hsize : usable y.2 = usable x.2 := by
          rw [usable, usable, ← h'.size_eq y hy, ← h.size_eq x hx, heq]
        have hxy : x = y := Prod.ext heq.symm (usable_injective hsize).symm
        rwa [hxy]
      · -- The block around `y.1` is lower, so it is in both layouts.
        have hheap' := (h'.covers y.1).mpr ⟨y, hy, start_mem y⟩
        obtain ⟨z, hz, hzy⟩ := (h.covers y.1).mp hheap'
        have hz' := ih z.1 (by have := hzy.1; omega) hz rfl
        have hzy' : z = y := h'.eq_of_mem hz' hy hzy (start_mem y)
        subst hzy'
        have hxz : x = z := h.eq_of_mem hx hz (start_mem x) hxy
        rwa [hxz]

theorem blocks_unique (h : HeapLayout s B L) (h' : HeapLayout s B' L') :
    B = B' :=
  Finset.Subset.antisymm (h.blocks_subset h') (h'.blocks_subset h)

theorem lists_unique (h : HeapLayout s B L) (h' : HeapLayout s B' L') {k : ℕ}
    (hk : k ≤ maxBlockOrder) : L k = L' k :=
  (h.freeList k hk).unique (h'.freeList k hk)

end HeapLayout

/-! ## The layout of a tiling -/

section Tiling

variable {root : Block} {H : Tiling root maxBlockOrder} {s : State}
  {o : Outside}

/-- The tiles as pairs of an address and an order. -/
def layoutBlocks (H : Tiling root maxBlockOrder) : Finset (ℕ × ℕ) :=
  H.tiles.image fun b => (addr b, b.order)

theorem mem_layoutBlocks {x : ℕ × ℕ} :
    x ∈ layoutBlocks H ↔ ∃ b ∈ H.tiles, (addr b, b.order) = x :=
  Finset.mem_image

/-- A represented state has the layout of its tiling. -/
theorem Rep.heapLayout (h : Rep s H o) :
    ∃ L, HeapLayout s (layoutBlocks H) L ∧
      ∀ k ≤ maxBlockOrder, ∀ a, a ∈ L k ↔ a ∈ freeAddrs H k := by
  have hlist : ∀ k, ∃ l, k ≤ maxBlockOrder →
      FreeList s.mem (s.freeBlocksList k) l ∧ ∀ a, a ∈ l ↔ a ∈ freeAddrs H k := by
    intro k
    by_cases hk : k ≤ maxBlockOrder
    · obtain ⟨l, hl⟩ := h.lists.list k hk
      exact ⟨l, fun _ => hl⟩
    · exact ⟨[], fun hle => absurd hle hk⟩
  choose L hL using hlist
  refine ⟨L, ⟨?_, ?_, ?_, ?_, ?_, ?_, fun k hk => (hL k hk).1, ?_⟩,
    fun k hk => (hL k hk).2⟩
  · intro y
    rw [← h.tileBytes_root]
    constructor
    · intro hy
      obtain ⟨b, hb, hby⟩ := H.exists_tile _ (byte_mem_iff.mp hy)
      exact ⟨_, mem_layoutBlocks.mpr ⟨b, hb, rfl⟩, byte_mem_iff.mpr hby⟩
    · rintro ⟨x, hx, hy⟩
      obtain ⟨b, hb, rfl⟩ := mem_layoutBlocks.mp hx
      exact tileBytes_mono (H.within_root b hb) hy
  · intro x hx y hy hne
    obtain ⟨b, hb, rfl⟩ := mem_layoutBlocks.mp hx
    obtain ⟨d, hd, rfl⟩ := mem_layoutBlocks.mp hy
    refine Set.disjoint_left.mpr fun z hz hz' => hne ?_
    rw [tile_bytes_disjoint H hb hd hz hz']
  · intro x hx
    obtain ⟨b, hb, rfl⟩ := mem_layoutBlocks.mp hx
    exact H.order_le b hb
  · intro x hx
    obtain ⟨b, hb, rfl⟩ := mem_layoutBlocks.mp hx
    exact h.size_eq b hb
  · intro x hx
    obtain ⟨b, hb, rfl⟩ := mem_layoutBlocks.mp hx
    exact ⟨b.index, addr_eq_mul b⟩
  · intro x hx
    obtain ⟨b, hb, rfl⟩ := mem_layoutBlocks.mp hx
    have hk := H.order_le b hb
    have hmem : addr b ∈ L b.order ↔ b ∉ H.used := by
      rw [(hL b.order hk).2, addr_mem_freeAddrs H hb, Tiling.mem_free]
      simp [hb]
    have hnodup : (L b.order).Nodup :=
      (hL b.order hk).1.sorted.imp fun hlt => Nat.ne_of_lt hlt
    simp only [h.isFree_eq b hb, decide_eq_true_eq, ← hmem]
    constructor
    · intro hin
      refine ⟨List.count_eq_one_of_mem hnodup hin, ?_⟩
      intro j hj hne hj'
      rw [(hL j hj).2, addr_mem_freeAddrs H hb] at hj'
      exact hne hj'.2.symm
    · rintro ⟨hcount, -⟩
      exact List.count_pos_iff.mp (by omega)
  · intro k hk a ha
    rw [(hL k hk).2] at ha
    obtain ⟨b, hb, rfl, rfl⟩ := (mem_freeAddrs H).mp ha
    exact mem_layoutBlocks.mpr ⟨b, (Tiling.mem_free.mp hb).1, rfl⟩

/-- Whatever layout a represented state has, it is that of its tiling. -/
theorem Rep.layout_eq (h : Rep s H o) {B : Finset (ℕ × ℕ)} {L : ℕ → List ℕ}
    (hlayout : HeapLayout s B L) :
    B = layoutBlocks H ∧
      ∀ k ≤ maxBlockOrder, ∀ a, a ∈ L k ↔ a ∈ freeAddrs H k := by
  obtain ⟨L', hlayout', hmem⟩ := h.heapLayout
  refine ⟨hlayout.blocks_unique hlayout', ?_⟩
  intro k hk a
  rw [hlayout.lists_unique hlayout' hk]
  exact hmem k hk a

end Tiling

/-! ## Reachable heaps -/

theorem Reachable.exists_layout {w : World} (h : Reachable w)
    (hinit : w.st.initialized = true) : ∃ B L, HeapLayout w.st B L := by
  obtain ⟨root, H, c, hready⟩ := h.ready hinit
  obtain ⟨L, hlayout, -⟩ := hready.rep.heapLayout
  exact ⟨_, L, hlayout⟩

/-- After a successful `initHeap` every run keeps the heap well formed, and no
call of a well-behaved client is undefined. -/
theorem reachable_heapLayout (w : World) (hreach : Reachable w)
    (hinit : w.st.initialized = true) :
    (∃ B L, HeapLayout w.st B L) ∧
      ∀ env call, env.Valid w.st → call.Allowed w →
        (exec env w call).isSome := by
  refine ⟨hreach.exists_layout hinit, ?_⟩
  intro env call hvalid hallowed
  obtain ⟨w', p, hexec, -, -⟩ :=
    closed_inv.exec hreach.inv trivial hvalid hallowed
  rw [hexec]
  rfl

theorem reachable_heapLayout_oneBlock :
    (∃ B L, HeapLayout oneBlock.st B L) ∧
      ∀ env call, env.Valid oneBlock.st → call.Allowed oneBlock →
        (exec env oneBlock call).isSome :=
  reachable_heapLayout oneBlock oneBlock_reachable oneBlock_initialized

/-- Free blocks below the largest order are never buddies of each other. -/
theorem reachable_no_free_buddies (w : World) (hreach : Reachable w)
    (hinit : w.st.initialized = true) (B : Finset (ℕ × ℕ)) (L : ℕ → List ℕ)
    (hlayout : HeapLayout w.st B L) :
    ∀ a k, k < maxBlockOrder → (a, k) ∈ B →
      (a ^^^ blockSizeByOrder k, k) ∈ B →
      ¬ (isFree w.st.mem a = true ∧
        isFree w.st.mem (a ^^^ blockSizeByOrder k) = true) := by
  obtain ⟨root, H, c, h⟩ := hreach.ready hinit
  obtain ⟨rfl, -⟩ := h.rep.layout_eq hlayout
  rintro a k hk ha hbuddy ⟨hfree, hfree'⟩
  obtain ⟨b, hb, heq⟩ := mem_layoutBlocks.mp ha
  obtain ⟨d, hd, heq'⟩ := mem_layoutBlocks.mp hbuddy
  obtain ⟨rfl, rfl⟩ := Prod.mk.inj heq
  obtain ⟨haddr, horder⟩ := Prod.mk.inj heq'
  rw [addr_xor] at haddr hfree'
  have hdb : d = b.buddy := addr_order_injective (Prod.ext haddr horder)
  subst hdb
  rw [h.rep.isFree_eq b hb, decide_eq_true_eq] at hfree
  rw [h.rep.isFree_eq _ hd, decide_eq_true_eq] at hfree'
  exact h.coalesced b (Tiling.mem_free.mpr ⟨hb, hfree⟩)
    (Tiling.mem_free.mpr ⟨hd, hfree'⟩) hk

theorem reachable_no_free_buddies_oneBlock :
    ∃ B L, HeapLayout oneBlock.st B L ∧
      ∀ a k, k < maxBlockOrder → (a, k) ∈ B →
        (a ^^^ blockSizeByOrder k, k) ∈ B →
        ¬ (isFree oneBlock.st.mem a = true ∧
          isFree oneBlock.st.mem (a ^^^ blockSizeByOrder k) = true) := by
  obtain ⟨B, L, hlayout⟩ :=
    oneBlock_reachable.exists_layout oneBlock_initialized
  exact ⟨B, L, hlayout, reachable_no_free_buddies oneBlock oneBlock_reachable
    oneBlock_initialized B L hlayout⟩

end OsCoursework.Allocator
