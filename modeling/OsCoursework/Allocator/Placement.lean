import OsCoursework.Allocator.History

/-!
# Which block `smalloc` gives out

A request below the `mmap` limit is served from the lowest block of the first
nonempty list at or above the required order.  What the splits leave behind is
one free block of each order passed: the upper half at that order.
-/

namespace OsCoursework.Allocator

open OsCoursework.Bytes
open OsCoursework.Dyadic

/-! ## What is left of the block -/

section Carving

variable {root : Block} {s : State} {H H' : Tiling root maxBlockOrder}
  {o : Outside} {big b : Block} {r : ℕ}

theorem Carves.addr_eq (h : Carves H r H' big b) : addr b = addr big := by
  obtain ⟨H₁, hb, hsplits, -⟩ := h.splits
  rw [addr, addr, hsplits.first_eq]

/-- Carving leaves the other free blocks and one upper half of each order from
the required one up. -/
theorem Carves.free_eq (h : Carves H r H' big b) :
    H'.free = H.free.erase big ∪
      (Finset.Ico r big.order).image big.rightAt := by
  have hwithin := h.within
  obtain ⟨H₁, hb, hsplits, rfl⟩ := h.splits
  obtain rfl := h.order_eq
  have hnot : b ∉ H.free.erase big ∪
      (Finset.Ico b.order big.order).image big.rightAt := by
    rw [Finset.mem_union, not_or]
    constructor
    · intro hmem
      obtain ⟨hne, hfree⟩ := Finset.mem_erase.mp hmem
      exact hne (H.eq_of_within (Tiling.mem_free.mp hfree).1
        (Tiling.mem_free.mp h.big_free).1 hwithin)
    · intro hmem
      obtain ⟨i, hi, heq⟩ := Finset.mem_image.mp hmem
      have hfirst := Block.rightAt_first
        (Nat.le_of_lt (Finset.mem_Ico.mp hi).2)
      have hpos : 0 < 2 ^ i := Nat.two_pow_pos i
      rw [heq, hsplits.first_eq] at hfirst
      omega
  rw [Tiling.free_take, hsplits.free_eq h.big_free, Finset.erase_insert hnot]

theorem addr_rightAt {i : ℕ} (h : i ≤ big.order) :
    addr (big.rightAt i) = addr big + blockSizeByOrder i := by
  rw [addr, addr, Block.rightAt_first h, blockSizeByOrder, Nat.mul_add]

/-- The free blocks of a layout are the free tiles. -/
theorem Rep.freeBlocks_eq (h : Rep s H o) :
    freeBlocks s (layoutBlocks H) =
      H.free.image fun t => (addr t, t.order) := by
  ext x
  rw [freeBlocks, Finset.mem_filter, Finset.mem_image, mem_layoutBlocks]
  constructor
  · rintro ⟨⟨t, ht, rfl⟩, hfree⟩
    rw [h.isFree_eq t ht, decide_eq_true_eq] at hfree
    exact ⟨t, Tiling.mem_free.mpr ⟨ht, hfree⟩, rfl⟩
  · rintro ⟨t, ht, rfl⟩
    exact ⟨⟨t, (Tiling.mem_free.mp ht).1, rfl⟩, h.isFree_of_free ht⟩

theorem Carves.freeBlocks_eq {s' : State} {o' : Outside}
    (h : Carves H r H' big b) (hrep : Rep s H o) (hrep' : Rep s' H' o') :
    freeBlocks s' (layoutBlocks H') =
      (freeBlocks s (layoutBlocks H)).erase (addr big, big.order) ∪
        (Finset.Ico r big.order).image fun i =>
          (addr big + blockSizeByOrder i, i) := by
  have hrights : (Finset.Ico r big.order).image
        (fun i => (addr (big.rightAt i), (big.rightAt i).order)) =
      (Finset.Ico r big.order).image fun i =>
        (addr big + blockSizeByOrder i, i) := by
    apply Finset.image_congr
    intro i hi
    exact Prod.ext (addr_rightAt (Nat.le_of_lt (Finset.mem_Ico.mp hi).2)) rfl
  rw [hrep'.freeBlocks_eq, hrep.freeBlocks_eq, h.free_eq, Finset.image_union,
    Finset.image_erase addr_order_injective, Finset.image_image, ← hrights]
  rfl

end Carving

/-! ## The placement -/

/-- The call that took `s` to `s'` cut the block of order `r` at `a` out of the
free block of order `j` there, where `B` and `L` are the blocks and the lists
before the call. -/
structure TightestFit (s s' : State) (B : Finset (ℕ × ℕ)) (L : ℕ → List ℕ)
    (size a r j : ℕ) : Prop where
  required : getRequiredOrder size = r
  order_le : r ≤ j ∧ j ≤ maxBlockOrder
  lower_empty : ∀ i, r ≤ i → i < j → L i = []
  mem : a ∈ L j
  lowest : ∀ d ∈ L j, a ≤ d
  found : findOrder s loopBound r = some (j : ℤ)
  rounds : ∃ s₁, SplitRounds size s j (j - r) s₁ ∧
    splitLoop size loopBound s j = some s₁ ∧ s₁.freeBlocksList r = a
  order_eq : getBlockOrder s'.mem a = r
  taken : isFree s'.mem a = false
  remainder : ∃ B' L', HeapLayout s' B' L' ∧ (a, r) ∈ B' ∧
    freeBlocks s' B' = (freeBlocks s B).erase (a, j) ∪
      (Finset.Ico r j).image fun i => (a + blockSizeByOrder i, i)

section Fit

variable {root : Block} {s s' : State} {H H' : Tiling root maxBlockOrder}
  {o o' : Outside} {big b : Block} {r size : ℕ}

theorem Carves.tightestFit (h : Carves H r H' big b) (hfits : Fits size r)
    (hr : r ≤ maxBlockOrder) (hrep : Rep s H o) (hrep' : Rep s' H' o')
    (hloops : LoopsTo s size r big b) {B : Finset (ℕ × ℕ)} {L : ℕ → List ℕ}
    (hlayout : HeapLayout s B L) :
    TightestFit s s' B L size (addr b) r big.order := by
  obtain ⟨rfl, hlists⟩ := hrep.layout_eq hlayout
  obtain ⟨L', hlayout', -⟩ := hrep'.heapLayout
  have hbig := (Tiling.mem_free.mp h.big_free).1
  have hle := H.order_le big hbig
  have hrle : r ≤ big.order := h.order_eq ▸ h.within.1
  refine
    { required := getRequiredOrder_eq hr hfits
      order_le := ⟨hrle, hle⟩
      lower_empty := ?_
      mem := ?_
      lowest := ?_
      found := hloops.found
      rounds := ?_
      order_eq := ?_
      taken := hrep'.isFree_of_used ?_
      remainder := ⟨layoutBlocks H', L', hlayout', ?_, ?_⟩ }
  · intro i hri hi
    apply List.eq_nil_iff_forall_not_mem.mpr
    intro a ha
    obtain ⟨t, ht, rfl, -⟩ := (mem_freeAddrs H).mp
      ((hlists i (Nat.le_of_lt (Nat.lt_of_lt_of_le hi hle)) a).mp ha)
    have hmin := h.big_order t ht hri
    omega
  · rw [hlists _ hle, h.addr_eq]
    exact (mem_freeAddrs H).mpr ⟨big, h.big_free, rfl, rfl⟩
  · intro d hd
    obtain ⟨t, ht, horder, rfl⟩ :=
      (mem_freeAddrs H).mp ((hlists _ hle d).mp hd)
    rw [h.addr_eq]
    exact h.big_first t ht horder
  · obtain ⟨s₁, hrounds, hhead⟩ := hloops.rounds
    have hfuel : big.order - r < loopBound := by
      rw [maxBlockOrder] at hle
      rw [loopBound]
      omega
    exact ⟨s₁, hrounds, hrounds.splitLoop_eq hle hfuel, hhead⟩
  · rw [hrep'.getBlockOrder_eq h.mem_tiles, h.order_eq]
  · rw [h.used_eq]
    exact Finset.mem_insert_self _ _
  · exact mem_layoutBlocks.mpr ⟨b, h.mem_tiles, Prod.ext rfl h.order_eq⟩
  · rw [h.freeBlocks_eq hrep hrep', h.addr_eq]

end Fit

/-- Every request below the `mmap` limit that is served is served by the lowest
part of the lowest block of the first nonempty list. -/
theorem smalloc_tightestFit (w : World) (hreach : Reachable w)
    (hinit : w.st.initialized = true) (B : Finset (ℕ × ℕ)) (L : ℕ → List ℕ)
    (hlayout : HeapLayout w.st B L) (env : Env) (size : ℕ)
    (hsmall : size + sizeofMetaData ≤ mmapMinLimit) (s' : State) (p : ℕ)
    (hrun : smalloc env w.st size = some (s', p)) (hp : p ≠ 0) :
    ∃ a r j, p = a + sizeofMetaData ∧ TightestFit w.st s' B L size a r j := by
  obtain ⟨root, H, c, h⟩ := hreach.ready hinit
  have hensure := ensureHeap_of_initialized env hinit
  have hsplit : splitBlockBuddy w.st size = some (s', p) := by
    rcases smalloc_cases env w.st size with hnull | ⟨a, -, hlarge, -⟩ | hcase
    · rw [hnull] at hrun
      exact absurd (Prod.mk.inj (Option.some.inj hrun)).2.symm hp
    · omega
    · rw [← hrun, hcase.2.2, hensure]
  obtain ⟨r, hr, hfits⟩ := exists_fits hsmall
  rcases splitBlockBuddy_spec hfits hr h.rep with
    ⟨-, hnull⟩ | ⟨s₁, H', big, b, hrun', hrep', hcarves, -, hloops⟩
  · rw [hnull] at hsplit
    exact absurd (Prod.mk.inj (Option.some.inj hsplit)).2.symm hp
  · rw [hrun'] at hsplit
    obtain ⟨rfl, rfl⟩ := Prod.mk.inj (Option.some.inj hsplit)
    exact ⟨addr b, r, big.order, rfl,
      hcarves.tightestFit hfits hr h.rep hrep' hloops hlayout⟩

theorem smalloc_tightestFit_oneBlock :
    ∃ B L s' a r j, HeapLayout oneBlock.st B L ∧
      smalloc noMmap oneBlock.st 200 = some (s', 4194592) ∧
      4194592 = a + sizeofMetaData ∧
      TightestFit oneBlock.st s' B L 200 a r j := by
  obtain ⟨B, L, hlayout⟩ :=
    oneBlock_reachable.exists_layout oneBlock_initialized
  obtain ⟨⟨s', p⟩, hrun, rfl⟩ := Option.map_eq_some_iff.mp oneBlock_smalloc.1
  obtain ⟨a, r, j, heq, hfit⟩ := smalloc_tightestFit oneBlock oneBlock_reachable
    oneBlock_initialized B L hlayout noMmap 200 (by decide) s' _ hrun (by decide)
  exact ⟨B, L, s', a, r, j, hlayout, hrun, heq, hfit⟩

end OsCoursework.Allocator
