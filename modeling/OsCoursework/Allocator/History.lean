import OsCoursework.Allocator.Statistics

/-!
# History independence

A coalesced tiling is determined by its used tiles, so what the free lists hold
depends on the live heap blocks alone and not on the calls that led to them.
Freeing in any order, freeing what was just allocated and freeing everything are
special cases.
-/

namespace OsCoursework.Allocator

open OsCoursework.Bytes
open OsCoursework.Dyadic

/-- The heap blocks among `B` that the client holds. -/
def liveHeapBlocks (w : World) (B : Finset (ℕ × ℕ)) : Finset (ℕ × ℕ) :=
  B.filter fun x => x.1 + sizeofMetaData ∈ w.live

/-- The free list of order `k` as `initHeap` builds it. -/
def initialList (base k : ℕ) : List ℕ :=
  if k = maxBlockOrder then firstBlocks base numInitialBlocks else []

/-- The eleven lists of the state are `L`. -/
def HasLists (s : State) (L : ℕ → List ℕ) : Prop :=
  ∀ k ≤ maxBlockOrder, FreeList s.mem (s.freeBlocksList k) (L k)

/-- The five statistics of the two states agree. -/
structure SameStatistics (s s' : State) : Prop where
  freeBlocks : numFreeBlocks s' = numFreeBlocks s
  freeBytes : numFreeBytes s' = numFreeBytes s
  allocatedBlocks : numAllocatedBlocks s' = numAllocatedBlocks s
  allocatedBytes : numAllocatedBytes s' = numAllocatedBytes s
  metaDataBytes : numMetaDataBytes s' = numMetaDataBytes s

/-- Free the given pointers one after the other. -/
def sfreeAll (env : ℕ → Env) (s : State) (ps : List ℕ) : Option State :=
  ps.foldlM (fun s p => sfree (env p) s p) s

/-! ## One tiling, one family of lists -/

section Lists

variable {root : Block} {H H' : Tiling root maxBlockOrder} {s s' : State}
  {o o' : Outside} {L L' : ℕ → List ℕ}

theorem sorted_ext {l l' : List ℕ} (h : l.Pairwise (· < ·))
    (h' : l'.Pairwise (· < ·)) (hmem : ∀ a, a ∈ l ↔ a ∈ l') : l = l' := by
  have hnodup {l : List ℕ} (h : l.Pairwise (· < ·)) : l.Nodup :=
    h.imp fun hlt => Nat.ne_of_lt hlt
  exact ((List.perm_ext_iff_of_nodup (hnodup h) (hnodup h')).mpr hmem).eq_of_pairwise
    (fun a b _ _ hab hba => absurd hab (Nat.lt_asymm hba)) h h'

/-- The lists of a represented state are the sorted free addresses. -/
theorem Rep.list_eq (h : Rep s H o) (hL : HasLists s L) {k : ℕ}
    (hk : k ≤ maxBlockOrder) {l : List ℕ} (hsorted : l.Pairwise (· < ·))
    (hmem : ∀ a, a ∈ l ↔ a ∈ freeAddrs H k) : L k = l := by
  obtain ⟨l', hl', hmem'⟩ := h.lists.list k hk
  rw [(hL k hk).unique hl']
  apply sorted_ext hl'.sorted hsorted
  intro a
  rw [hmem', hmem]

/-- Two states that represent one tiling have the same lists. -/
theorem Rep.lists_transfer (h : Rep s H o) (h' : Rep s' H o')
    (hL : HasLists s L) : HasLists s' L := by
  intro k hk
  obtain ⟨l', hl', hmem'⟩ := h'.lists.list k hk
  rwa [h.list_eq hL hk hl'.sorted hmem']

/-- Two states that represent one tiling with the same blocks outside the heap
have the same statistics. -/
theorem Rep.sameStatistics (h : Rep s H o) (h' : Rep s' H o) :
    SameStatistics s s' := by
  obtain ⟨L, hlayout, -⟩ := h.heapLayout
  obtain ⟨L', hlayout', -⟩ := h'.heapLayout
  obtain ⟨hblocks, hbytes⟩ := hlayout.numFree_eq
  obtain ⟨hblocks', hbytes'⟩ := hlayout'.numFree_eq
  have hfree : freeBlocks s' (layoutBlocks H) = freeBlocks s (layoutBlocks H) := by
    apply Finset.filter_congr
    intro x hx
    obtain ⟨b, hb, rfl⟩ := mem_layoutBlocks.mp hx
    rw [h.isFree_eq b hb, h'.isFree_eq b hb]
  have hsum : ∑ x ∈ freeBlocks s (layoutBlocks H), getSize s'.mem x.1 =
      ∑ x ∈ freeBlocks s (layoutBlocks H), getSize s.mem x.1 := by
    apply Finset.sum_congr rfl
    intro x hx
    obtain ⟨b, hb, rfl⟩ := mem_layoutBlocks.mp (Finset.mem_filter.mp hx).1
    rw [h.size_eq b hb, h'.size_eq b hb]
  refine ⟨?_, ?_, ?_, ?_, ?_⟩
  · rw [hblocks, hblocks', hfree]
  · rw [hbytes, hbytes', hfree, hsum]
  · exact h'.blocks_eq.trans h.blocks_eq.symm
  · exact h'.bytes_eq.trans h.bytes_eq.symm
  · rw [numMetaDataBytes, numMetaDataBytes, h'.meta_eq, h.meta_eq,
      h'.blocks_eq, h.blocks_eq]

end Lists

/-! ## Live heap blocks -/

section Live

variable {root : Block} {w : World} {H : Tiling root maxBlockOrder}
  {c : Outside}

/-- The live heap blocks are the used tiles. -/
theorem Ready.liveHeapBlocks_eq (h : Ready w H c) :
    liveHeapBlocks w (layoutBlocks H) =
      H.used.image fun b => (addr b, b.order) := by
  ext x
  rw [liveHeapBlocks, Finset.mem_filter, mem_layoutBlocks, Finset.mem_image]
  constructor
  · rintro ⟨⟨b, hb, rfl⟩, hlive⟩
    refine ⟨b, ?_, rfl⟩
    rcases h.live_iff hlive with ⟨t, ht, heq⟩ | ⟨a, ha, heq⟩
    · rwa [tile_addr_inj H hb (H.used_subset ht) (Nat.add_right_cancel heq)]
    · exact absurd (Nat.add_right_cancel heq) (h.tile_ne_map hb ha)
  · rintro ⟨b, hb, rfl⟩
    exact ⟨⟨b, H.used_subset hb, rfl⟩,
      h.used_live _ (Finset.mem_image_of_mem _ hb)⟩

/-- Heaps at the same base have the same root. -/
theorem HeapRoot.eq_of_addr {root root' : Block} (h : HeapRoot root)
    (h' : HeapRoot root') (haddr : addr root = addr root') : root = root' :=
  addr_order_injective (Prod.ext haddr (h.order_eq.trans h'.order_eq.symm))

end Live

/-! ## Sequences of calls -/

section Calls

variable {root : Block} {H : Tiling root maxBlockOrder} {s : State}
  {o : Outside}

/-- Freeing some of the used tiles leaves the coalesced tiling of the others. -/
theorem sfreeAll_eq (env : ℕ → Env) (h : Rep s H o) (hc : H.Coalesced)
    {ps : List ℕ} (hnodup : ps.Nodup)
    (hps : ∀ p ∈ ps, ∃ b ∈ H.used, p = addr b + sizeofMetaData) :
    ∃ s', ∃ H' : Tiling root maxBlockOrder, sfreeAll env s ps = some s' ∧
      Rep s' H' o ∧ H'.Coalesced ∧
      H'.used = H.used.filter fun b => addr b + sizeofMetaData ∉ ps := by
  induction ps generalizing s H with
  | nil => exact ⟨s, H, rfl, h, hc, by simp⟩
  | cons p ps ih =>
      obtain ⟨b, hb, rfl⟩ := hps p (by simp)
      obtain ⟨hnot, hnodup⟩ := List.nodup_cons.mp hnodup
      obtain ⟨s₁, H₁, hrun, hrep, hfrees, -⟩ :=
        sfree_of_used (env (addr b + sizeofMetaData)) h hb
      -- The remaining pointers lead to tiles other than `b`.
      have hps₁ : ∀ p ∈ ps, ∃ d ∈ H₁.used, p = addr d + sizeofMetaData := by
        intro p hp
        obtain ⟨d, hd, rfl⟩ := hps p (List.mem_cons_of_mem _ hp)
        refine ⟨d, ?_, rfl⟩
        rw [hfrees.used_eq]
        refine Finset.mem_erase.mpr ⟨?_, hd⟩
        rintro rfl
        exact hnot hp
      obtain ⟨s₂, H₂, hrest, hrep₂, hc₂, hused₂⟩ :=
        ih hrep (hfrees.coalesced hc) hnodup hps₁
      refine ⟨s₂, H₂, ?_, hrep₂, hc₂, ?_⟩
      · rw [sfreeAll, List.foldlM_cons, hrun]
        exact hrest
      · rw [hused₂, hfrees.used_eq]
        ext d
        simp only [Finset.mem_filter, Finset.mem_erase, List.mem_cons, not_or]
        constructor
        · rintro ⟨⟨hne, hd⟩, hd'⟩
          refine ⟨hd, ?_, hd'⟩
          intro heq
          exact hne (tile_addr_inj H (H.used_subset hd) (H.used_subset hb)
            (Nat.add_right_cancel heq))
        · rintro ⟨hd, hne, hd'⟩
          refine ⟨⟨?_, hd⟩, hd'⟩
          rintro rfl
          exact hne rfl

/-- The order in which used tiles are freed does not matter. -/
theorem Rep.sfreeAll_perm (h : Rep s H o) (hc : H.Coalesced)
    (env env' : ℕ → Env) {ps qs : List ℕ} (hnodup : ps.Nodup)
    (hperm : qs.Perm ps)
    (hps : ∀ p ∈ ps, ∃ b ∈ H.used, p = addr b + sizeofMetaData) :
    ∃ s₁ s₂ L, sfreeAll env s ps = some s₁ ∧ sfreeAll env' s qs = some s₂ ∧
      HasLists s₁ L ∧ HasLists s₂ L := by
  obtain ⟨s₁, H₁, hrun₁, hrep₁, hc₁, hused₁⟩ :=
    sfreeAll_eq env h hc hnodup hps
  obtain ⟨s₂, H₂, hrun₂, hrep₂, hc₂, hused₂⟩ :=
    sfreeAll_eq env' h hc (hperm.nodup_iff.mpr hnodup)
      fun p hp => hps p (hperm.mem_iff.mp hp)
  obtain rfl : H₂ = H₁ := by
    apply Tiling.eq_of_used_eq hc₂ hc₁
    rw [hused₁, hused₂]
    simp only [hperm.mem_iff]
  obtain ⟨L, hlayout, -⟩ := hrep₁.heapLayout
  exact ⟨s₁, s₂, L, hrun₁, hrun₂, hlayout.freeList,
    hrep₁.lists_transfer hrep₂ hlayout.freeList⟩

/-- `smalloc` that returns a heap pointer, and `sfree` of it. -/
theorem sfree_smalloc_eq {w : World} {c : Outside} (h : Ready w H c)
    {env : Env} (hvalid : env.Valid w.st) (env' : Env) {size p : ℕ} {s₁ : State}
    (hrun : smalloc env w.st size = some (s₁, p)) (hp0 : p ≠ 0)
    (hheap : p ∈ heapBytes w.st.heapBaseAligned) :
    ∃ s₂, sfree env' s₁ p = some s₂ ∧ Rep s₂ H (outside c w.st) := by
  have hensure := ensureHeap_of_initialized env h.initialized
  have hcases := smalloc_cases env w.st size
  rw [hensure, hrun] at hcases
  rcases hcases with hnull | ⟨a, -, hlarge, hmmap, hmap⟩ | ⟨-, hsmall, hsplit⟩
  · exact absurd (Prod.mk.inj (Option.some.inj hnull)).2 hp0
  · -- Mappings are not heap pointers.
    have hpa := (Prod.mk.inj (Option.some.inj hmap)).2
    have hfresh := hvalid.mmap_fresh _ _ hmmap
    rw [hensure] at hfresh
    refine absurd hheap (Set.disjoint_left.mp
      (hfresh.off_heap h.initialized) ⟨?_, ?_⟩)
    · omega
    · rw [mmapMinLimit, sizeofMetaData] at hlarge
      omega
  · obtain ⟨r, hr, hfits⟩ := exists_fits hsmall
    rcases splitBlockBuddy_eq hfits hr h.rep with
      ⟨-, hrun'⟩ | ⟨s', H', big, b, hrun', hrep, hcarves, -⟩
    · rw [hrun'] at hsplit
      exact absurd (Prod.mk.inj (Option.some.inj hsplit)).2 hp0
    · rw [hrun'] at hsplit
      obtain ⟨rfl, rfl⟩ := Prod.mk.inj (Option.some.inj hsplit)
      have hb : b ∈ H'.used := by
        rw [hcarves.used_eq]
        exact Finset.mem_insert_self _ _
      obtain ⟨s₂, H₂, hfree, hrep₂, hfrees, -⟩ := sfree_of_used env' hrep hb
      have hused : H₂.used = H.used := by
        rw [hfrees.used_eq, hcarves.used_eq,
          Finset.erase_insert hcarves.not_mem_used]
      have hH : H₂ = H := Tiling.eq_of_used_eq
        (hfrees.coalesced (hcarves.coalesced h.coalesced)) h.coalesced hused
      exact ⟨s₂, hfree, hH ▸ hrep₂⟩

theorem firstBlocks_sorted (base n : ℕ) :
    (firstBlocks base n).Pairwise (· < ·) := by
  refine List.Pairwise.map _ ?_ List.pairwise_lt_range
  intro i j hij
  exact Nat.add_lt_add_left (Nat.mul_lt_mul_of_pos_right hij (by decide)) base

/-- With nothing used, the lists are the initial ones. -/
theorem Rep.lists_initial (h : Rep s H o) (hc : H.Coalesced)
    (hused : H.used = ∅) : HasLists s (initialList s.heapBaseAligned) := by
  have horder := h.heapRoot.order_eq
  obtain rfl : H = initialTiling root horder :=
    Tiling.eq_of_used_eq hc (initialTiling_coalesced _) hused
  intro k hk
  obtain ⟨l, hl, hmem⟩ := h.lists.list k hk
  have heq : l = initialList s.heapBaseAligned k := by
    refine sorted_ext hl.sorted ?_ ?_
    · rw [initialList]
      split
      · exact firstBlocks_sorted _ _
      · exact List.Pairwise.nil
    · intro a
      rw [hmem, freeAddrs_initialTiling, initialList, h.base_eq]
      split
      · rw [mem_firstBlocks]
        simp
      · simp
  rwa [← heq]

end Calls

/-- The lists a successful `initHeap` leaves. -/
theorem Unready.lists_initial {w : World} {env : Env} (h : Unready w)
    (hvalid : env.Valid w.st) (hsbrk : env.sbrk = true) :
    HasLists (Allocator.initHeap env w.st)
      (initialList (Allocator.initHeap env w.st).heapBaseAligned) := by
  obtain ⟨hready, -⟩ := h.initHeap hvalid hsbrk
  have hrep := hready.rep
  rw [ensureHeap_of_not_initialized env h.initialized] at hrep
  exact hrep.lists_initial (initialTiling_coalesced _) rfl

/-! ## Reachable heaps -/

/-- Worlds on heaps at one base with the same live heap blocks represent the
same tiling. -/
theorem Ready.lists_eq {root root' : Block} {w w' : World}
    {H : Tiling root maxBlockOrder} {H' : Tiling root' maxBlockOrder}
    {c c' : Outside} (h : Ready w H c) (h' : Ready w' H' c')
    (hbase : w'.st.heapBaseAligned = w.st.heapBaseAligned)
    (hlive : liveHeapBlocks w' (layoutBlocks H') =
      liveHeapBlocks w (layoutBlocks H)) {L L' : ℕ → List ℕ}
    (hL : HasLists w.st L) (hL' : HasLists w'.st L') :
    ∀ k ≤ maxBlockOrder, L' k = L k := by
  obtain rfl : root = root' := by
    apply h.rep.heapRoot.eq_of_addr h'.rep.heapRoot
    rw [← h.rep.base_eq, ← h'.rep.base_eq, hbase]
  rw [h.liveHeapBlocks_eq, h'.liveHeapBlocks_eq] at hlive
  obtain rfl : H' = H := Tiling.eq_of_used_eq h'.coalesced h.coalesced
    (Finset.image_injective addr_order_injective hlive)
  intro k hk
  exact (hL' k hk).unique (h.rep.lists_transfer h'.rep hL k hk)

/-- The free lists are a function of the base and of the live heap blocks.  So
the order of frees does not matter, `sfree` undoes `smalloc`, and a heap without
live blocks is as `initHeap` left it. -/
theorem history_independence (w : World) (hreach : Reachable w)
    (hinit : w.st.initialized = true) (B : Finset (ℕ × ℕ)) (L : ℕ → List ℕ)
    (hlayout : HeapLayout w.st B L) :
    (∀ w' B' L', Reachable w' → w'.st.initialized = true →
      HeapLayout w'.st B' L' →
      w'.st.heapBaseAligned = w.st.heapBaseAligned →
      liveHeapBlocks w' B' = liveHeapBlocks w B →
        ∀ k ≤ maxBlockOrder, L' k = L k) ∧
    (∀ (ps qs : List ℕ) (env env' : ℕ → Env), ps.Nodup → qs.Perm ps →
      (∀ p ∈ ps, ∃ x ∈ liveHeapBlocks w B, p = x.1 + sizeofMetaData) →
        ∃ s₁ s₂ L₁, sfreeAll env w.st ps = some s₁ ∧
          sfreeAll env' w.st qs = some s₂ ∧ HasLists s₁ L₁ ∧
          HasLists s₂ L₁) ∧
    (∀ env env' size s₁ p, env.Valid w.st →
      smalloc env w.st size = some (s₁, p) → p ≠ 0 →
      p ∈ heapBytes w.st.heapBaseAligned →
        ∃ s₂, sfree env' s₁ p = some s₂ ∧ HasLists s₂ L ∧
          SameStatistics w.st s₂) ∧
    (liveHeapBlocks w B = ∅ →
      (∀ k ≤ maxBlockOrder, L k = initialList w.st.heapBaseAligned k) ∧
      ∀ w₀ env, Reachable w₀ → w₀.st.initialized = false →
        env.Valid w₀.st → env.sbrk = true →
        (initHeap env w₀.st).heapBaseAligned = w.st.heapBaseAligned →
          HasLists (initHeap env w₀.st) L) := by
  obtain ⟨root, H, c, h⟩ := hreach.ready hinit
  obtain ⟨rfl, -⟩ := h.rep.layout_eq hlayout
  have hL : HasLists w.st L := hlayout.freeList
  refine ⟨?_, ?_, ?_, ?_⟩
  · intro w' B' L' hreach' hinit' hlayout' hbase hlive
    obtain ⟨root', H', c', h'⟩ := hreach'.ready hinit'
    obtain ⟨rfl, -⟩ := h'.rep.layout_eq hlayout'
    exact h.lists_eq h' hbase hlive hL hlayout'.freeList
  · intro ps qs env env' hnodup hperm hps
    have hps' : ∀ p ∈ ps, ∃ b ∈ H.used, p = addr b + sizeofMetaData := by
      intro p hp
      obtain ⟨x, hx, rfl⟩ := hps p hp
      rw [h.liveHeapBlocks_eq] at hx
      obtain ⟨b, hb, rfl⟩ := Finset.mem_image.mp hx
      exact ⟨b, hb, rfl⟩
    exact h.rep.sfreeAll_perm h.coalesced env env' hnodup hperm hps'
  · intro env env' size s₁ p hvalid hrun hp0 hheap
    obtain ⟨s₂, hfree, hrep⟩ :=
      sfree_smalloc_eq h hvalid env' hrun hp0 hheap
    exact ⟨s₂, hfree, h.rep.lists_transfer hrep hL, h.rep.sameStatistics hrep⟩
  · intro hnone
    have hused : H.used = ∅ := by
      rw [h.liveHeapBlocks_eq] at hnone
      exact Finset.image_eq_empty.mp hnone
    have hinitial : ∀ k ≤ maxBlockOrder,
        L k = initialList w.st.heapBaseAligned k := by
      intro k hk
      exact (hL k hk).unique (h.rep.lists_initial h.coalesced hused k hk)
    refine ⟨hinitial, ?_⟩
    intro w₀ env hreach₀ hinit₀ hvalid hsbrk hbase k hk
    rw [hinitial k hk, ← hbase]
    exact (hreach₀.unready hinit₀).lists_initial hvalid hsbrk k hk

/-- `smalloc(200)` in `oneBlock` returns a heap pointer. -/
theorem oneBlock_smalloc :
    ((smalloc noMmap oneBlock.st 200).map fun r => r.2) = some 4194592 ∧
      oneBlock.st.heapBaseAligned = 4194304 := by
  decide +kernel

theorem history_independence_oneBlock :
    ∃ B L, HeapLayout oneBlock.st B L ∧
      ∃ s₁ p s₂, smalloc noMmap oneBlock.st 200 = some (s₁, p) ∧
        sfree noMmap s₁ p = some s₂ ∧ HasLists s₂ L ∧
        SameStatistics oneBlock.st s₂ := by
  obtain ⟨B, L, hlayout⟩ :=
    oneBlock_reachable.exists_layout oneBlock_initialized
  obtain ⟨hrun, hbase⟩ := oneBlock_smalloc
  obtain ⟨⟨s₁, p⟩, hrun, rfl⟩ := Option.map_eq_some_iff.mp hrun
  obtain ⟨-, -, hundo, -⟩ := history_independence oneBlock oneBlock_reachable
    oneBlock_initialized B L hlayout
  refine ⟨B, L, hlayout, s₁, 4194592, ?_⟩
  obtain ⟨s₂, hfree, hlists, hstats⟩ :=
    hundo noMmap noMmap 200 s₁ 4194592 oneBlock_valid hrun (by decide) (by
      rw [hbase]
      exact ⟨by decide, by decide⟩)
  exact ⟨s₂, hrun, hfree, hlists, hstats⟩

end OsCoursework.Allocator
