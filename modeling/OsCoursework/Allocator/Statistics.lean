import Mathlib.Algebra.Order.BigOperators.Group.Finset
import OsCoursework.Allocator.Layout

/-!
# The statistics

The three counters are maintained step by step; the two free figures are
recomputed from the lists.  From a first `smalloc` whose `initHeap` succeeds on,
both agree with what the blocks in memory add up to.
-/

namespace OsCoursework.Allocator

open OsCoursework.Bytes
open OsCoursework.Dyadic
open OsCoursework.LinkedList

/-! ## The recomputed figures -/

/-- Walking a free list adds up the weights of its members. -/
theorem countLoop_eq {m : Mem} {head x fuel : ℕ} {l : List ℕ}
    {weight : ℕ → ℕ} {total : UInt64}
    (hlinked : Linked 0 (headed m head) (getPrev m) x l)
    (hpos : ∀ a ∈ l, a ≠ 0) (hfuel : l.length < fuel) :
    countLoop m weight fuel (l.headD 0) total =
      some (total + UInt64.ofNat (l.map weight).sum) := by
  induction l generalizing x fuel total with
  | nil =>
      obtain ⟨fuel, rfl⟩ : ∃ f, fuel = f + 1 := ⟨fuel - 1, by omega⟩
      simp [countLoop]
  | cons a l ih =>
      obtain ⟨fuel, rfl⟩ : ∃ f, fuel = f + 1 := ⟨fuel - 1, by omega⟩
      have ha0 : a ≠ 0 := hpos a (by simp)
      obtain ⟨-, -, hrest⟩ := hlinked
      have hnext : getNext m a = l.headD 0 := by
        rw [← headed_of_ne m head ha0, hrest.next_eq]
      have htail : l.length < fuel := by
        simpa using hfuel
      rw [List.headD_cons, countLoop, if_neg ha0, hnext,
        ih hrest (fun c hc => hpos c (List.mem_cons_of_mem a hc)) htail,
        List.map_cons, List.sum_cons, UInt64.ofNat_add, UInt64.add_assoc]

theorem FreeList.count_eq {m : Mem} {head : ℕ} {l : List ℕ}
    (h : FreeList m head l) (weight : ℕ → ℕ) (total : UInt64) :
    countLoop m weight loopBound head total =
      some (total + UInt64.ofNat (l.map weight).sum) := by
  rw [h.head_eq]
  exact countLoop_eq h.linked (fun a ha => (h.slot a ha).ne_zero)
    h.length_lt_loopBound

/-- Adding up one list after the other. -/
theorem foldlM_count {g : UInt64 → ℕ → Option UInt64} {t : ℕ → ℕ}
    {orders : List ℕ} {total : UInt64}
    (h : ∀ k ∈ orders, ∀ total, g total k = some (total + UInt64.ofNat (t k))) :
    orders.foldlM g total =
      some (total + UInt64.ofNat (orders.map t).sum) := by
  induction orders generalizing total with
  | nil => simp
  | cons k orders ih =>
      rw [List.foldlM_cons, h k (by simp)]
      simp only [Option.bind_eq_bind, Option.bind_some]
      rw [ih fun j hj => h j (List.mem_cons_of_mem k hj), List.map_cons,
        List.sum_cons, UInt64.ofNat_add, UInt64.add_assoc]

/-- The blocks of a layout whose flag says free. -/
def freeBlocks (s : State) (B : Finset (ℕ × ℕ)) : Finset (ℕ × ℕ) :=
  B.filter fun x => isFree s.mem x.1 = true

namespace HeapLayout

variable {s : State} {B : Finset (ℕ × ℕ)} {L : ℕ → List ℕ}

/-- The members of the list of order `k` are the free blocks of that order. -/
theorem mem_freeBlocks_iff (h : HeapLayout s B L) {a k : ℕ}
    (hk : k ≤ maxBlockOrder) : (a, k) ∈ freeBlocks s B ↔ a ∈ L k := by
  rw [freeBlocks, Finset.mem_filter]
  constructor
  · rintro ⟨hmem, hfree⟩
    exact List.count_pos_iff.mp (by
      rw [((h.isFree_iff _ hmem).mp hfree).1]
      exact Nat.one_pos)
  · intro ha
    have hmem := h.listed k hk a ha
    refine ⟨hmem, (h.isFree_iff _ hmem).mpr ⟨?_, ?_⟩⟩
    · exact List.count_eq_one_of_mem
        ((h.freeList k hk).sorted.imp fun hlt => Nat.ne_of_lt hlt) ha
    · intro j hj hne hj'
      have heq := h.eq_of_mem (h.listed j hj a hj') hmem (start_mem (a, j))
        (start_mem (a, k))
      exact hne (congrArg Prod.snd heq)

/-- Adding up along the lists is adding up over the free blocks. -/
theorem sum_lists (h : HeapLayout s B L) (weight : ℕ → ℕ) :
    ((List.range (maxBlockOrder + 1)).map
        fun k => ((L k).map weight).sum).sum =
      ∑ x ∈ freeBlocks s B, weight x.1 := by
  have hlist {k : ℕ} (hk : k ∈ Finset.range (maxBlockOrder + 1)) :
      ((L k).map weight).sum =
        ∑ x ∈ (freeBlocks s B).filter (fun x => x.2 = k), weight x.1 := by
    have hle : k ≤ maxBlockOrder := Nat.le_of_lt_succ (Finset.mem_range.mp hk)
    have hnodup : (L k).Nodup :=
      (h.freeList k hle).sorted.imp fun hlt => Nat.ne_of_lt hlt
    rw [← List.sum_toFinset weight hnodup]
    refine Finset.sum_bij' (fun a _ => (a, k)) (fun x _ => x.1) ?_ ?_ ?_ ?_ ?_
    · intro a ha
      rw [Finset.mem_filter, h.mem_freeBlocks_iff hle]
      exact ⟨List.mem_toFinset.mp ha, rfl⟩
    · rintro ⟨a, j⟩ hx
      obtain ⟨hmem, rfl⟩ := Finset.mem_filter.mp hx
      exact List.mem_toFinset.mpr ((h.mem_freeBlocks_iff hle).mp hmem)
    · intro a _
      rfl
    · rintro ⟨a, j⟩ hx
      obtain ⟨-, rfl⟩ := Finset.mem_filter.mp hx
      rfl
    · intro a _
      rfl
  have hmaps : ∀ x ∈ freeBlocks s B, x.2 ∈ Finset.range (maxBlockOrder + 1) := by
    intro x hx
    exact Finset.mem_range.mpr
      (Nat.lt_succ_of_le (h.order_le x (Finset.mem_filter.mp hx).1))
  rw [← Finset.sum_fiberwise_of_maps_to hmaps, ← Finset.sum_congr rfl
    fun k hk => hlist hk]
  rfl

/-- `_num_free_blocks` and `_num_free_bytes` count the free blocks. -/
theorem numFree_eq (h : HeapLayout s B L) :
    numFreeBlocks s = some (UInt64.ofNat (freeBlocks s B).card) ∧
      numFreeBytes s =
        some (UInt64.ofNat (∑ x ∈ freeBlocks s B, getSize s.mem x.1)) := by
  have hcount (weight : ℕ → ℕ) :
      (List.range (maxBlockOrder + 1)).foldlM (fun total k =>
        countLoop s.mem weight loopBound (s.freeBlocksList k) total) 0 =
      some (UInt64.ofNat (∑ x ∈ freeBlocks s B, weight x.1)) := by
    rw [← h.sum_lists weight]
    refine (foldlM_count ?_).trans (by rw [UInt64.zero_add])
    intro k hk total
    exact (h.freeList k (Nat.le_of_lt_succ (List.mem_range.mp hk))).count_eq
      weight total
  refine ⟨?_, hcount _⟩
  rw [Finset.card_eq_sum_ones]
  exact hcount fun _ => 1

end HeapLayout

/-! ## All blocks together -/

section Totals

variable {root : Block} {w : World} {H : Tiling root maxBlockOrder}
  {c : Outside}

theorem layoutBlocks_sum (H : Tiling root maxBlockOrder) (f : ℕ → ℕ) :
    ∑ x ∈ layoutBlocks H, f x.1 = ∑ b ∈ H.tiles, f (addr b) := by
  rw [layoutBlocks, Finset.sum_image]
  intro b hb d hd heq
  exact tile_addr_inj H hb hd (congrArg Prod.fst heq)

theorem layoutBlocks_card (H : Tiling root maxBlockOrder) :
    (layoutBlocks H).card = H.tiles.card := by
  rw [Finset.card_eq_sum_ones, Finset.card_eq_sum_ones]
  exact layoutBlocks_sum H fun _ => 1

/-- Headers and payloads of all blocks fit the address space, so nothing the
counters hold can overflow. -/
theorem Ready.total_lt (h : Ready w H c) :
    (∑ b ∈ H.tiles, getSize w.st.mem (addr b) +
        ∑ a ∈ w.st.mapped, getSize w.st.mem a) +
      sizeofMetaData * (H.tiles.card + w.st.mapped.card) < addressLimit := by
  let size (a : ℕ) : ℕ := getSize w.st.mem a + sizeofMetaData
  let S : Finset ℕ := H.tiles.image addr ∪ w.st.mapped
  have hstart {a : ℕ} (ha : a ∈ S) : BlockStart H w.st a := by
    rcases Finset.mem_union.mp ha with ha | ha
    · obtain ⟨t, ht, rfl⟩ := Finset.mem_image.mp ha
      exact Or.inl ⟨t, ht, rfl⟩
    · exact Or.inr ha
  have hle : ∑ a ∈ S, size a ≤ addressLimit - 1 := by
    refine sum_length_le 1 (addressLimit - 1) (a := fun a => a) ?_ ?_
    · intro a ha d hd hne
      exact h.starts_disjoint (hstart ha) (hstart hd) hne
    · intro a ha x hx
      rcases hstart ha with ⟨t, ht, rfl⟩ | ha
      · have hslot := h.rep.slot ht
        have hbounds := (tile_addr_bounds H h.rep.heapRoot ht).2
        have htop := h.rep.heapRoot.top_le
        have hpos := hslot.pos
        have hlow := hx.1
        have hhigh : x < addr t + blockSizeByOrder t.order := by
          rw [← usable_add, ← h.rep.size_eq t ht]
          exact hx.2
        exact ⟨by omega, by omega⟩
      · have hblock := h.maps.block a ha
        have hpos := hblock.slot.pos
        have htop := hblock.top_le
        have hlow := hx.1
        have hhigh : x < a + (getSize w.st.mem a + sizeofMetaData) := hx.2
        exact ⟨by omega, by omega⟩
  have hdisjoint : Disjoint (H.tiles.image addr) w.st.mapped := by
    refine Finset.disjoint_left.mpr fun a ha ha' => ?_
    obtain ⟨t, ht, rfl⟩ := Finset.mem_image.mp ha
    exact h.tile_ne_map ht ha' rfl
  have hsum : ∑ a ∈ S, size a =
      ∑ b ∈ H.tiles, size (addr b) + ∑ a ∈ w.st.mapped, size a := by
    rw [Finset.sum_union hdisjoint, Finset.sum_image]
    intro b hb d hd heq
    exact tile_addr_inj H hb hd heq
  have hsplit {ι : Type} (T : Finset ι) (f : ι → ℕ) : ∑ i ∈ T, size (f i) =
      ∑ i ∈ T, getSize w.st.mem (f i) + sizeofMetaData * T.card := by
    rw [Finset.sum_add_distrib, Finset.sum_const_nat fun _ _ => rfl,
      Nat.mul_comm]
  have hpos := addressLimit_pos
  rw [hsum, hsplit H.tiles addr, hsplit w.st.mapped fun a => a] at hle
  rw [Nat.mul_add]
  omega

theorem outside_zero (s : State) : outside ⟨0, 0⟩ s =
    ⟨UInt64.ofNat s.mapped.card,
      UInt64.ofNat (∑ a ∈ s.mapped, getSize s.mem a)⟩ := by
  rw [outside]
  simp only [UInt64.zero_add]

/-- With nothing left over, the counters are those of all blocks. -/
theorem Ready.counters_eq (h : Ready w H ⟨0, 0⟩) :
    (numAllocatedBlocks w.st).toNat = H.tiles.card + w.st.mapped.card ∧
      (numAllocatedBytes w.st).toNat =
        ∑ b ∈ H.tiles, getSize w.st.mem (addr b) +
          ∑ a ∈ w.st.mapped, getSize w.st.mem a ∧
      (numMetaDataBytes w.st).toNat =
        sizeofMetaData * (numAllocatedBlocks w.st).toNat := by
  have htotal := h.total_lt
  rw [addressLimit, sizeofMetaData] at htotal
  have hsizes : ∑ b ∈ H.tiles, usable b.order =
      ∑ b ∈ H.tiles, getSize w.st.mem (addr b) :=
    Finset.sum_congr rfl fun b hb => (h.rep.size_eq b hb).symm
  have hblocks : (numAllocatedBlocks w.st).toNat =
      H.tiles.card + w.st.mapped.card := by
    rw [numAllocatedBlocks, h.rep.blocks_eq, outside_zero, ← UInt64.ofNat_add,
      UInt64.toNat_ofNat']
    omega
  have hbytes : (numAllocatedBytes w.st).toNat =
      ∑ b ∈ H.tiles, getSize w.st.mem (addr b) +
        ∑ a ∈ w.st.mapped, getSize w.st.mem a := by
    rw [numAllocatedBytes, h.rep.bytes_eq, outside_zero, hsizes,
      ← UInt64.ofNat_add, UInt64.toNat_ofNat']
    omega
  refine ⟨hblocks, hbytes, ?_⟩
  have hmeta : numMetaDataBytes w.st = 32 * numAllocatedBlocks w.st :=
    h.rep.meta_eq
  rw [hmeta, UInt64.toNat_mul, hblocks, sizeofMetaData]
  change 32 * (H.tiles.card + w.st.mapped.card) % 2 ^ 64 = _
  omega

end Totals

/-! ## Runs in which `munmap` succeeds -/

/-- Every mapping that exists is live. -/
def AllMapsLive (w : World) : Prop :=
  ∀ a ∈ w.st.mapped, a + sizeofMetaData ∈ w.live

/-- While `munmap` succeeds, every closed invariant may add that all mappings are
live. -/
theorem Closed.allMapsLive {I : World → Prop} (hI : Closed (fun _ => True) I) :
    Closed (fun env => env.munmap = true)
      (fun w => I w ∧ AllMapsLive w) where
  live_payload := fun h => hI.live_payload h.1
  blocks_disjoint := fun h => hI.blocks_disjoint h.1
  write := fun h p hp m hagree => ⟨hI.write h.1 p hp m hagree, h.2⟩
  smalloc := by
    rintro w env ⟨h, hlive⟩ - hvalid size
    obtain ⟨s', p, hrun, hpost, halloc⟩ := hI.smalloc h trivial hvalid size
    refine ⟨s', p, hrun, ⟨hpost, ?_⟩, halloc⟩
    intro a ha
    rcases halloc.mapped a ha with hold | hnew
    · exact Closed.subset_addLive _ _ (hlive a hold)
    · have hp0 : p ≠ 0 := hnew ▸ payload_ne_zero a
      change a + sizeofMetaData ∈ addLive w.live p
      rw [addLive_of_ne hp0, hnew]
      exact Finset.mem_insert_self _ _
  sfree := by
    rintro w env ⟨h, hlive⟩ hmunmap p hp
    obtain ⟨s', hrun, hpost, hfreed⟩ := hI.sfree h trivial p hp
    refine ⟨s', hrun, ⟨hpost, ?_⟩, hfreed⟩
    intro a ha
    obtain ⟨hold, hne⟩ := hfreed.mapped a ha
    exact Finset.mem_erase.mpr ⟨hne hmunmap, hlive a hold⟩
  srealloc_small := by
    rintro w env ⟨h, hlive⟩ - p hp size hlt hsmall
    rcases hI.srealloc_small h trivial p hp size hlt hsmall with
      hrun | ⟨s', q, hrun, hpost, hgrown⟩
    · exact Or.inl hrun
    · refine Or.inr ⟨s', q, hrun, ⟨hpost, ?_⟩, hgrown⟩
      intro a ha
      obtain ⟨hold, hne⟩ := hgrown.mapped a ha
      exact Finset.mem_insert_of_mem
        (Finset.mem_erase.mpr ⟨hne, hlive a hold⟩)

/-- The live blocks that came from `mmap`. -/
def liveMaps (w : World) : Finset ℕ :=
  w.st.mapped.filter fun a => a + sizeofMetaData ∈ w.live

theorem AllMapsLive.liveMaps_eq {w : World} (h : AllMapsLive w) :
    liveMaps w = w.st.mapped :=
  Finset.filter_true_of_mem h

/-- The world after the first `smalloc`, when its `initHeap` succeeds. -/
theorem IsStart.first_smalloc {w₀ w₁ : World} {env : Env} {size p : ℕ}
    (hstart : IsStart w₀) (hvalid : env.Valid w₀.st) (hsbrk : env.sbrk = true)
    (hfirst : exec env w₀ (.smalloc size) = some (w₁, p)) :
    OnHeap (initialRoot w₀.st.brk) ⟨0, 0⟩ w₁ ∧ AllMapsLive w₁ := by
  obtain ⟨s', q, H', hrun, hready, halloc⟩ :=
    hstart.unready.smalloc_of_sbrk hvalid hsbrk size
  rw [exec, hrun] at hfirst
  obtain ⟨rfl, rfl⟩ := Prod.mk.inj (Option.some.inj hfirst)
  rw [forgotten_of_empty hstart.mapped] at hready
  refine ⟨⟨H', hready⟩, ?_⟩
  intro a ha
  rcases halloc.mapped a ha with hold | hnew
  · rw [hstart.mapped] at hold
    simp at hold
  · have hq0 : q ≠ 0 := hnew ▸ payload_ne_zero a
    change a + sizeofMetaData ∈ addLive w₀.live q
    rw [addLive_of_ne hq0, hnew]
    exact Finset.mem_insert_self _ _

/-- From a first `smalloc` that sets up the heap, through any run in which
`munmap` succeeds, all five statistics are exact. -/
theorem statistics_exact (w₀ w₁ w : World) (hstart : IsStart w₀) (env : Env)
    (hvalid : env.Valid w₀.st) (hsbrk : env.sbrk = true) (size p : ℕ)
    (hfirst : exec env w₀ (.smalloc size) = some (w₁, p))
    (hrun : Relation.ReflTransGen (StepWith fun env => env.munmap = true) w₁ w)
    (B : Finset (ℕ × ℕ)) (L : ℕ → List ℕ) (hlayout : HeapLayout w.st B L) :
    (numAllocatedBlocks w.st).toNat = B.card + (liveMaps w).card ∧
    (numAllocatedBytes w.st).toNat =
      ∑ x ∈ B, getSize w.st.mem x.1 + ∑ a ∈ liveMaps w, getSize w.st.mem a ∧
    (numMetaDataBytes w.st).toNat =
      sizeofMetaData * (numAllocatedBlocks w.st).toNat ∧
    (∃ n, numFreeBlocks w.st = some n ∧
      n.toNat = (freeBlocks w.st B).card) ∧
    ∃ n, numFreeBytes w.st = some n ∧
      n.toNat = ∑ x ∈ freeBlocks w.st B, getSize w.st.mem x.1 := by
  obtain ⟨⟨H, h⟩, hlive⟩ := (closed_onHeap _ _).allMapsLive.run
    (hstart.first_smalloc hvalid hsbrk hfirst) hrun
  obtain ⟨rfl, -⟩ := h.rep.layout_eq hlayout
  obtain ⟨hblocks, hbytes, hmeta⟩ := h.counters_eq
  obtain ⟨hfree, hfreeBytes⟩ := hlayout.numFree_eq
  have hcards := layoutBlocks_card H
  have hsums := layoutBlocks_sum H (getSize w.st.mem)
  have htotal := h.total_lt
  rw [addressLimit, sizeofMetaData] at htotal
  have hsub : freeBlocks w.st (layoutBlocks H) ⊆ layoutBlocks H :=
    Finset.filter_subset _ _
  have hcard := Finset.card_le_card hsub
  have hsum : ∑ x ∈ freeBlocks w.st (layoutBlocks H), getSize w.st.mem x.1 ≤
      ∑ x ∈ layoutBlocks H, getSize w.st.mem x.1 :=
    Finset.sum_le_sum_of_subset hsub
  rw [hcards, hsums, hlive.liveMaps_eq]
  refine ⟨hblocks, hbytes, hmeta, ⟨_, hfree, ?_⟩, ⟨_, hfreeBytes, ?_⟩⟩
  · rw [UInt64.toNat_ofNat']
    omega
  · rw [UInt64.toNat_ofNat']
    omega

theorem statistics_exact_first :
    ∃ w₁ p B L, exec noMmap (freshWorld 4194304) (.smalloc 64) = some (w₁, p) ∧
      HeapLayout w₁.st B L ∧
      (numAllocatedBlocks w₁.st).toNat = B.card + (liveMaps w₁).card := by
  have hstart := isStart_freshWorld (Nat.zero_lt_succ 4194303)
  have hvalid : noMmap.Valid (freshWorld 4194304).st :=
    HeapFits.valid (by decide)
  obtain ⟨w₁, p, hexec, -, -⟩ := closed_inv.exec (Or.inl hstart.unready)
    trivial hvalid (show Call.Allowed _ (.smalloc 64) from trivial)
  obtain ⟨⟨H, h⟩, -⟩ := hstart.first_smalloc hvalid rfl hexec
  obtain ⟨L, hlayout, -⟩ := h.rep.heapLayout
  exact ⟨w₁, p, _, L, hexec, hlayout, (statistics_exact _ w₁ w₁ hstart noMmap
    hvalid rfl 64 p hexec Relation.ReflTransGen.refl _ L hlayout).1⟩

end OsCoursework.Allocator
