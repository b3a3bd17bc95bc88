import OsCoursework.Allocator.Invariant

/-!
# What each operation preserves

The specifications of the interface functions over worlds: from a world with a
heap every operation is defined and leads to a world with the same heap, and it
keeps the blocks of the live pointers it was not handed.  The same holds before
the heap exists, with the first successful `initHeap` leading over.
-/

namespace OsCoursework.Allocator

open OsCoursework.Bytes
open OsCoursework.Dyadic

/-! ## Blocks of live pointers -/

theorem payload_subset_block (m : Mem) (a : ℕ) :
    payloadBytes m (a + sizeofMetaData) ⊆ blockBytes m a := by
  rintro x ⟨hx, hx'⟩
  rw [Nat.add_sub_cancel] at hx'
  exact ⟨by omega, by omega⟩

/-- Storing into the payload of a mapping writes no mapping's header. -/
theorem Maps.header_not_mem_payload {s : State} (h : Maps s) {a : ℕ}
    (ha : a ∈ s.mapped) :
    ∀ c ∈ s.mapped, ∀ x, c ≤ x → x < c + 32 →
      x ∉ payloadBytes s.mem (a + sizeofMetaData) := by
  intro c hc x hx hx' hmem
  by_cases hca : c = a
  · have hlow := hmem.1
    rw [sizeofMetaData] at hlow
    omega
  · exact header_not_mem (h.disjoint c hc a ha hca) x hx hx'
      (payload_subset_block s.mem a hmem)

section Ready

variable {root : Block} {w : World} {H : Tiling root maxBlockOrder}
  {c : Outside} {env : Env} {size : ℕ}

/-- A block of the state starts at `a`: a tile, used or free, or a mapping. -/
def BlockStart (H : Tiling root maxBlockOrder) (s : State) (a : ℕ) : Prop :=
  (∃ t ∈ H.tiles, addr t = a) ∨ a ∈ s.mapped

theorem Ready.blockStart_of_live (h : Ready w H c) {p : ℕ} (hp : p ∈ w.live) :
    BlockStart H w.st (p - sizeofMetaData) := by
  rcases h.live_iff hp with ⟨t, ht, rfl⟩ | ⟨a, ha, rfl⟩
  · exact Or.inl ⟨t, H.used_subset ht, (Nat.add_sub_cancel _ _).symm⟩
  · rw [Nat.add_sub_cancel]
    exact Or.inr ha

/-- Different blocks have no byte in common. -/
theorem Ready.starts_disjoint (h : Ready w H c) {a d : ℕ}
    (ha : BlockStart H w.st a) (hd : BlockStart H w.st d) (hne : a ≠ d) :
    Disjoint (blockBytes w.st.mem a) (blockBytes w.st.mem d) := by
  have htile {t : Block} (ht : t ∈ H.tiles) :
      blockBytes w.st.mem (addr t) ⊆ tileBytes root := by
    rw [h.rep.blockBytes_eq ht]
    exact tileBytes_mono (H.within_root t ht)
  rcases ha with ⟨t, ht, rfl⟩ | ha
  · rcases hd with ⟨u, hu, rfl⟩ | hd
    · rw [h.rep.blockBytes_eq ht, h.rep.blockBytes_eq hu]
      refine Set.disjoint_left.mpr fun x hx hx' => hne ?_
      rw [tile_bytes_disjoint H ht hu hx hx']
    · exact (h.map_disjoint hd (htile ht)).symm
  · rcases hd with ⟨u, hu, rfl⟩ | hd
    · exact h.map_disjoint ha (htile hu)
    · exact h.maps.disjoint a ha d hd hne

/-- The bytes of different live blocks are disjoint. -/
theorem Ready.blocks_disjoint (h : Ready w H c) {p q : ℕ} (hp : p ∈ w.live)
    (hq : q ∈ w.live) (hne : p ≠ q) :
    Disjoint (blockBytes w.st.mem (p - sizeofMetaData))
      (blockBytes w.st.mem (q - sizeofMetaData)) := by
  apply h.starts_disjoint (h.blockStart_of_live hp) (h.blockStart_of_live hq)
  obtain ⟨a, ha, -⟩ := h.live_cases p hp
  obtain ⟨d, hd, -⟩ := h.live_cases q hq
  omega

/-- A live payload contains no header of any block. -/
theorem Ready.payload_disjoint_header (h : Ready w H c) {p a : ℕ}
    (hp : p ∈ w.live) (ha : BlockStart H w.st a) :
    Disjoint (payloadBytes w.st.mem p) (range a sizeofMetaData) := by
  obtain ⟨d, rfl, -⟩ := h.live_cases p hp
  have hd := h.blockStart_of_live hp
  rw [Nat.add_sub_cancel] at hd
  by_cases hda : d = a
  · refine Set.disjoint_left.mpr fun x hx hx' => ?_
    have hlow := hx.1
    have hhigh := hx'.2
    omega
  · apply (h.starts_disjoint hd ha hda).mono (payload_subset_block _ _)
    rintro x ⟨hx, hx'⟩
    exact ⟨hx, by omega⟩

/-- Storing into a live payload. -/
theorem Ready.write (h : Ready w H c) {p : ℕ} (hp : p ∈ w.live) {m : Mem}
    (hagree : AgreeOff (payloadBytes w.st.mem p) w.st.mem m) :
    Ready { w with st := { w.st with mem := m } } H c := by
  -- Headers of mappings and of tiles stay.
  have hkeep : (∀ a ∈ w.st.mapped, ∀ x, a ≤ x → x < a + 32 →
        x ∉ payloadBytes w.st.mem p) ∧
      Rep { w.st with mem := m } H (outside c w.st) := by
    rcases h.live_iff hp with ⟨t, ht, rfl⟩ | ⟨a, ha, rfl⟩
    · have hpay : payloadBytes w.st.mem (addr t + sizeofMetaData) =
          range (addr t + sizeofMetaData) (usable t.order) := by
        rw [payloadBytes, Nat.add_sub_cancel,
          h.rep.size_eq t (H.used_subset ht)]
      rw [hpay] at hagree
      refine ⟨?_, h.rep.write_payload (H.used_subset ht) hagree⟩
      intro a ha
      refine header_not_mem (h.map_disjoint ha ?_)
      apply (payload_subset_block _ _).trans
      rw [h.rep.blockBytes_eq (H.used_subset ht)]
      exact tileBytes_mono (H.within_root t (H.used_subset ht))
    · refine ⟨h.maps.header_not_mem_payload ha,
        h.rep.write_outside hagree ?_⟩
      intro x hx hroot
      exact Set.disjoint_left.mp (h.map_disjoint ha (Set.Subset.refl _))
        (payload_subset_block _ _ hx) hroot
  obtain ⟨hW, hrep⟩ := hkeep
  refine ⟨⟨h.maps.congr hagree hW rfl h.maps.off_heap, h.brk_pos, h.used_live,
    h.live_cases⟩, h.initialized, ?_, h.coalesced⟩
  have hout : outside c { w.st with mem := m } = outside c w.st :=
    Maps.congr_outside (t := { w.st with mem := m }) hagree hW rfl c
  rwa [hout]

end Ready

/-! ## Allocating -/

/-- What an allocation guarantees besides the invariant. -/
structure Allocated (w : World) (size : ℕ) (s' : State) (p : ℕ) : Prop where
  kept : Kept w.live w.st.mem s'.mem
  fresh : p ∉ w.live
  size_le : p ≠ 0 → size ≤ getSize s'.mem (p - sizeofMetaData)
  mapped : ∀ a ∈ s'.mapped, a ∈ w.st.mapped ∨ a + sizeofMetaData = p

theorem addLive_zero (live : Finset ℕ) : addLive live 0 = live :=
  if_pos rfl

theorem addLive_of_ne {live : Finset ℕ} {p : ℕ} (h : p ≠ 0) :
    addLive live p = insert p live :=
  if_neg h

theorem payload_ne_zero (a : ℕ) : a + sizeofMetaData ≠ 0 := by
  rw [sizeofMetaData]
  omega

theorem ensureHeap_of_initialized (env : Env) {s : State}
    (h : s.initialized = true) : ensureHeap env s = s := by
  rw [ensureHeap, if_pos h]

section Map

variable {w : World} {U : Finset ℕ} {a size : ℕ}

/-- A fresh region starts at no existing mapping. -/
theorem Fresh.not_mem {s : State} {len : ℕ} (h : Fresh s a len)
    (hlen : 0 < len) : a ∉ s.mapped := by
  intro ha
  have hregion : a ∈ range a len := ⟨Nat.le_refl a, by omega⟩
  exact header_not_mem (h.off_maps a ha).symm a (Nat.le_refl a) (by omega)
    hregion

theorem outside_mapBlock {s : State} (c : Outside)
    (hfresh : Fresh s a (size + sizeofMetaData))
    (hmax : size ≤ maxAllocationSize) :
    outside c (mapBlock s a size) =
      ⟨(outside c s).blocks + 1, (outside c s).bytes + UInt64.ofNat size⟩ := by
  have hdvd : 32 ∣ a := Dvd.dvd.trans (by decide) hfresh.dvd
  obtain ⟨hsize, -, hagree⟩ := mapBlock_header s hdvd hmax
  have hnot := hfresh.not_mem (by rw [sizeofMetaData]; omega)
  have hold : ∑ d ∈ s.mapped, getSize (mapBlock s a size).mem d =
      ∑ d ∈ s.mapped, getSize s.mem d :=
    Finset.sum_congr rfl fun d hd => (header_eq_of_agreeOff hagree
      (header_not_mem (hfresh.off_maps d hd).symm)).1
  have hsum : ∑ d ∈ insert a s.mapped, getSize (mapBlock s a size).mem d =
      size + ∑ d ∈ s.mapped, getSize s.mem d := by
    rw [Finset.sum_insert hnot, hsize, hold]
  have hcard : (insert a s.mapped).card = s.mapped.card + 1 :=
    Finset.card_insert_of_notMem hnot
  have hblocks : c.blocks + UInt64.ofNat (insert a s.mapped).card =
      (outside c s).blocks + 1 := by
    rw [hcard, UInt64.ofNat_add, outside]
    grind
  have hbytes : c.bytes + UInt64.ofNat (∑ d ∈ insert a s.mapped,
      getSize (mapBlock s a size).mem d) =
      (outside c s).bytes + UInt64.ofNat size := by
    rw [hsum, UInt64.ofNat_add, outside]
    grind
  rw [← hblocks, ← hbytes]
  rfl

/-- The live pointers after a mapping was added. -/
theorem Owns.mapBlock (h : Owns w U)
    (hfresh : Fresh w.st a (size + sizeofMetaData))
    (hlarge : mmapMinLimit < size + sizeofMetaData)
    (hmax : size ≤ maxAllocationSize) :
    Owns ⟨mapBlock w.st a size, insert (a + sizeofMetaData) w.live⟩ U := by
  refine ⟨h.maps.mapBlock hfresh hlarge hmax, h.brk_pos, ?_, ?_⟩
  · intro d hd
    exact Finset.mem_insert_of_mem (h.used_live d hd)
  · intro p hp
    rcases Finset.mem_insert.mp hp with rfl | hp
    · exact ⟨a, rfl, Or.inr (Finset.mem_insert_self _ _)⟩
    · obtain ⟨d, hd, hcase | hcase⟩ := h.live_cases p hp
      · exact ⟨d, hd, Or.inl hcase⟩
      · exact ⟨d, hd, Or.inr (Finset.mem_insert_of_mem hcase)⟩

/-- A fresh mapping as an allocation, when it is apart from all live blocks. -/
theorem allocated_mapBlock (hfresh : Fresh w.st a (size + sizeofMetaData))
    (hmax : size ≤ maxAllocationSize)
    (hlive : ∀ p ∈ w.live, Disjoint (blockBytes w.st.mem (p - sizeofMetaData))
      (range a (size + sizeofMetaData))) :
    Allocated w size (mapBlock w.st a size) (a + sizeofMetaData) := by
  have hdvd : 32 ∣ a := Dvd.dvd.trans (by decide) hfresh.dvd
  obtain ⟨hsize, -, hagree⟩ := mapBlock_header w.st hdvd hmax
  refine ⟨Kept.of_agreeOff hagree hlive, ?_, ?_, ?_⟩
  · intro hp
    have hself := hlive _ hp
    rw [Nat.add_sub_cancel] at hself
    exact header_not_mem hself a (Nat.le_refl a) (by omega)
      ⟨Nat.le_refl a, by rw [sizeofMetaData]; omega⟩
  · intro _
    rw [Nat.add_sub_cancel, hsize]
  · intro d hd
    rcases Finset.mem_insert.mp hd with rfl | hd
    · exact Or.inr rfl
    · exact Or.inl hd

end Map

section ReadyAlloc

variable {root : Block} {w : World} {H : Tiling root maxBlockOrder}
  {c : Outside} {env : Env}

theorem Ready.allocated_null (h : Ready w H c) (size : ℕ) :
    Allocated w size w.st 0 :=
  ⟨Kept.refl _ _, h.zero_not_mem, fun hne => absurd rfl hne,
    fun _ ha => Or.inl ha⟩

/-- A fresh region is apart from every live block. -/
theorem Ready.live_disjoint (h : Ready w H c) {a len : ℕ}
    (hfresh : Fresh w.st a len) {p : ℕ} (hp : p ∈ w.live) :
    Disjoint (blockBytes w.st.mem (p - sizeofMetaData)) (range a len) := by
  rcases h.live_iff hp with ⟨t, ht, rfl⟩ | ⟨d, hd, rfl⟩
  · have hsub : blockBytes w.st.mem (addr t) ⊆
        heapBytes w.st.heapBaseAligned := by
      rw [h.rep.blockBytes_eq (H.used_subset ht), ← h.rep.tileBytes_root]
      exact tileBytes_mono (H.within_root t (H.used_subset ht))
    rw [Nat.add_sub_cancel]
    exact ((hfresh.off_heap h.initialized).mono_right hsub).symm
  · rw [Nat.add_sub_cancel]
    exact (hfresh.off_maps d hd).symm

theorem Ready.mapBlock (h : Ready w H c) {a size : ℕ}
    (hfresh : Fresh w.st a (size + sizeofMetaData))
    (hlarge : mmapMinLimit < size + sizeofMetaData)
    (hmax : size ≤ maxAllocationSize) :
    Ready ⟨mapBlock w.st a size, insert (a + sizeofMetaData) w.live⟩ H c := by
  refine ⟨h.toOwns.mapBlock hfresh hlarge hmax, h.initialized, ?_, h.coalesced⟩
  change Rep (Allocator.mapBlock w.st a size) H
    (outside c (Allocator.mapBlock w.st a size))
  rw [outside_mapBlock c hfresh hmax]
  apply h.rep.mapBlock (Dvd.dvd.trans (by decide) hfresh.dvd) hmax
  intro x hx hroot
  rw [h.rep.tileBytes_root] at hroot
  exact Set.disjoint_left.mp (hfresh.off_heap h.initialized) hx hroot

/-- A carved block becomes live. -/
theorem Ready.carve (h : Ready w H c) {s' : State}
    {H' : Tiling root maxBlockOrder} {big b : Block} {r : ℕ}
    (hrep : Rep s' H' (outside c w.st)) (hcarves : Carves H r H' big b)
    (hchange : Changes (looseBytes H) w.st s') :
    Ready ⟨s', insert (addr b + sizeofMetaData) w.live⟩ H' c ∧
      addr b + sizeofMetaData ∉ w.live := by
  refine ⟨h.move hchange hrep (hcarves.coalesced h.coalesced) ?_ ?_, ?_⟩
  · intro t ht
    rw [hcarves.used_eq, Finset.mem_insert] at ht
    rcases ht with rfl | ht
    · exact Finset.mem_insert_self _ _
    · exact Finset.mem_insert_of_mem
        (h.used_live _ (Finset.mem_image_of_mem _ ht))
  · intro p hp
    rcases Finset.mem_insert.mp hp with rfl | hp
    · refine Or.inl ⟨b, ?_, rfl⟩
      rw [hcarves.used_eq]
      exact Finset.mem_insert_self _ _
    · rcases h.live_iff hp with ⟨t, ht, rfl⟩ | hmap
      · refine Or.inl ⟨t, ?_, rfl⟩
        rw [hcarves.used_eq]
        exact Finset.mem_insert_of_mem ht
      · exact Or.inr hmap
  · intro hmem
    rcases h.live_iff hmem with ⟨t, ht, heq⟩ | ⟨a, ha, heq⟩
    · have htb : t = b := by
        refine tile_addr_inj H' (H'.used_subset ?_) hcarves.mem_tiles ?_
        · rw [hcarves.used_eq]
          exact Finset.mem_insert_of_mem ht
        · omega
      exact hcarves.not_mem_used (htb ▸ ht)
    · have haddr : addr b = a := by omega
      have hroot := tileBytes_mono (H'.within_root b hcarves.mem_tiles)
      have hge := blockSizeByOrder_ge b.order
      refine header_not_mem (h.map_disjoint ha hroot) a (Nat.le_refl a)
        (by omega) ?_
      exact ⟨by omega, by omega⟩

/-- `smalloc` with the heap set up. -/
theorem Ready.smalloc (h : Ready w H c) (hvalid : env.Valid w.st) (size : ℕ) :
    ∃ s' p, ∃ H' : Tiling root maxBlockOrder,
      smalloc env w.st size = some (s', p) ∧
      Ready ⟨s', addLive w.live p⟩ H' c ∧ Allocated w size s' p := by
  have hensure := ensureHeap_of_initialized env h.initialized
  have hnull : Ready ⟨w.st, addLive w.live 0⟩ H c := by
    rw [addLive_zero]
    exact h
  have hcases := smalloc_cases env w.st size
  rw [hensure] at hcases
  rcases hcases with hrun | ⟨a, hmax, hlarge, hmmap, hrun⟩ | ⟨-, hsmall, hrun⟩
  · exact ⟨w.st, 0, H, hrun, hnull, h.allocated_null size⟩
  · have hfresh := hvalid.mmap_fresh _ _ hmmap
    rw [hensure] at hfresh
    refine ⟨Allocator.mapBlock w.st a size, a + sizeofMetaData, H, hrun, ?_,
      allocated_mapBlock hfresh hmax fun p hp => h.live_disjoint hfresh hp⟩
    rw [addLive_of_ne (payload_ne_zero a)]
    exact h.mapBlock hfresh hlarge hmax
  · obtain ⟨r, hr, hfits⟩ := exists_fits hsmall
    rcases splitBlockBuddy_eq hfits hr h.rep with
      ⟨-, hsplit⟩ | ⟨s', H', big, b, hsplit, hrep, hcarves, htouch⟩
    · exact ⟨w.st, 0, H, hrun.trans hsplit, hnull, h.allocated_null size⟩
    · have hchange := hcarves.changes htouch
      obtain ⟨hready, hnot⟩ := h.carve hrep hcarves hchange
      refine ⟨s', addr b + sizeofMetaData, H', hrun.trans hsplit, ?_,
        ⟨?_, hnot, ?_, ?_⟩⟩
      · rwa [addLive_of_ne (payload_ne_zero _)]
      · exact h.kept_of_loose hchange.agree (Finset.Subset.refl _)
          fun t ht _ => ht
      · intro _
        rw [Nat.add_sub_cancel, hrep.size_eq b hcarves.mem_tiles,
          hcarves.order_eq, hfits.le_usable_iff]
      · intro a ha
        rw [hchange.mapped] at ha
        exact Or.inl ha

end ReadyAlloc

/-! ## Freeing -/

/-- What freeing guarantees besides the invariant. -/
structure Freed (env : Env) (w : World) (p : ℕ) (s' : State) : Prop where
  kept : Kept (w.live.erase p) w.st.mem s'.mem
  mapped : ∀ a ∈ s'.mapped, a ∈ w.st.mapped ∧
    (env.munmap = true → a + sizeofMetaData ≠ p)

theorem outside_unmapBlock {s : State} {a : ℕ} (c : Outside)
    (ha : a ∈ s.mapped) :
    outside c (unmapBlock s a) = ⟨(outside c s).blocks - 1,
      (outside c s).bytes - UInt64.ofNat (getSize s.mem a)⟩ := by
  have hcard := Finset.card_erase_add_one ha
  have hsum := Finset.sum_erase_add s.mapped (getSize s.mem) ha
  have hblocks : c.blocks + UInt64.ofNat (s.mapped.erase a).card =
      (outside c s).blocks - 1 := by
    rw [outside, ← hcard, UInt64.ofNat_add]
    grind
  have hbytes : c.bytes + UInt64.ofNat (∑ d ∈ s.mapped.erase a,
      getSize s.mem d) =
      (outside c s).bytes - UInt64.ofNat (getSize s.mem a) := by
    rw [outside, ← hsum, UInt64.ofNat_add]
    grind
  rw [← hblocks, ← hbytes]
  rfl

section ReadyFree

variable {root : Block} {w : World} {H : Tiling root maxBlockOrder}
  {c : Outside} {env : Env}

/-- A mapping does not start where a tile does. -/
theorem Ready.tile_ne_map (h : Ready w H c) {t : Block} {a : ℕ}
    (ht : t ∈ H.tiles) (ha : a ∈ w.st.mapped) : addr t ≠ a := by
  have hge := blockSizeByOrder_ge t.order
  rintro rfl
  exact header_not_mem (h.map_disjoint ha
    (tileBytes_mono (H.within_root t ht))) (addr t) (Nat.le_refl _)
    (by omega) ⟨Nat.le_refl _, by omega⟩

/-- The live pointers once the block of the used tile `b` has been given up. -/
theorem Ready.live_erase (h : Ready w H c) {b : Block} (hb : b ∈ H.used) :
    (∀ t ∈ H.used.erase b, addr t + sizeofMetaData ∈
      w.live.erase (addr b + sizeofMetaData)) ∧
    ∀ p ∈ w.live.erase (addr b + sizeofMetaData),
      (∃ t ∈ H.used.erase b, p = addr t + sizeofMetaData) ∨
        ∃ a ∈ w.st.mapped, p = a + sizeofMetaData := by
  constructor
  · intro t ht
    obtain ⟨hne, ht⟩ := Finset.mem_erase.mp ht
    refine Finset.mem_erase.mpr ⟨?_,
      h.used_live _ (Finset.mem_image_of_mem _ ht)⟩
    intro heq
    exact hne (tile_addr_inj H (H.used_subset ht) (H.used_subset hb) (by omega))
  · intro p hp
    obtain ⟨hne, hp⟩ := Finset.mem_erase.mp hp
    rcases h.live_iff hp with ⟨t, ht, rfl⟩ | hmap
    · refine Or.inl ⟨t, Finset.mem_erase.mpr ⟨?_, ht⟩, rfl⟩
      rintro rfl
      exact hne rfl
    · exact Or.inr hmap

/-- Writes outside the used tiles other than `b` keep all blocks but that of
`b`. -/
theorem Ready.kept_of_release (h : Ready w H c) {b : Block} {m : Mem}
    (hagree : AgreeOff (looseBytes (H.release b)) w.st.mem m) :
    Kept (w.live.erase (addr b + sizeofMetaData)) w.st.mem m := by
  apply h.kept_of_loose hagree (Finset.erase_subset _ _)
  intro t ht hlive
  rw [Tiling.release_used, Finset.mem_erase]
  refine ⟨?_, ht⟩
  rintro rfl
  exact (Finset.mem_erase.mp hlive).1 rfl

/-- Giving up the pointer to a mapping, which may or may not be removed. -/
theorem Ready.forget (h : Ready w H c) {a : ℕ} (ha : a ∈ w.st.mapped) :
    Ready ⟨w.st, w.live.erase (a + sizeofMetaData)⟩ H c ∧
      Ready ⟨unmapBlock w.st a, w.live.erase (a + sizeofMetaData)⟩ H c := by
  have hused : ∀ d ∈ H.used.image addr, d + sizeofMetaData ∈
      w.live.erase (a + sizeofMetaData) := by
    intro d hd
    refine Finset.mem_erase.mpr ⟨?_, h.used_live d hd⟩
    obtain ⟨t, ht, rfl⟩ := Finset.mem_image.mp hd
    have hne := h.tile_ne_map (H.used_subset ht) ha
    omega
  refine ⟨⟨⟨h.maps, h.brk_pos, hused, ?_⟩, h.initialized, h.rep, h.coalesced⟩,
    ⟨⟨h.maps.unmapBlock a, h.brk_pos, hused, ?_⟩, h.initialized, ?_,
      h.coalesced⟩⟩
  · intro p hp
    exact h.live_cases p (Finset.mem_of_mem_erase hp)
  · intro p hp
    obtain ⟨hne, hp⟩ := Finset.mem_erase.mp hp
    obtain ⟨d, rfl, hd | hd⟩ := h.live_cases p hp
    · exact ⟨d, rfl, Or.inl hd⟩
    · refine ⟨d, rfl, Or.inr (Finset.mem_erase.mpr ⟨?_, hd⟩)⟩
      rintro rfl
      exact hne rfl
  · change Rep (unmapBlock w.st a) H (outside c (unmapBlock w.st a))
    rw [outside_unmapBlock c ha]
    exact h.rep.unmapBlock a

/-- `sfree` of a live pointer with the heap set up. -/
theorem Ready.sfree (h : Ready w H c) (env : Env) {p : ℕ} (hp : p ∈ w.live) :
    ∃ s', ∃ H' : Tiling root maxBlockOrder, sfree env w.st p = some s' ∧
      Ready ⟨s', w.live.erase p⟩ H' c ∧ Freed env w p s' := by
  rcases h.live_iff hp with ⟨b, hb, rfl⟩ | ⟨a, ha, rfl⟩
  · obtain ⟨s', H', hrun, hrep, hfrees, hchange, -⟩ :=
      sfree_of_used env h.rep hb
    obtain ⟨hused, hlive⟩ := h.live_erase hb
    rw [← hfrees.used_eq] at hused hlive
    refine ⟨s', H', hrun, h.move hchange hrep (hfrees.coalesced h.coalesced)
      hused hlive, h.kept_of_release hchange.agree, ?_⟩
    intro a ha
    rw [hchange.mapped] at ha
    have hne := h.tile_ne_map (H.used_subset hb) ha
    exact ⟨ha, fun _ => by omega⟩
  · have hblock := h.maps.block a ha
    have hrun := sfree_of_large env hblock.not_free hblock.le_max
      hblock.large
    obtain ⟨hforget, hunmap⟩ := h.forget ha
    cases hmunmap : env.munmap with
    | false =>
        rw [hmunmap] at hrun
        exact ⟨w.st, H, hrun, hforget, Kept.refl _ _, fun d hd =>
          ⟨hd, fun htrue => by rw [hmunmap] at htrue; cases htrue⟩⟩
    | true =>
        rw [hmunmap] at hrun
        refine ⟨unmapBlock w.st a, H, hrun, hunmap, Kept.refl _ _, ?_⟩
        intro d hd
        obtain ⟨hne, hd⟩ := Finset.mem_erase.mp hd
        exact ⟨hd, fun _ => by omega⟩

/-! ## Growing -/

/-- The block of the used tile `b` grown in place. -/
theorem Ready.grow (h : Ready w H c) {s' : State}
    {H' : Tiling root maxBlockOrder} {b b' : Block} {r : ℕ}
    (hrep : Rep s' H' (outside c w.st)) (hgrows : Grows H r b H' b')
    (hchange : Changes (looseBytes (H.release b)) w.st s') :
    Ready ⟨s', insert (addr b' + sizeofMetaData)
      (w.live.erase (addr b + sizeofMetaData))⟩ H' c := by
  obtain ⟨hused, hlive⟩ := h.live_erase hgrows.mem_used
  refine h.move hchange hrep (hgrows.coalesced h.coalesced) ?_ ?_
  · intro t ht
    rw [hgrows.used_eq, Finset.mem_insert] at ht
    rcases ht with rfl | ht
    · exact Finset.mem_insert_self _ _
    · exact Finset.mem_insert_of_mem (hused t ht)
  · intro p hp
    rcases Finset.mem_insert.mp hp with rfl | hp
    · refine Or.inl ⟨b', ?_, rfl⟩
      rw [hgrows.used_eq]
      exact Finset.mem_insert_self _ _
    · rcases hlive p hp with ⟨t, ht, rfl⟩ | hmap
      · refine Or.inl ⟨t, ?_, rfl⟩
        rw [hgrows.used_eq]
        exact Finset.mem_insert_of_mem ht
      · exact Or.inr hmap

/-- A live block that a small request does not fit is a heap block. -/
theorem Ready.exists_used_of_lt (h : Ready w H c) {p size : ℕ}
    (hp : p ∈ w.live) (hlt : getSize w.st.mem (p - sizeofMetaData) < size)
    (hsmall : size + sizeofMetaData ≤ mmapMinLimit) :
    ∃ b ∈ H.used, p = addr b + sizeofMetaData ∧
      ∃ r ≤ maxBlockOrder, Fits size r ∧ b.order < r := by
  rcases h.live_iff hp with ⟨b, hb, rfl⟩ | ⟨a, ha, rfl⟩
  · obtain ⟨r, hr, hfits⟩ := exists_fits hsmall
    refine ⟨b, hb, rfl, r, hr, hfits, ?_⟩
    rw [Nat.add_sub_cancel, h.rep.size_eq b (H.used_subset hb)] at hlt
    by_contra hge
    have := hfits.le_usable_iff.mpr (Nat.le_of_not_lt hge)
    omega
  · have hlarge := (h.maps.block a ha).large
    rw [Nat.add_sub_cancel] at hlt
    omega

/-- What `srealloc` does with a live pointer: nothing, with `NULL` or the pointer
itself as the answer, move the block, or grow it in place. -/
theorem Ready.srealloc_cases (h : Ready w H c) (env : Env) {p : ℕ}
    (hp : p ∈ w.live) (size : ℕ) :
    Allocator.srealloc env w.st p size = some (w.st, 0) ∨
    Allocator.srealloc env w.st p size = some (w.st, p) ∨
    (getSize w.st.mem (p - sizeofMetaData) < size ∧
      Allocator.srealloc env w.st p size =
        Allocator.moveAlloc env w.st p size) ∨
    ∃ b ∈ H.used, p = addr b + sizeofMetaData ∧
      ∃ r ≤ maxBlockOrder, b.order < r ∧
        Allocator.srealloc env w.st p size =
          growInPlace w.st (addr b) (usable r) := by
  by_cases hinvalid : size = 0 ∨ maxAllocationSize < size
  · exact Or.inl (srealloc_of_invalid _ _ _ hinvalid)
  obtain ⟨a, hpa, -⟩ := h.live_cases p hp
  have ha : p - sizeofMetaData = a := by omega
  rcases Nat.lt_or_ge (getSize w.st.mem (p - sizeofMetaData)) size with
    hlt | hge
  · rcases Nat.lt_or_ge mmapMinLimit (size + sizeofMetaData) with
      hlarge | hsmall
    · refine Or.inr (Or.inr (Or.inl ⟨hlt, ?_⟩))
      rw [ha] at hlt
      rw [hpa]
      exact srealloc_of_large hinvalid env hlt hlarge
    · obtain ⟨b, hb, hpb, r, hr, hfits, hbr⟩ :=
        h.exists_used_of_lt hp hlt hsmall
      rcases srealloc_of_used env h.rep hb hfits hbr hr with
        ⟨-, hrun⟩ | ⟨-, hrun⟩
      · exact Or.inr (Or.inr (Or.inr ⟨b, hb, hpb, r, hr, hbr, hpb ▸ hrun⟩))
      · exact Or.inr (Or.inr (Or.inl ⟨hlt, hpb ▸ hrun⟩))
  · refine Or.inr (Or.inl ?_)
    rw [ha] at hge
    rw [hpa]
    exact srealloc_of_le hinvalid env hge

/-- What growing the block of `p` in place to the one of `q` guarantees besides
the invariant. -/
structure Grown (w : World) (p : ℕ) (s' : State) (q : ℕ) : Prop where
  kept : Kept (w.live.erase p) w.st.mem s'.mem
  ne_zero : q ≠ 0
  mapped : ∀ a ∈ s'.mapped, a ∈ w.st.mapped ∧ a + sizeofMetaData ≠ p

/-- `srealloc` of a live pointer to a larger size below the `mmap` limit. -/
theorem Ready.srealloc_small (h : Ready w H c) (env : Env) {p size : ℕ}
    (hp : p ∈ w.live)
    (hlt : getSize w.st.mem (p - sizeofMetaData) < size)
    (hsmall : size + sizeofMetaData ≤ mmapMinLimit) :
    srealloc env w.st p size = moveAlloc env w.st p size ∨
    ∃ s' q, ∃ H' : Tiling root maxBlockOrder,
      srealloc env w.st p size = some (s', q) ∧
      Ready ⟨s', insert q (w.live.erase p)⟩ H' c ∧ Grown w p s' q := by
  obtain ⟨b, hb, rfl, r, hr, hfits, hbr⟩ := h.exists_used_of_lt hp hlt hsmall
  rcases srealloc_of_used env h.rep hb hfits hbr hr with
    ⟨-, hrun⟩ | ⟨-, hrun⟩
  · obtain ⟨s', H', b', hgrow, hrep, hgrows, hchange⟩ :=
      growInPlace_eq h.rep hb hbr hr
    refine Or.inr ⟨s', addr b' + sizeofMetaData, H', hrun.trans hgrow,
      h.grow hrep hgrows hchange, h.kept_of_release hchange.agree,
      payload_ne_zero _, ?_⟩
    intro a ha
    rw [hchange.mapped] at ha
    have hne := h.tile_ne_map (H.used_subset hb) ha
    exact ⟨ha, by omega⟩
  · exact Or.inl hrun

end ReadyFree

end OsCoursework.Allocator
