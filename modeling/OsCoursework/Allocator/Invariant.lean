import OsCoursework.Allocator.Realloc
import OsCoursework.Allocator.World

/-!
# The invariant of a run

`Ready w H c` describes a world whose heap has been set up: the heap holds the
coalesced tiling `H`, the existing mappings are apart from it and from each
other, every used tile is live and every live pointer is the payload of a used
tile or of a mapping.  The counters are those of all these blocks, up to the
constant `c` left over from the time before the heap existed.

`Unready w` describes the worlds before that, in which only mappings exist.
-/

namespace OsCoursework.Allocator

open OsCoursework.Bytes
open OsCoursework.Dyadic

/-! ## Mappings -/

/-- The header at `a` is that of a used block too large for the heap. -/
structure MappedBlock (m : Mem) (a : ℕ) : Prop where
  slot : Slot a
  large : mmapMinLimit < getSize m a + sizeofMetaData
  le_max : getSize m a ≤ maxAllocationSize
  not_free : isFree m a = false
  top_le : a + (getSize m a + sizeofMetaData) ≤ addressLimit

theorem MappedBlock.congr {m m' : Mem} {a : ℕ} (h : MappedBlock m a)
    (hsize : getSize m' a = getSize m a) (hfree : isFree m' a = isFree m a) :
    MappedBlock m' a := by
  obtain ⟨hslot, hlarge, hmax, hnot, htop⟩ := h
  rw [← hsize] at hlarge hmax htop
  exact ⟨hslot, hlarge, hmax, hfree.trans hnot, htop⟩

/-- The mappings of a state are apart from each other and from the heap. -/
structure Maps (s : State) : Prop where
  block : ∀ a ∈ s.mapped, MappedBlock s.mem a
  disjoint : ∀ a ∈ s.mapped, ∀ c ∈ s.mapped, a ≠ c →
    Disjoint (blockBytes s.mem a) (blockBytes s.mem c)
  off_heap : s.initialized = true → ∀ a ∈ s.mapped,
    Disjoint (blockBytes s.mem a) (heapBytes s.heapBaseAligned)

/-- What the mappings of a state add to the counters, on top of `c`. -/
def outside (c : Outside) (s : State) : Outside :=
  ⟨c.blocks + UInt64.ofNat s.mapped.card,
    c.bytes + UInt64.ofNat (∑ a ∈ s.mapped, getSize s.mem a)⟩

section Header

variable {m m' : Mem} {W : Set ℕ} {a : ℕ}

/-- The header of a block lies among its bytes. -/
theorem header_not_mem (hW : Disjoint (blockBytes m a) W) :
    ∀ x, a ≤ x → x < a + 32 → x ∉ W := by
  intro x hx hx'
  refine Set.disjoint_left.mp hW ⟨hx, ?_⟩
  rw [sizeofMetaData]
  omega

/-- A block whose header is not written keeps size, flag and extent. -/
theorem header_eq_of_agreeOff (h : AgreeOff W m m')
    (hW : ∀ x, a ≤ x → x < a + 32 → x ∉ W) :
    getSize m' a = getSize m a ∧ isFree m' a = isFree m a ∧
      blockBytes m' a = blockBytes m a := by
  have hfields := fields_eq_of_agreeOff h hW
  exact ⟨hfields.1, hfields.2.1, by rw [blockBytes, blockBytes, hfields.1]⟩

end Header

namespace Maps

variable {s t : State}

/-- Nothing happens to the mappings when their headers are not written. -/
theorem congr (h : Maps s) {W : Set ℕ} (hagree : AgreeOff W s.mem t.mem)
    (hW : ∀ a ∈ s.mapped, ∀ x, a ≤ x → x < a + 32 → x ∉ W)
    (hmapped : t.mapped = s.mapped)
    (hoff : t.initialized = true → ∀ a ∈ s.mapped,
      Disjoint (blockBytes s.mem a) (heapBytes t.heapBaseAligned)) :
    Maps t := by
  have heq {a : ℕ} (ha : a ∈ s.mapped) := header_eq_of_agreeOff hagree (hW a ha)
  refine ⟨?_, ?_, ?_⟩ <;> rw [hmapped]
  · intro a ha
    exact (h.block a ha).congr (heq ha).1 (heq ha).2.1
  · intro a ha c hc hne
    rw [(heq ha).2.2, (heq hc).2.2]
    exact h.disjoint a ha c hc hne
  · intro hinit a ha
    rw [(heq ha).2.2]
    exact hoff hinit a ha

theorem congr_outside {W : Set ℕ} (hagree : AgreeOff W s.mem t.mem)
    (hW : ∀ a ∈ s.mapped, ∀ x, a ≤ x → x < a + 32 → x ∉ W)
    (hmapped : t.mapped = s.mapped) (c : Outside) :
    outside c t = outside c s := by
  have hsum : ∑ a ∈ s.mapped, getSize t.mem a =
      ∑ a ∈ s.mapped, getSize s.mem a :=
    Finset.sum_congr rfl fun a ha => (header_eq_of_agreeOff hagree (hW a ha)).1
  rw [outside, outside, hmapped, hsum]

/-- A fresh mapping joins the others. -/
theorem mapBlock (h : Maps s) {a size : ℕ}
    (hfresh : Fresh s a (size + sizeofMetaData))
    (hlarge : mmapMinLimit < size + sizeofMetaData)
    (hmax : size ≤ maxAllocationSize) :
    Maps (mapBlock s a size) := by
  have hdvd : 32 ∣ a := Dvd.dvd.trans (by decide) hfresh.dvd
  obtain ⟨hsize, hfree, hagree⟩ := mapBlock_header s hdvd hmax
  have hbytes : blockBytes (Allocator.mapBlock s a size).mem a =
      range a (size + sizeofMetaData) := by
    rw [blockBytes, hsize]
  have hold {c : ℕ} (hc : c ∈ s.mapped) := header_eq_of_agreeOff hagree
    (header_not_mem (hfresh.off_maps c hc).symm)
  have hmem {c : ℕ} : c ∈ (Allocator.mapBlock s a size).mapped ↔
      c = a ∨ c ∈ s.mapped := Finset.mem_insert
  have hle := hfresh.le
  refine ⟨?_, ?_, ?_⟩
  · intro c hc
    rcases hmem.mp hc with heq | hc
    · subst heq
      exact ⟨⟨hfresh.pos, hdvd, by rw [sizeofMetaData] at hle; omega⟩,
        by rwa [hsize], by rwa [hsize], hfree, by rwa [hsize]⟩
    · exact (h.block c hc).congr (hold hc).1 (hold hc).2.1
  · intro c hc d hd hne
    rcases hmem.mp hc with hca | hc
    · rcases hmem.mp hd with hda | hd
      · exact absurd (hca.trans hda.symm) hne
      · rw [hca, hbytes, (hold hd).2.2]
        exact hfresh.off_maps d hd
    · rcases hmem.mp hd with hda | hd
      · rw [hda, hbytes, (hold hc).2.2]
        exact (hfresh.off_maps c hc).symm
      · rw [(hold hc).2.2, (hold hd).2.2]
        exact h.disjoint c hc d hd hne
  · intro hinit c hc
    rcases hmem.mp hc with hca | hc
    · rw [hca, hbytes]
      exact hfresh.off_heap hinit
    · rw [(hold hc).2.2]
      exact h.off_heap hinit c hc

theorem unmapBlock (h : Maps s) (a : ℕ) : Maps (unmapBlock s a) := by
  have hsub {c : ℕ} (hc : c ∈ (Allocator.unmapBlock s a).mapped) :
      c ∈ s.mapped := Finset.mem_of_mem_erase hc
  exact ⟨fun c hc => h.block c (hsub hc),
    fun c hc d hd => h.disjoint c (hsub hc) d (hsub hd),
    fun hinit c hc => h.off_heap hinit c (hsub hc)⟩

end Maps

/-! ## Bytes that stay -/

/-- The blocks of the live pointers have the same bytes in both memories. -/
def Kept (live : Finset ℕ) (m m' : Mem) : Prop :=
  ∀ p ∈ live, ∀ x ∈ blockBytes m (p - sizeofMetaData), m' x = m x

namespace Kept

variable {live : Finset ℕ} {m m' m'' : Mem}

theorem refl (live : Finset ℕ) (m : Mem) : Kept live m m :=
  fun _ _ _ _ => rfl

theorem mono {live' : Finset ℕ} (h : Kept live m m') (hsub : live' ⊆ live) :
    Kept live' m m' :=
  fun p hp => h p (hsub hp)

theorem of_agreeOff {W : Set ℕ} (h : AgreeOff W m m')
    (hW : ∀ p ∈ live, Disjoint (blockBytes m (p - sizeofMetaData)) W) :
    Kept live m m' :=
  fun p hp x hx => h x (Set.disjoint_left.mp (hW p hp) hx)

/-- A kept block keeps its size, its flag and its extent. -/
theorem header_eq (h : Kept live m m') {p : ℕ} (hp : p ∈ live) :
    getSize m' (p - sizeofMetaData) = getSize m (p - sizeofMetaData) ∧
      isFree m' (p - sizeofMetaData) = isFree m (p - sizeofMetaData) ∧
      blockBytes m' (p - sizeofMetaData) =
        blockBytes m (p - sizeofMetaData) :=
  header_eq_of_agreeOff (W := (blockBytes m (p - sizeofMetaData))ᶜ)
    (fun x hx => h p hp x (not_not.mp hx)) (header_not_mem disjoint_compl_right)

theorem trans (h : Kept live m m') (h' : Kept live m' m'') :
    Kept live m m'' := by
  intro p hp x hx
  have hx' : x ∈ blockBytes m' (p - sizeofMetaData) := by
    rwa [(h.header_eq hp).2.2]
  rw [h' p hp x hx', h p hp x hx]

end Kept

/-! ## Worlds -/

/-- The live pointers are the payloads of the used heap blocks `U` and of some
of the mappings. -/
structure Owns (w : World) (U : Finset ℕ) : Prop where
  maps : Maps w.st
  brk_pos : 0 < w.st.brk
  used_live : ∀ a ∈ U, a + sizeofMetaData ∈ w.live
  live_cases : ∀ p ∈ w.live, ∃ a, p = a + sizeofMetaData ∧
    (a ∈ U ∨ a ∈ w.st.mapped)

/-- Before the heap is set up. -/
structure Unready (w : World) : Prop extends Owns w ∅ where
  initialized : w.st.initialized = false
  heads : ∀ k ≤ maxBlockOrder, w.st.freeBlocksList k = 0

/-- After the heap is set up. -/
structure Ready {root : Block} (w : World) (H : Tiling root maxBlockOrder)
    (c : Outside) : Prop extends Owns w (H.used.image addr) where
  initialized : w.st.initialized = true
  rep : Rep w.st H (outside c w.st)
  coalesced : H.Coalesced

/-- The invariant of every run. -/
def Inv (w : World) : Prop :=
  Unready w ∨ ∃ root, ∃ H : Tiling root maxBlockOrder, ∃ c, Ready w H c

theorem Owns.zero_not_mem {w : World} {U : Finset ℕ} (h : Owns w U) :
    0 ∉ w.live := by
  intro h0
  obtain ⟨a, ha, -⟩ := h.live_cases 0 h0
  rw [sizeofMetaData] at ha
  omega

section Ready

variable {root : Block} {w : World} {H H' K : Tiling root maxBlockOrder}
  {c : Outside} {b : Block}

theorem Rep.tileBytes_root {s : State} {o : Outside} (h : Rep s H o) :
    tileBytes root = heapBytes s.heapBaseAligned := by
  rw [tileBytes, heapBytes, h.heapRoot.size_eq, h.base_eq]

theorem Rep.blockBytes_eq {s : State} {o : Outside} (h : Rep s H o)
    (hb : b ∈ H.tiles) : blockBytes s.mem (addr b) = tileBytes b := by
  rw [blockBytes, h.size_eq b hb, usable_add, tileBytes]

/-- A live pointer is the payload of a used tile or of a mapping. -/
theorem Ready.live_iff (h : Ready w H c) {p : ℕ} (hp : p ∈ w.live) :
    (∃ t ∈ H.used, p = addr t + sizeofMetaData) ∨
      ∃ a ∈ w.st.mapped, p = a + sizeofMetaData := by
  obtain ⟨a, rfl, ha | ha⟩ := h.live_cases p hp
  · obtain ⟨t, ht, rfl⟩ := Finset.mem_image.mp ha
    exact Or.inl ⟨t, ht, rfl⟩
  · exact Or.inr ⟨a, ha, rfl⟩

/-- Mappings have no byte in the heap. -/
theorem Ready.map_disjoint (h : Ready w H c) {a : ℕ} (ha : a ∈ w.st.mapped)
    {W : Set ℕ} (hW : W ⊆ tileBytes root) :
    Disjoint (blockBytes w.st.mem a) W := by
  rw [h.rep.tileBytes_root] at hW
  exact (h.maps.off_heap h.initialized a ha).mono_right hW

theorem looseBytes_subset_root : looseBytes K ⊆ tileBytes root :=
  fun _ hx => hx.1

/-- Writing loose bytes of a tiling keeps the blocks that are used in it. -/
theorem Ready.kept_of_loose (h : Ready w H c) {m : Mem}
    (hagree : AgreeOff (looseBytes K) w.st.mem m) {live : Finset ℕ}
    (hsub : live ⊆ w.live)
    (hK : ∀ t ∈ H.used, addr t + sizeofMetaData ∈ live → t ∈ K.used) :
    Kept live w.st.mem m := by
  apply Kept.of_agreeOff hagree
  intro p hp
  rcases h.live_iff (hsub hp) with ⟨t, ht, rfl⟩ | ⟨a, ha, rfl⟩
  · rw [Nat.add_sub_cancel, h.rep.blockBytes_eq (H.used_subset ht)]
    exact Set.disjoint_left.mpr fun x hx =>
      not_mem_looseBytes (hK t ht hp) hx
  · rw [Nat.add_sub_cancel]
    exact h.map_disjoint ha looseBytes_subset_root

/-- A move of the heap from one tiling to another. -/
theorem Ready.move (h : Ready w H c) {s' : State} {live' : Finset ℕ}
    (hchange : Changes (looseBytes K) w.st s')
    (hrep : Rep s' H' (outside c w.st)) (hcoalesced : H'.Coalesced)
    (hused : ∀ t ∈ H'.used, addr t + sizeofMetaData ∈ live')
    (hlive : ∀ p ∈ live', (∃ t ∈ H'.used, p = addr t + sizeofMetaData) ∨
      ∃ a ∈ w.st.mapped, p = a + sizeofMetaData) :
    Ready ⟨s', live'⟩ H' c := by
  have hW (a : ℕ) (ha : a ∈ w.st.mapped) :=
    header_not_mem (h.map_disjoint ha (looseBytes_subset_root (K := K)))
  refine ⟨⟨?_, ?_, ?_, ?_⟩, ?_, ?_, hcoalesced⟩
  · apply h.maps.congr hchange.agree hW hchange.mapped
    intro hinit
    rw [hchange.heapBaseAligned]
    exact h.maps.off_heap h.initialized
  · exact hchange.brk ▸ h.brk_pos
  · intro a ha
    obtain ⟨t, ht, rfl⟩ := Finset.mem_image.mp ha
    exact hused t ht
  · intro p hp
    rcases hlive p hp with ⟨t, ht, rfl⟩ | ⟨a, ha, rfl⟩
    · exact ⟨addr t, rfl, Or.inl (Finset.mem_image_of_mem _ ht)⟩
    · exact ⟨a, rfl, Or.inr (hchange.mapped ▸ ha)⟩
  · exact hchange.initialized.trans h.initialized
  · rwa [Maps.congr_outside hchange.agree hW hchange.mapped c]

end Ready

end OsCoursework.Allocator
