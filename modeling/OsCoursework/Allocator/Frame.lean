import OsCoursework.Allocator.InitHeap
import OsCoursework.Allocator.Merge
import OsCoursework.Allocator.Split

/-!
# Bytes the allocator may write

`looseBytes H` are the bytes of the heap outside every used tile.  They depend
on the used tiles only, so splitting and merging leave them alone, and the
headers of free tiles lie among them.  Every step of the allocator writes loose
bytes or bytes of the block it was handed; the rest of this module says what
follows for the representation.
-/

namespace OsCoursework.Allocator

open OsCoursework.Bytes
open OsCoursework.Dyadic

variable {root : Block} {H H' : Tiling root maxBlockOrder} {b b' : Block}

/-! ## Loose bytes -/

/-- The bytes of a block. -/
def tileBytes (b : Block) : Set ℕ :=
  range (addr b) (blockSizeByOrder b.order)

theorem tileBytes_mono (h : b.Within b') : tileBytes b ⊆ tileBytes b' := by
  have hle := within_addr_le h
  rintro x ⟨hx, hx'⟩
  exact ⟨by omega, by omega⟩

/-- The header of a block is among its bytes. -/
theorem header_subset_tileBytes (b : Block) :
    headerBytes {addr b} ⊆ tileBytes b := by
  have hge := blockSizeByOrder_ge b.order
  rintro x ⟨a, rfl, hx, hx'⟩
  exact ⟨hx, by omega⟩

/-- The bytes of the heap that belong to no used tile. -/
def looseBytes (H : Tiling root maxBlockOrder) : Set ℕ :=
  {x | x ∈ tileBytes root ∧ ∀ t ∈ H.used, x ∉ tileBytes t}

theorem looseBytes_anti (h : H.used ⊆ H'.used) :
    looseBytes H' ⊆ looseBytes H := by
  rintro x ⟨hx, hnot⟩
  exact ⟨hx, fun t ht => hnot t (h ht)⟩

/-- A tile that is not used consists of loose bytes. -/
theorem tileBytes_subset_looseBytes (hb : b ∈ H.free) :
    tileBytes b ⊆ looseBytes H := by
  obtain ⟨htile, hnot⟩ := Tiling.mem_free.mp hb
  intro x hx
  refine ⟨tileBytes_mono (H.within_root b htile) hx, ?_⟩
  intro t ht htx
  obtain rfl := tile_bytes_disjoint H htile (H.used_subset ht) hx htx
  exact hnot ht

theorem headerBytes_subset_looseBytes :
    headerBytes (freeStarts H) ⊆ looseBytes H := by
  rintro x ⟨a, ⟨t, ht, rfl⟩, hx⟩
  exact tileBytes_subset_looseBytes ht
    (header_subset_tileBytes t ⟨addr t, rfl, hx⟩)

/-- A used tile has no loose byte. -/
theorem not_mem_looseBytes (hb : b ∈ H.used) {x : ℕ} (hx : x ∈ tileBytes b) :
    x ∉ looseBytes H :=
  fun hloose => hloose.2 b hb hx

/-! ## Keeping the representation -/

section Keep

variable {s : State} {o : Outside}

/-- Memory may change anywhere but in the headers of the tiles. -/
theorem Rep.congr_mem (h : Rep s H o) {m : Mem} {W : Set ℕ}
    (hagree : AgreeOff W s.mem m)
    (hW : ∀ t ∈ H.tiles, ∀ x, addr t ≤ x → x < addr t + 32 → x ∉ W) :
    Rep { s with mem := m } H o := by
  have hfields {t : Block} (ht : t ∈ H.tiles) :=
    fields_eq_of_agreeOff hagree (hW t ht)
  refine ⟨h.heapRoot, h.base_eq, ?_, ?_, h.lists.congr ?_ ?_, h.blocks_eq,
    h.bytes_eq, h.meta_eq⟩
  · intro t ht
    exact (hfields ht).1.trans (h.size_eq t ht)
  · intro t ht
    exact (hfields ht).2.1.trans (h.isFree_eq t ht)
  · intro k _ a ha
    obtain ⟨t, ht, -, rfl⟩ := (mem_freeAddrs H).mp ha
    exact (hfields (Tiling.mem_free.mp ht).1).2.2.1
  · intro k _ a ha
    obtain ⟨t, ht, -, rfl⟩ := (mem_freeAddrs H).mp ha
    exact (hfields (Tiling.mem_free.mp ht).1).2.2.2

/-- Writing to the payload of a tile keeps the representation. -/
theorem Rep.write_payload (h : Rep s H o) (hb : b ∈ H.tiles) {m : Mem}
    (hagree : AgreeOff (range (addr b + sizeofMetaData) (usable b.order))
      s.mem m) : Rep { s with mem := m } H o := by
  apply h.congr_mem hagree
  rintro t ht x hx hx' ⟨hbx, hbx'⟩
  have hadd := usable_add b.order
  have hge := blockSizeByOrder_ge t.order
  rw [sizeofMetaData] at hadd hbx hbx'
  have heq := tile_bytes_disjoint H hb ht (x := x) ⟨by omega, by omega⟩
    ⟨hx, by omega⟩
  subst heq
  omega

/-- Memory outside the heap is free to change. -/
theorem Rep.write_outside (h : Rep s H o) {m : Mem} {W : Set ℕ}
    (hagree : AgreeOff W s.mem m) (hW : ∀ x ∈ W, x ∉ tileBytes root) :
    Rep { s with mem := m } H o := by
  apply h.congr_mem hagree
  intro t ht x hx hx' hmem
  have hge := blockSizeByOrder_ge t.order
  exact hW x hmem (tileBytes_mono (H.within_root t ht) ⟨hx, by omega⟩)

/-- Blocks outside the heap are accounted for in `o`. -/
theorem Rep.account (h : Rep s H o) (blocks bytes : UInt64)
    (mapped : Finset ℕ) :
    Rep { s with
        mapped := mapped
        allocatedBlocks := s.allocatedBlocks + blocks
        allocatedBytes := s.allocatedBytes + bytes
        metadataBytes := s.metadataBytes + 32 * blocks }
      H ⟨o.blocks + blocks, o.bytes + bytes⟩ := by
  refine ⟨h.heapRoot, h.base_eq, h.size_eq, h.isFree_eq, h.lists, ?_, ?_, ?_⟩
  · change s.allocatedBlocks + blocks = _
    rw [h.blocks_eq]
    grind
  · change s.allocatedBytes + bytes = _
    rw [h.bytes_eq]
    grind
  · change s.metadataBytes + 32 * blocks = 32 * (s.allocatedBlocks + blocks)
    rw [h.meta_eq]
    grind

end Keep

/-! ## Marking a used tile free -/

/-- The first two lines of the freeing path: set the flag, enter the list. -/
theorem release_eq {s : State} {o : Outside} (h : Rep s H o)
    (hb : b ∈ H.used) :
    ∃ s', State.insertAt { s with mem := setIsFree s.mem (addr b) true }
        b.order (addr b) = some s' ∧
      Rep s' (H.release b) o ∧ Touches (freeStarts (H.release b)) s s' ∧
      (∀ t : Block, getSize s'.mem (addr t) = getSize s.mem (addr t)) ∧
      ∀ t : Block, isFree s'.mem (addr t) =
        if addr t = addr b then true else isFree s.mem (addr t) := by
  have hbt := H.used_subset hb
  have hk := H.order_le b hbt
  have hbd := addr_dvd b
  have hself : addr b ∈ freeStarts (H.release b) :=
    ⟨b, Finset.mem_coe.mpr (Tiling.mem_free_release H hb), rfl⟩
  have hlists₁ : Lists (setIsFree s.mem (addr b) true) s.freeBlocksList
      (freeAddrs H) :=
    h.lists.setIsFree hbd true
  obtain ⟨m, heads, hrun, hlists, hlinks⟩ :=
    insertAt_eq (s := { s with mem := setIsFree s.mem (addr b) true })
      hlists₁ hk (h.slot hbt) (by
        intro j _ hmem
        exact (Tiling.mem_free.mp ((addr_mem_freeAddrs H hbt).mp hmem).1).2 hb)
  have hfield (t : Block) := hlinks.size_isFree_eq (addr_dvd t)
  have hsize (t : Block) : getSize m (addr t) = getSize s.mem (addr t) := by
    rw [(hfield t).1, getSize_setIsFree s.mem hbd (addr_dvd t)]
  have hfree (t : Block) : isFree m (addr t) =
      if addr t = addr b then true else isFree s.mem (addr t) := by
    rw [(hfield t).2, isFree_setIsFree s.mem hbd (addr_dvd t)]
  refine ⟨_, hrun, h.release hb hlists hsize hfree, ⟨?_, rfl, rfl, rfl, rfl⟩,
    hsize, hfree⟩
  · refine (agreeOff_setIsFree s.mem hself true).trans (hlinks.agreeOff_headers ?_)
    apply Set.insert_subset hself
    rintro a ha
    obtain ⟨t, ht, -, rfl⟩ := (mem_freeAddrs H).mp ha
    exact ⟨t, Finset.mem_coe.mpr (Tiling.free_subset_release H hb ht), rfl⟩

end OsCoursework.Allocator
