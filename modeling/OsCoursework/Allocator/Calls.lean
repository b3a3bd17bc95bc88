import OsCoursework.Allocator.Frame
import OsCoursework.Allocator.Grow

/-!
# The interface functions

One specification for each branch of `smalloc`, `sfree` and `srealloc`, over the
tiling the state represents.  Each says that the branch is defined, what it does
to the tiling, and which bytes it may write.
-/

namespace OsCoursework.Allocator

open OsCoursework.Bytes
open OsCoursework.Dyadic

variable {root : Block} {H : Tiling root maxBlockOrder} {s : State}
  {o : Outside} {b : Block} {env : Env} {size : ℕ}

/-! ## `smalloc` -/

/-- The state the `mmap` branch of `smalloc` leaves. -/
def mapBlock (s : State) (block size : ℕ) : State :=
  { s with
    mem := clearLinks (setIsFree (setSize
      (fill s.mem block 0 (size + sizeofMetaData)) block size) block false) block
    mapped := insert block s.mapped
    allocatedBlocks := s.allocatedBlocks + 1
    allocatedBytes := s.allocatedBytes + UInt64.ofNat size
    metadataBytes := s.metadataBytes + UInt64.ofNat sizeofMetaData }

theorem smalloc_of_small (env : Env) (s : State) (hpos : 0 < size)
    (hsmall : size + sizeofMetaData ≤ mmapMinLimit) :
    smalloc env s size = splitBlockBuddy (ensureHeap env s) size := by
  have hmax : size ≤ maxAllocationSize := by
    rw [mmapMinLimit, sizeofMetaData] at hsmall
    rw [maxAllocationSize]
    omega
  have hvalid : ¬ (size = 0 ∨ maxAllocationSize < size) := by omega
  simp only [smalloc, if_neg hvalid, add64_of_le_max hmax,
    if_neg (Nat.not_lt.mpr hsmall)]

/-- `smalloc` returns `NULL`, maps a region of its own or splits a heap block. -/
theorem smalloc_cases (env : Env) (s : State) (size : ℕ) :
    smalloc env s size = some (ensureHeap env s, 0) ∨
    (∃ a, size ≤ maxAllocationSize ∧ mmapMinLimit < size + sizeofMetaData ∧
      env.mmap (size + sizeofMetaData) = some a ∧
      smalloc env s size =
        some (mapBlock (ensureHeap env s) a size, a + sizeofMetaData)) ∨
    (0 < size ∧ size + sizeofMetaData ≤ mmapMinLimit ∧
      smalloc env s size = splitBlockBuddy (ensureHeap env s) size) := by
  by_cases hinvalid : size = 0 ∨ maxAllocationSize < size
  · left
    rw [smalloc, if_pos hinvalid]
  have hmax : size ≤ maxAllocationSize := by omega
  rcases Nat.lt_or_ge mmapMinLimit (size + sizeofMetaData) with hlarge | hsmall
  · cases hmmap : env.mmap (size + sizeofMetaData) with
    | none =>
        left
        simp only [smalloc, if_neg hinvalid, add64_of_le_max hmax, if_pos hlarge, hmmap]
    | some a =>
        right
        left
        refine ⟨a, hmax, hlarge, rfl, ?_⟩
        simp only [smalloc, if_neg hinvalid, add64_of_le_max hmax, if_pos hlarge, hmmap]
        rfl
  · right
    right
    have hpos : 0 < size := by omega
    exact ⟨hpos, hsmall, smalloc_of_small env s hpos hsmall⟩

/-- Without a heap there is nothing to split. -/
theorem splitBlockBuddy_of_empty {r : ℕ} (hfits : Fits size r)
    (hr : r ≤ maxBlockOrder)
    (hheads : ∀ k ≤ maxBlockOrder, s.freeBlocksList k = 0) :
    splitBlockBuddy s size = some (s, 0) := by
  have hlists : Lists s.mem s.freeBlocksList fun _ => ∅ := by
    refine ⟨?_, by simp⟩
    intro k hk
    refine ⟨[], ?_, by simp⟩
    rw [hheads k hk]
    exact FreeList.nil _
  obtain ⟨k, hfind, -, -, -, hne⟩ :=
    findOrder_eq hlists loopBound (r := r)
      (by omega) (by rw [loopBound, maxBlockOrder]; omega)
  have hk : maxBlockOrder < k := by
    by_contra hle
    exact hne (by omega) (hheads k (by omega))
  simp only [splitBlockBuddy, getRequiredOrder_eq hr hfits, hfind,
    Option.bind_eq_bind, Option.bind_some]
  rw [if_pos (by omega)]

/-- The header of a fresh mapping, and where `mapBlock` writes. -/
theorem mapBlock_header (s : State) {a : ℕ} (ha : 32 ∣ a)
    (hsize : size ≤ maxAllocationSize) :
    getSize (mapBlock s a size).mem a = size ∧
      isFree (mapBlock s a size).mem a = false ∧
      AgreeOff (range a (size + sizeofMetaData)) s.mem
        (mapBlock s a size).mem := by
  have hlt : size < addressLimit := by
    rw [maxAllocationSize] at hsize
    rw [addressLimit]
    omega
  refine ⟨?_, ?_, ?_⟩
  · simp only [mapBlock, clearLinks]
    rw [getSize_setPrev _ ha ha, getSize_setNext _ ha ha,
      getSize_setIsFree _ ha ha, getSize_setSize _ ha ha hlt, if_pos rfl]
  · simp only [mapBlock, clearLinks]
    rw [isFree_setPrev _ ha ha, isFree_setNext _ ha ha,
      isFree_setIsFree _ ha ha, if_pos rfl]
  · have hsub : headerBytes {a} ⊆ range a (size + sizeofMetaData) := by
      rintro x ⟨c, rfl, hx, hx'⟩
      exact ⟨hx, by rw [sizeofMetaData]; omega⟩
    have hself : a ∈ ({a} : Set ℕ) := rfl
    refine ((agreeOff_fill _ _ _ _).trans
      ((agreeOff_setSize _ hself).mono hsub)).trans
      (((agreeOff_setIsFree _ hself false).mono hsub).trans
        ((agreeOff_clearLinks _ hself).mono
          ((linkBytes_subset_headerBytes _).trans hsub)))

theorem Rep.mapBlock (h : Rep s H o) {a : ℕ} (ha : 32 ∣ a)
    (hsize : size ≤ maxAllocationSize)
    (hoff : ∀ x ∈ range a (size + sizeofMetaData), x ∉ tileBytes root) :
    Rep (mapBlock s a size) H
      ⟨o.blocks + 1, o.bytes + UInt64.ofNat size⟩ :=
  (h.write_outside (mapBlock_header s ha hsize).2.2 hoff).account 1
    (UInt64.ofNat size) (insert a s.mapped)

/-- The bytes a carved block takes are loose before. -/
theorem Carves.tileBytes_subset {H' : Tiling root maxBlockOrder} {big : Block}
    {r : ℕ} (h : Carves H r H' big b) : tileBytes b ⊆ looseBytes H :=
  (tileBytes_mono h.within).trans (tileBytes_subset_looseBytes h.big_free)

/-- `splitBlockBuddy` writes loose bytes only. -/
theorem Carves.changes {H' : Tiling root maxBlockOrder} {big : Block} {r : ℕ}
    {s' : State} (h : Carves H r H' big b)
    (htouch : Touches (insert (addr b) (freeStarts H')) s s') :
    Changes (looseBytes H) s s' := by
  apply Changes.mono htouch
  rintro x ⟨a, rfl | ha, hx⟩
  · exact h.tileBytes_subset (header_subset_tileBytes b ⟨_, rfl, hx⟩)
  · refine looseBytes_anti ?_ (headerBytes_subset_looseBytes ⟨a, ha, hx⟩)
    rw [h.used_eq]
    exact Finset.subset_insert _ _

/-! ## `sfree` -/

/-- The state `sfree` leaves after a successful `munmap`. -/
def unmapBlock (s : State) (block : ℕ) : State :=
  { s with
    mapped := s.mapped.erase block
    allocatedBlocks := s.allocatedBlocks - 1
    allocatedBytes := s.allocatedBytes - UInt64.ofNat (getSize s.mem block)
    metadataBytes := s.metadataBytes - UInt64.ofNat sizeofMetaData }

theorem Rep.unmapBlock (h : Rep s H o) (a : ℕ) :
    Rep (unmapBlock s a) H
      ⟨o.blocks - 1, o.bytes - UInt64.ofNat (getSize s.mem a)⟩ := by
  have hacc := h.account (-1) (-UInt64.ofNat (getSize s.mem a))
    (s.mapped.erase a)
  have hmeta : (32 * -1 : UInt64) = -UInt64.ofNat sizeofMetaData := rfl
  rw [hmeta] at hacc
  simp only [← UInt64.sub_eq_add_neg] at hacc
  exact hacc

theorem sfree_zero : sfree env s 0 = some s := by
  rw [sfree, if_pos rfl]

theorem sfree_of_large (env : Env) {a : ℕ} (hfree : isFree s.mem a = false)
    (hmax : getSize s.mem a ≤ maxAllocationSize)
    (hlarge : mmapMinLimit < getSize s.mem a + sizeofMetaData) :
    sfree env s (a + sizeofMetaData) =
      some (if env.munmap then unmapBlock s a else s) := by
  have hne : a + sizeofMetaData ≠ 0 := by
    rw [sizeofMetaData]
    omega
  simp only [sfree, if_neg hne, Nat.add_sub_cancel, hfree,
    add64_of_le_max hmax, if_pos hlarge, Bool.false_eq_true, if_false]
  cases env.munmap <;> rfl

/-- What freeing the used tile `b` does to the tiling. -/
structure Frees (H : Tiling root maxBlockOrder) (b : Block)
    (H' : Tiling root maxBlockOrder) : Prop where
  used_eq : H'.used = H.used.erase b
  coalesced : H.Coalesced → H'.Coalesced

/-- `sfree` of a used tile, merging included, sets one flag and clears none. -/
theorem sfree_of_used (env : Env) (h : Rep s H o) (hb : b ∈ H.used) :
    ∃ s' H', sfree env s (addr b + sizeofMetaData) = some s' ∧
      Rep s' H' o ∧ Frees H b H' ∧ Changes (looseBytes (H.release b)) s s' ∧
      ∀ t : Block, isFree s'.mem (addr t) =
        if addr t = addr b then true else isFree s.mem (addr t) := by
  have hbt := H.used_subset hb
  have hk := H.order_le b hbt
  have hsmall : ¬ mmapMinLimit < blockSizeByOrder b.order := by
    have hle := blockSizeByOrder_le_max hk
    rw [mmapMinLimit]
    omega
  have hne : addr b + sizeofMetaData ≠ 0 := by
    rw [sizeofMetaData]
    omega
  have hadd : add64 (getSize s.mem (addr b)) sizeofMetaData =
      blockSizeByOrder b.order := by
    rw [h.size_eq b hbt, add64_usable hk]
  have horder := h.getBlockOrder_setIsFree hbt true
  obtain ⟨s₁, hinsert, hrep₁, htouch₁, -, hflag₁⟩ := release_eq h hb
  have hfree₁ := Tiling.mem_free_release H hb
  have hrun : sfree env s (addr b + sizeofMetaData) =
      (attemptFreeBuddyMerge s₁ (addr b) maxBlockOrder).bind
        fun r => some r.1 := by
    simp only [sfree, if_neg hne, Nat.add_sub_cancel, h.isFree_of_used hb,
      hadd, if_neg hsmall, Bool.false_eq_true, if_false, horder, hinsert,
      Option.bind_eq_bind, Option.bind_some]
  have hchange₁ := Changes.mono htouch₁ headerBytes_subset_looseBytes
  rw [hrun]
  rcases Nat.eq_or_lt_of_le hk with hmax | hlt
  · -- A block of the largest order is not merged at all.
    refine ⟨s₁, H.release b, ?_, hrep₁, ⟨rfl, fun hc =>
      (hc.release hb).coalesced (Or.inl hmax)⟩, hchange₁, hflag₁⟩
    have horder₁ := hrep₁.getBlockOrder_eq (Tiling.mem_free.mp hfree₁).1
    simp only [attemptFreeBuddyMerge, if_neg (h.slot hbt).ne_zero, horder₁,
      hmax, if_true, Option.bind_some]
  · obtain ⟨s₂, H₂, b₂, hmerge, hmerged⟩ :=
      attemptFreeBuddyMerge_eq hrep₁ hfree₁ hlt (Nat.le_refl _)
    refine ⟨s₂, H₂, by rw [hmerge]; rfl, hmerged.rep, ⟨?_, ?_⟩,
      hchange₁.trans (Changes.mono hmerged.touches
        headerBytes_subset_looseBytes),
      fun t => (hmerged.isFree_eq t).trans (hflag₁ t)⟩
    · rw [hmerged.merges.used_eq, Tiling.release_used]
    · intro hc
      exact (hmerged.merges.coalescedExcept (hc.release hb)).coalesced
        hmerged.stop

/-! ## `srealloc` -/

/-- Setting the flag of a used block for the growth test and clearing it again
leaves memory as it was. -/
theorem restore_header {m : Mem} {a : ℕ} (hfree : isFree m a = false) :
    setIsFree (setSize (setIsFree m a true) a (getSize m a)) a false = m := by
  have hbyte : m (a + 8) = 0 := by
    simpa [isFree] using hfree
  funext x
  simp only [setIsFree, setSize, writeLE, getSize]
  by_cases hflag : x = a + 8
  · subst hflag
    rw [if_pos ⟨Nat.le_refl _, Nat.lt_succ_self _⟩, hbyte, Nat.sub_self]
    rfl
  · rw [if_neg (by omega)]
    split
    · next h =>
      obtain ⟨i, rfl⟩ := Nat.exists_eq_add_of_le h.1
      rw [Nat.add_sub_cancel_left]
      exact ofNat_readLE_div m a (by omega)
    · rw [if_neg (by omega)]

theorem srealloc_of_invalid (env : Env) (s : State) (p : ℕ)
    (h : size = 0 ∨ maxAllocationSize < size) :
    srealloc env s p size = some (s, 0) := by
  rw [srealloc, if_pos h]

section Valid

variable (hvalid : ¬ (size = 0 ∨ maxAllocationSize < size))

include hvalid

theorem srealloc_zero (env : Env) (s : State) :
    srealloc env s 0 size = smalloc env s size := by
  rw [srealloc, if_neg hvalid, if_pos rfl]

theorem srealloc_of_le (env : Env) {a : ℕ} (hle : size ≤ getSize s.mem a) :
    srealloc env s (a + sizeofMetaData) size =
      some (s, a + sizeofMetaData) := by
  simp only [srealloc, if_neg hvalid, Nat.add_sub_cancel, if_pos hle]
  rw [if_neg (by rw [sizeofMetaData]; omega)]

theorem srealloc_of_large (env : Env) {a : ℕ} (hlt : getSize s.mem a < size)
    (hlarge : mmapMinLimit < size + sizeofMetaData) :
    srealloc env s (a + sizeofMetaData) size =
      moveAlloc env s (a + sizeofMetaData) size := by
  simp only [srealloc, if_neg hvalid, Nat.add_sub_cancel,
    if_neg (Nat.not_le.mpr hlt),
    add64_of_le_max (Nat.le_of_not_lt fun h => hvalid (Or.inr h)),
    if_pos hlarge]
  rw [if_neg (by rw [sizeofMetaData]; omega)]

end Valid

end OsCoursework.Allocator
