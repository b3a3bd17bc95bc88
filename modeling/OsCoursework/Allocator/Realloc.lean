import OsCoursework.Allocator.Calls

/-!
# Growing a block in place

When the growth test accepts, `srealloc` frees the block, merges it with
`attemptFreeBuddyMerge` and takes the merged block.  The merge recomputes the
buddies from the headers, so it climbs exactly through the buddies that are
really free; it reaches the required order exactly when all of them are.
-/

namespace OsCoursework.Allocator

open OsCoursework.Bytes
open OsCoursework.Dyadic

variable {root : Block} {H : Tiling root maxBlockOrder} {s : State}
  {o : Outside} {b : Block} {env : Env} {size r : ℕ}

/-! ## What growing does to the tiling -/

/-- The used tile `b` is freed, merged upwards to at most order `r`, and the
block `b'` this leads to is taken. -/
structure Grows (H : Tiling root maxBlockOrder) (r : ℕ) (b : Block)
    (H' : Tiling root maxBlockOrder) (b' : Block) : Prop where
  mem_used : b ∈ H.used
  merges : ∃ (H₁ : Tiling root maxBlockOrder) (hb : b' ∈ H₁.tiles),
    Tiling.MergesTo (H.release b) b H₁ b' ∧
      (b'.order = r ∨ b'.buddy ∉ H₁.free) ∧ H' = H₁.take b' hb
  order_le : b'.order ≤ r

namespace Grows

variable {H' : Tiling root maxBlockOrder} {b' : Block}

theorem used_eq (h : Grows H r b H' b') :
    H'.used = insert b' (H.used.erase b) := by
  obtain ⟨H₁, hb, hmerges, -, rfl⟩ := h.merges
  rw [Tiling.take_used, hmerges.used_eq, Tiling.release_used]

theorem mem_tiles (h : Grows H r b H' b') : b' ∈ H'.tiles :=
  H'.used_subset (by rw [h.used_eq]; exact Finset.mem_insert_self _ _)

theorem within (h : Grows H r b H' b') : b.Within b' := by
  obtain ⟨H₁, hb, hmerges, -, -⟩ := h.merges
  exact hmerges.within

theorem coalesced (h : Grows H r b H' b') (hc : H.Coalesced) :
    H'.Coalesced := by
  obtain ⟨H₁, hb, hmerges, -, rfl⟩ := h.merges
  exact (hmerges.coalescedExcept (hc.release h.mem_used)).take hb

/-- The merged block is a new tile unless nothing was merged. -/
theorem not_mem_used (h : Grows H r b H' b') : b' ∉ H.used.erase b := by
  intro hmem
  obtain ⟨hne, hmem⟩ := Finset.mem_erase.mp hmem
  exact hne (H.eq_of_within (H.used_subset h.mem_used)
    (H.used_subset hmem) h.within).symm

/-- A buddy of an ancestor of a block is not that block. -/
theorem ancestor_buddy_ne {i : ℕ} (hi : b.order ≤ i) :
    (b.ancestor i).buddy ≠ b := by
  intro heq
  have hcontains : (b.ancestor i).buddy.Contains b.first :=
    heq.symm ▸ b.contains_first
  exact Block.not_contains_buddy
    ((Block.within_ancestor hi).contains b.contains_first) hcontains

/-- The required order is reached exactly when the buddy at every level below
it is a free tile. -/
theorem order_eq_iff (h : Grows H r b H' b') :
    b'.order = r ↔
      ∀ i, b.order ≤ i → i < r → (b.ancestor i).buddy ∈ H.free := by
  obtain ⟨H₁, hb, hmerges, hstop, -⟩ := h.merges
  constructor
  · intro heq i hi hir
    have hmem := hmerges.buddy_mem_free hi (heq ▸ hir)
    rw [Tiling.free_release H h.mem_used, Finset.mem_insert] at hmem
    rcases hmem with hself | hmem
    · exact absurd hself (ancestor_buddy_ne hi)
    · exact hmem
  · intro hall
    by_contra hne
    rcases hstop with heq | hnot
    · exact hne heq
    · have hlt : b'.order < r := Nat.lt_of_le_of_ne h.order_le hne
      have hself : b.ancestor b'.order = b' := hmerges.within.ancestor_eq
      have hfree := hall b'.order hmerges.within.1 hlt
      rw [hself] at hfree
      refine hnot ((hmerges.mem_free_iff ?_).mpr ?_)
      · intro hwithin
        exact b'.buddy_ne (hwithin.eq_of_order (Nat.le_refl _))
      · exact Tiling.free_subset_release H h.mem_used hfree

/-- The merged block covers the freed block and loose bytes. -/
theorem tileBytes_subset (h : Grows H r b H' b') :
    tileBytes b' ⊆ looseBytes (H.release b) := by
  intro x hx
  refine ⟨tileBytes_mono (H'.within_root b' h.mem_tiles) hx, ?_⟩
  intro t ht htx
  have htused : t ∈ H'.used := by
    rw [h.used_eq]
    exact Finset.mem_insert_of_mem ht
  have heq := tile_bytes_disjoint H' h.mem_tiles (H'.used_subset htused) hx htx
  exact h.not_mem_used (heq ▸ ht)

end Grows

/-! ## The code -/

/-- The target order `srealloc` passes on is the required one. -/
theorem getRequiredOrder_target (hpos : 0 < r) (hr : r ≤ maxBlockOrder) :
    getRequiredOrder (sub64 (usable r) sizeofMetaData) = r := by
  obtain ⟨j, rfl⟩ : ∃ j, r = j + 1 := ⟨r - 1, by omega⟩
  have hadd := usable_add (j + 1)
  have hsucc := blockSizeByOrder_succ j
  have hge := blockSizeByOrder_ge j
  have hlt := usable_lt hr
  rw [addressLimit] at hlt
  rw [sizeofMetaData] at hadd ⊢
  have hsub : sub64 (usable (j + 1)) 32 = usable (j + 1) - 32 := by
    rw [sub64]
    omega
  rw [hsub]
  refine getRequiredOrder_eq hr ⟨?_, ?_⟩
  · rw [sizeofMetaData]
    omega
  · intro i hi
    have hle := blockSizeByOrder_le_of_le (Nat.le_of_lt_succ hi)
    rw [sizeofMetaData]
    omega

/-- Taking a given free tile: clear its flag, leave its list. -/
theorem takeBlock_eq (h : Rep s H o) (hb : b ∈ H.free) :
    ∃ s', State.removeBlockAt { s with mem := setIsFree s.mem (addr b) false }
        b.order (addr b) = some s' ∧
      Rep s' (H.take b (Tiling.mem_free.mp hb).1) o ∧
      Touches (freeStarts H) s s' ∧
      (∀ t : Block, getSize s'.mem (addr t) = getSize s.mem (addr t)) ∧
      ∀ t : Block, isFree s'.mem (addr t) =
        if addr t = addr b then false else isFree s.mem (addr t) := by
  have hbt := (Tiling.mem_free.mp hb).1
  have hk := H.order_le b hbt
  have hbd := addr_dvd b
  have hlists₁ : Lists (setIsFree s.mem (addr b) false) s.freeBlocksList
      (freeAddrs H) :=
    h.lists.setIsFree hbd false
  obtain ⟨m, heads, hrun, hlists, hlinks⟩ :=
    removeBlockAt_eq (s := { s with mem := setIsFree s.mem (addr b) false })
      hlists₁ hk ((addr_mem_freeAddrs H hbt).mpr ⟨hb, rfl⟩)
  have hfield (t : Block) := hlinks.size_isFree_eq (addr_dvd t)
  have hsize (t : Block) : getSize m (addr t) = getSize s.mem (addr t) := by
    rw [(hfield t).1, getSize_setIsFree s.mem hbd (addr_dvd t)]
  have hfree (t : Block) : isFree m (addr t) =
      if addr t = addr b then false else isFree s.mem (addr t) := by
    rw [(hfield t).2, isFree_setIsFree s.mem hbd (addr_dvd t)]
  refine ⟨_, hrun, h.take hbt hlists hsize hfree, ⟨?_, rfl, rfl, rfl, rfl⟩, hsize,
    hfree⟩
  · have hself : addr b ∈ freeStarts H := ⟨b, hb, rfl⟩
    exact (agreeOff_setIsFree s.mem hself false).trans
      (hlinks.agreeOff_headers (freeAddrs_subset_freeStarts H _))

/-- No header of a free tile lies in the payload of a tile. -/
theorem payload_not_mem_headerBytes (hb : b ∈ H.tiles) {x : ℕ}
    (hx : x ∈ range (addr b + sizeofMetaData) (usable b.order)) :
    x ∉ headerBytes (freeStarts H) := by
  rintro ⟨a, ⟨t, ht, rfl⟩, hlow, hhigh⟩
  have hadd := usable_add b.order
  have hge := blockSizeByOrder_ge t.order
  have hxb : x ∈ tileBytes b := ⟨by have := hx.1; omega, by have := hx.2; omega⟩
  have heq := tile_bytes_disjoint H hb (Tiling.mem_free.mp ht).1 hxb
    ⟨hlow, by omega⟩
  have hstart := hx.1
  rw [sizeofMetaData, heq] at hstart
  omega

/-- The size field of the old block may be stale after the merge, but a copy of
that length covers the old payload and fits the merged block. -/
theorem Merged.stale_size {r : ℕ} {s' : State} {H' : Tiling root maxBlockOrder}
    {b' : Block} (h : Merged r s H o b s' H' b')
    (hsize : getSize s.mem (addr b) = usable b.order) :
    usable b.order ≤ getSize s'.mem (addr b) ∧
      getSize s'.mem (addr b) ≤ usable b'.order := by
  constructor
  · rcases h.size_ge b with heq | hge
    · rw [heq, hsize]
    · exact hge
  · rcases h.size_le b with heq | hle
    · rw [heq, hsize]
      exact usable_le_of_le h.merges.within.1
    · exact hle

/-- Writing inside a payload keeps the flags of headers outside its block. -/
theorem isFree_of_write_payload {m m' : Mem}
    (h : AgreeOff (range (addr b + sizeofMetaData) (usable b.order)) m m')
    {t : Block} (ht : addr t ∉ tileBytes b) :
    isFree m' (addr t) = isFree m (addr t) := by
  have hbyte : m' (addr t + 8) = m (addr t + 8) := by
    apply h
    rintro ⟨hlow, hhigh⟩
    have hadd := usable_add b.order
    rw [sizeofMetaData] at hlow hhigh hadd
    exact ht ⟨by omega, by omega⟩
  rw [isFree, isFree, hbyte]

/-- The in-place branch of `srealloc` is defined, grows the tiling and brings
the old payload along. -/
theorem growInPlace_spec (h : Rep s H o) (hb : b ∈ H.used) (hlt : b.order < r)
    (hr : r ≤ maxBlockOrder) :
    ∃ s' H' b', growInPlace s (addr b) (usable r) =
        some (s', addr b' + sizeofMetaData) ∧
      Rep s' H' o ∧ Grows H r b H' b' ∧
      Changes (looseBytes (H.release b)) s s' ∧
      (∀ i < usable b.order, s'.mem (addr b' + sizeofMetaData + i) =
        s.mem (addr b + sizeofMetaData + i)) ∧
      ∀ t : Block, addr t ∉ tileBytes b' → isFree s.mem (addr t) = true →
        isFree s'.mem (addr t) = true := by
  have hbt := H.used_subset hb
  have horder₀ := h.getBlockOrder_setIsFree hbt true
  obtain ⟨s₁, hrun₁, hrep₁, htouch₁, hsize₁, hflag₁⟩ := release_eq h hb
  have hfree₁ := Tiling.mem_free_release H hb
  obtain ⟨s₂, H₂, b', hrun₂, hmerged⟩ :=
    attemptFreeBuddyMerge_eq hrep₁ hfree₁ hlt hr
  have hfree₂ := hmerged.merges.mem_free hfree₁
  have hbt₂ := (Tiling.mem_free.mp hfree₂).1
  obtain ⟨s₃, hrun₃, hrep₃, htouch₃, hsize₃, hfree₃⟩ :=
    takeBlock_eq hmerged.rep hfree₂
  have horder₂ := hmerged.rep.getBlockOrder_setIsFree hbt₂ false
  have hsize : getSize s₁.mem (addr b) = usable b.order := by
    rw [hsize₁ b, h.size_eq b hbt]
  obtain ⟨hcovers, hlength⟩ := hmerged.stale_size hsize
  rw [← hsize₃ b] at hcovers hlength
  have htouch : Touches (freeStarts (H.release b)) s s₃ :=
    (htouch₁.trans hmerged.touches).trans
      (htouch₃.mono (freeStarts_subset_of_mergesTo hmerged.merges))
  have hcopy := (agreeOff_copy s₃.mem (addr b' + sizeofMetaData)
    (addr b + sizeofMetaData) (getSize s₃.mem (addr b))).mono
    (W := range (addr b' + sizeofMetaData) (usable b'.order)) (by
      rintro x ⟨hx, hx'⟩
      exact ⟨hx, by omega⟩)
  have hgrows : Grows H r b (H₂.take b' hbt₂) b' :=
    ⟨hb, ⟨H₂, hbt₂, hmerged.merges, hmerged.stop, rfl⟩, hmerged.order_le⟩
  refine ⟨_, _, b', ?_, hrep₃.write_payload hbt₂ hcopy, hgrows, ?_, ?_, ?_⟩
  · simp only [growInPlace, horder₀, hrun₁, Option.bind_eq_bind,
      Option.bind_some, getRequiredOrder_target (Nat.zero_lt_of_lt hlt) hr,
      hrun₂, deref, if_neg (hmerged.rep.slot hbt₂).ne_zero, horder₂, hrun₃]
  · refine (Changes.mono htouch headerBytes_subset_looseBytes).trans
      ⟨hcopy.mono ?_, rfl, rfl, rfl, rfl⟩
    refine Set.Subset.trans ?_ hgrows.tileBytes_subset
    have hadd := usable_add b'.order
    rintro x ⟨hx, hx'⟩
    exact ⟨by omega, by omega⟩
  · intro i hi
    have hold : s₃.mem (addr b + sizeofMetaData + i) =
        s.mem (addr b + sizeofMetaData + i) :=
      htouch.agree _ (payload_not_mem_headerBytes (H := H.release b) hbt
        ⟨Nat.le_add_right _ _, by omega⟩)
    rw [← hold]
    exact copy_apply _ (by omega)
  · intro t ht hfree
    have hflag : isFree s₃.mem (addr t) = true := by
      have hne : addr t ≠ addr b' := by
        rintro heq
        have hge := blockSizeByOrder_ge b'.order
        exact ht ⟨Nat.le_of_eq heq.symm, by omega⟩
      rw [hfree₃ t, if_neg hne, hmerged.isFree_eq t, hflag₁ t, hfree, ite_self]
    exact (isFree_of_write_payload hcopy ht).trans hflag

/-- The same without the contents. -/
theorem growInPlace_eq (h : Rep s H o) (hb : b ∈ H.used) (hlt : b.order < r)
    (hr : r ≤ maxBlockOrder) :
    ∃ s' H' b', growInPlace s (addr b) (usable r) =
        some (s', addr b' + sizeofMetaData) ∧
      Rep s' H' o ∧ Grows H r b H' b' ∧
      Changes (looseBytes (H.release b)) s s' := by
  obtain ⟨s', H', b', hrun, hrep, hgrows, hchange, -, -⟩ :=
    growInPlace_spec h hb hlt hr
  exact ⟨s', H', b', hrun, hrep, hgrows, hchange⟩

/-! ## The decision -/

/-- Every address the growth test probes for a block at `start` of order `k`
reads like a free header of that order. -/
def ProbesFree (m : Mem) (start k r : ℕ) : Prop :=
  ∀ j, k + j < r → LooksFree m k (probe start k j).2

/-- The flag of the block itself is not among the probes. -/
theorem probesFree_setIsFree {m : Mem} {a k r : ℕ} (ha : 32 ∣ a) (f : Bool) :
    ProbesFree (setIsFree m a f) a k r ↔ ProbesFree m a k r := by
  refine forall_congr' fun j => forall_congr' fun _ => ?_
  rw [LooksFree, LooksFree, getSize_setIsFree _ ha (probe_dvd ha).2,
    isFree_setIsFree _ ha (probe_dvd ha).2, if_neg probe_ne_start]

/-- `srealloc` up to its loop, for a block that is too small. -/
theorem Rep.srealloc_eq_growLoop (env : Env) (h : Rep s H o) (hb : b ∈ H.used)
    (hfits : Fits size r) (hlt : b.order < r) (hr : r ≤ maxBlockOrder) :
    srealloc env s (addr b + sizeofMetaData) size =
      (growLoop (setIsFree s.mem (addr b) true) size loopBound
        (probe (addr b) b.order 0).1 (probe (addr b) b.order 0).2
        (usable b.order)).bind fun x =>
          if x.1 then growInPlace s (addr b) x.2
          else moveAlloc env s (addr b + sizeofMetaData) size := by
  have hsize := h.size_eq b (H.used_subset hb)
  have hbd := addr_dvd b
  have hbound : size + sizeofMetaData ≤ mmapMinLimit :=
    Nat.le_trans hfits.1 (blockSizeByOrder_le_max hr)
  have hlarge : ¬ size ≤ usable b.order := by
    rw [hfits.le_usable_iff]
    omega
  have hmax : size ≤ maxAllocationSize := by
    rw [mmapMinLimit, sizeofMetaData] at hbound
    rw [maxAllocationSize]
    omega
  have hvalid : ¬ (size = 0 ∨ maxAllocationSize < size) := by omega
  have hne : addr b + sizeofMetaData ≠ 0 := by
    rw [sizeofMetaData]
    omega
  have hsize₁ : getSize (setIsFree s.mem (addr b) true) (addr b) = usable b.order := by
    rw [getSize_setIsFree _ hbd hbd, hsize]
  have hbuddy₁ : findBuddy (setIsFree s.mem (addr b) true) (addr b) =
      (probe (addr b) b.order 0).2 := by
    rw [findBuddy, hsize₁, add64_usable (Nat.le_of_lt (by omega))]
    rfl
  have hrestore := restore_header (h.isFree_of_used hb)
  rw [hsize] at hrestore
  simp only [srealloc, if_neg hvalid, if_neg hne, Nat.add_sub_cancel, hsize,
    if_neg hlarge, add64_of_le_max hmax, if_neg (Nat.not_lt.mpr hbound),
    Option.bind_eq_bind, hrestore]
  rw [hbuddy₁, hsize₁]
  rfl

/-- A small request that the block does not hold is served in place when every
probe reads free, and elsewhere otherwise. -/
theorem srealloc_of_used (env : Env) (h : Rep s H o) (hb : b ∈ H.used)
    (hfits : Fits size r) (hlt : b.order < r) (hr : r ≤ maxBlockOrder) :
    (ProbesFree s.mem (addr b) b.order r ∧
      srealloc env s (addr b + sizeofMetaData) size =
        growInPlace s (addr b) (usable r)) ∨
    (¬ ProbesFree s.mem (addr b) b.order r ∧
      srealloc env s (addr b + sizeofMetaData) size =
        moveAlloc env s (addr b + sizeofMetaData) size) := by
  have hbt := H.used_subset hb
  have hbd := addr_dvd b
  have hprobes := probesFree_setIsFree (m := s.mem) (k := b.order) (r := r) hbd true
  have hself : LooksFree (setIsFree s.mem (addr b) true) b.order
      (probe (addr b) b.order 0).1 := by
    refine ⟨(getSize_setIsFree _ hbd hbd true).trans (h.size_eq b hbt), ?_⟩
    exact (isFree_setIsFree s.mem hbd hbd true).trans (if_pos rfl)
  have hstart : 2 ^ 17 ≤ addr b := by
    have hlow := (tile_addr_bounds H h.heapRoot hbt).1
    have hge := HeapRoot.le_addr h.heapRoot
    rw [heapAlignmentSize, numInitialBlocks, blockSizeBytes] at hge
    omega
  have hfuel : r - (b.order + 0) < loopBound := by
    rw [maxBlockOrder] at hr
    rw [loopBound]
    omega
  rw [h.srealloc_eq_growLoop env hb hfits hlt hr]
  rcases growLoop_eq hfits hr (Nat.le_of_lt hlt) hstart hself hfuel with
    ⟨hall, hloop⟩ | ⟨⟨j, hj, hnot⟩, v, hloop⟩
  · refine Or.inl ⟨hprobes.mp fun j hj => hall j (Nat.zero_le j) hj, ?_⟩
    rw [Nat.add_zero] at hloop
    simp only [hloop, Option.bind_some, if_true]
  · refine Or.inr ⟨fun hall => hnot (hprobes.mpr hall j hj), ?_⟩
    rw [Nat.add_zero] at hloop
    simp only [hloop, Option.bind_some, Bool.false_eq_true, if_false]

end OsCoursework.Allocator
