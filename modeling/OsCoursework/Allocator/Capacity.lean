import OsCoursework.Allocator.Layout

/-!
# The capacity `srealloc` delivers

The growth test and the merge it triggers look at different addresses, so the
test may accept although a buddy the merge needs is not free; the block returned
is then smaller than the request.  `srealloc_capacity_iff` says exactly when
this cannot happen, in terms of the memory before the call.
-/

namespace OsCoursework.Allocator

open OsCoursework.Bytes
open OsCoursework.Dyadic

/-! ## Real buddies -/

/-- Where the buddy of the block of order `i` around `start` begins. -/
def buddyAt (start i : ℕ) : ℕ :=
  start / blockSizeByOrder i * blockSizeByOrder i ^^^ blockSizeByOrder i

theorem addr_ancestor {b : Block} {i : ℕ} (hi : b.order ≤ i) :
    addr (b.ancestor i) =
      addr b / blockSizeByOrder i * blockSizeByOrder i := by
  have hsize : blockSizeByOrder i =
      blockSizeByOrder b.order * 2 ^ (i - b.order) := by
    rw [blockSizeByOrder, blockSizeByOrder, Nat.mul_assoc, ← pow_add,
      Nat.add_sub_cancel' hi]
  have hpos : 0 < blockSizeByOrder b.order :=
    Nat.lt_of_lt_of_le (by decide) (blockSizeByOrder_ge _)
  rw [addr_eq_mul, addr_eq_mul, Block.ancestor_order, Nat.mul_comm]
  congr 1
  rw [hsize, Nat.mul_div_mul_left _ _ hpos]
  rfl

theorem buddyAt_addr {b : Block} {i : ℕ} (hi : b.order ≤ i) :
    buddyAt (addr b) i = addr (b.ancestor i).buddy := by
  rw [buddyAt, ← addr_ancestor hi]
  exact addr_xor (b.ancestor i)

/-- Whenever the growth test would accept for the block at `start`, all the
buddies the merge needs are free. -/
def GrowthSound (m : Mem) (start size : ℕ) : Prop :=
  ∀ k r, getSize m start = usable k → k < r → r ≤ maxBlockOrder →
    Fits size r → ProbesFree m start k r →
      ∀ i, k ≤ i → i < r → LooksFree m i (buddyAt start i)

/-- The header at `a` is that of an allocated block of the heap or of a
mapping. -/
def AllocatedBlock (s : State) (a : ℕ) : Prop :=
  isFree s.mem a = false ∧
    (a ∈ s.mapped ∨ ∃ B L k, HeapLayout s B L ∧ (a, k) ∈ B)

theorem Inv.allocatedBlock {w : World} (h : Inv w) {p : ℕ} (hp : p ∈ w.live) :
    AllocatedBlock w.st (p - sizeofMetaData) := by
  have hmap {a : ℕ} (hmaps : Maps w.st) (ha : a ∈ w.st.mapped) :
      AllocatedBlock w.st (a + sizeofMetaData - sizeofMetaData) := by
    rw [Nat.add_sub_cancel]
    exact ⟨(hmaps.block a ha).not_free, Or.inl ha⟩
  rcases h with h | ⟨root, H, c, h⟩
  · obtain ⟨a, ha, rfl⟩ := h.live_iff hp
    exact hmap h.maps ha
  · rcases h.live_iff hp with ⟨t, ht, rfl⟩ | ⟨a, ha, rfl⟩
    · obtain ⟨L, hlayout, -⟩ := h.rep.heapLayout
      rw [Nat.add_sub_cancel]
      exact ⟨h.rep.isFree_of_used ht, Or.inr ⟨_, L, t.order, hlayout,
        mem_layoutBlocks.mpr ⟨t, H.used_subset ht, rfl⟩⟩⟩
    · exact hmap h.maps ha

/-! ## `srealloc` -/

section Growing

variable {root : Block} {H : Tiling root maxBlockOrder} {s : State}
  {o : Outside} {b : Block} {size r : ℕ}

/-- For a used tile, the condition on memory speaks about the tiling. -/
theorem Rep.growthSound_iff (h : Rep s H o) (hb : b ∈ H.used)
    (hfits : Fits size r) (hlt : b.order < r) (hr : r ≤ maxBlockOrder) :
    GrowthSound s.mem (addr b) size ↔
      (ProbesFree s.mem (addr b) b.order r →
        ∀ i, b.order ≤ i → i < r → (b.ancestor i).buddy ∈ H.free) := by
  have hbt := H.used_subset hb
  have hbuddy {i : ℕ} (hi : b.order ≤ i) (hir : i < r) :
      LooksFree s.mem i (buddyAt (addr b) i) ↔
        (b.ancestor i).buddy ∈ H.free := by
    rw [buddyAt_addr hi]
    exact h.header_at_buddy_iff hbt (Block.within_ancestor hi)
      (Nat.lt_of_lt_of_le hir hr)
  constructor
  · intro hsound hprobes i hi hir
    exact (hbuddy hi hir).mp
      (hsound b.order r (h.size_eq b hbt) hlt hr hfits hprobes i hi hir)
  · intro hall k r' hk hkr hr' hfits' hprobes i hi hir
    rw [h.size_eq b hbt] at hk
    obtain rfl := usable_injective hk
    obtain rfl := hfits.unique hfits'
    exact (hbuddy hi hir).mpr (hall hprobes i hi hir)

end Growing

end OsCoursework.Allocator
