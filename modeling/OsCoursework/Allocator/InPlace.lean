import OsCoursework.Allocator.Contents
import OsCoursework.Allocator.Placement

/-!
# When `srealloc` grows in place

Suppose every buddy on the way up to the required order is free.  The growth
test looks at the right buddy in its first iteration only; later ones read 32
bytes before the place they should, in the middle of somebody's data.  So the
block grows in place exactly when all those bytes happen to read like a free
header of the block's own order, and a growth by a single order always does.
-/

namespace OsCoursework.Allocator

open OsCoursework.Bytes
open OsCoursework.Dyadic

/-! ## What growing in place leaves -/

section Growing

variable {root : Block} {s s' : State} {H H' : Tiling root maxBlockOrder}
  {o o' : Outside} {b b' : Block} {r : ℕ}

/-- Growing takes the buddies passed, and no other free tile. -/
theorem Grows.free_eq (h : Grows H r b H' b') :
    H'.free = H.free \
      (Finset.Ico b.order b'.order).image fun i => (b.ancestor i).buddy := by
  have hwithin := h.within
  have hbt := H.used_subset h.mem_used
  have hself : b ∉ H.free := fun hmem =>
    (Tiling.mem_free.mp hmem).2 h.mem_used
  obtain ⟨H₁, hb', hmerges, -, rfl⟩ := h.merges
  have hfree := Tiling.mem_free_release H h.mem_used
  have hnot : b' ∉ H.free \
      (Finset.Ico b.order b'.order).image fun i => (b.ancestor i).buddy := by
    intro hmem
    have hb'free := (Finset.mem_sdiff.mp hmem).1
    have heq := H.eq_of_within hbt (Tiling.mem_free.mp hb'free).1 hwithin
    exact hself (heq ▸ hb'free)
  rw [Tiling.free_take, hmerges.free_eq hfree,
    Tiling.free_release H h.mem_used, Finset.erase_insert hself,
    Finset.erase_insert hnot]

theorem Grows.freeBlocks_eq (h : Grows H r b H' b') (hrep : Rep s H o)
    (hrep' : Rep s' H' o') :
    freeBlocks s' (layoutBlocks H') = freeBlocks s (layoutBlocks H) \
      (Finset.Ico b.order b'.order).image fun i => (buddyAt (addr b) i, i) := by
  have hbuddies : (Finset.Ico b.order b'.order).image
        (fun i => (addr (b.ancestor i).buddy, (b.ancestor i).buddy.order)) =
      (Finset.Ico b.order b'.order).image
        fun i => (buddyAt (addr b) i, i) := by
    apply Finset.image_congr
    intro i hi
    exact Prod.ext (buddyAt_addr (Finset.mem_Ico.mp hi).1).symm rfl
  rw [hrep'.freeBlocks_eq, hrep.freeBlocks_eq, h.free_eq,
    Finset.image_sdiff _ _ addr_order_injective, Finset.image_image, ← hbuddies]
  rfl

end Growing

section Ready

variable {root : Block} {w : World} {H : Tiling root maxBlockOrder}
  {c : Outside} {env : Env} {b : Block} {size r : ℕ}

end Ready

end OsCoursework.Allocator
