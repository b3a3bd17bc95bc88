import OsCoursework.Allocator.Layout

/-!
# When `smalloc` fails

`smalloc` looks at the heads of the free lists only.  Because the heap is
coalesced, it nevertheless fails exactly when the heap has no room: when every
aligned window of the required size meets an allocated block.
-/

namespace OsCoursework.Allocator

open OsCoursework.Bytes
open OsCoursework.Dyadic

/-- Every aligned window of order `k` in the heap meets an allocated block. -/
def Crowded (s : State) (B : Finset (ℕ × ℕ)) (k : ℕ) : Prop :=
  ∀ a, blockSizeByOrder k ∣ a →
    range a (blockSizeByOrder k) ⊆ heapBytes s.heapBaseAligned →
      ∃ x ∈ B, isFree s.mem x.1 = false ∧
        ¬ Disjoint (range a (blockSizeByOrder k)) (heapBlockBytes x)

section Windows

variable {root : Block} {H : Tiling root maxBlockOrder} {s : State}
  {o : Outside} {k : ℕ}

/-- An aligned window is a dyadic block. -/
theorem exists_window {a : ℕ} (h : blockSizeByOrder k ∣ a) :
    ∃ v : Block, v.order = k ∧ tileBytes v = range a (blockSizeByOrder k) := by
  obtain ⟨i, rfl⟩ := h
  refine ⟨⟨k, i⟩, rfl, ?_⟩
  rw [tileBytes, addr_eq_mul]

/-- A block is unused exactly when it shares no byte with a used tile. -/
theorem unused_of_disjoint {v : Block}
    (h : ∀ t ∈ H.used, Disjoint (tileBytes v) (tileBytes t)) : H.Unused v := by
  intro t ht x htx hvx
  have hbyte (u : Block) (hu : u.Contains x) : 128 * x ∈ tileBytes u := by
    apply byte_mem_iff.mpr
    rwa [Nat.mul_div_cancel_left x (by decide)]
  exact Set.disjoint_left.mp (h t ht) (hbyte v hvx) (hbyte t htx)

/-- A dyadic block whose bytes lie in the heap is a part of the heap. -/
theorem within_root_of_subset {v : Block} (horder : v.order ≤ root.order)
    (h : tileBytes v ⊆ tileBytes root) : v.Within root := by
  have hge := blockSizeByOrder_ge v.order
  have hstart : addr v ∈ tileBytes v := ⟨Nat.le_refl _, by omega⟩
  exact Block.within_of_contains horder
    (byte_mem_iff.mp hstart) (byte_mem_iff.mp (h hstart))

/-- The heap is crowded for order `k` exactly when no free tile reaches `k`. -/
theorem Rep.crowded_iff (h : Rep s H o) (hc : H.Coalesced)
    (hk : k ≤ maxBlockOrder) :
    Crowded s (layoutBlocks H) k ↔ ∀ t ∈ H.free, t.order < k := by
  constructor
  · intro hcrowded t ht
    by_contra hle
    have hkt : k ≤ t.order := Nat.le_of_not_lt hle
    obtain ⟨htile, hnot⟩ := Tiling.mem_free.mp ht
    have hsub : range (addr t) (blockSizeByOrder k) ⊆ tileBytes t := by
      have hsize := blockSizeByOrder_le_of_le hkt
      rintro x ⟨hx, hx'⟩
      exact ⟨hx, by omega⟩
    have hdvd : blockSizeByOrder k ∣ addr t := by
      rw [addr_eq_mul]
      exact Dvd.dvd.mul_right (Nat.mul_dvd_mul_left _ (Nat.pow_dvd_pow 2 hkt)) _
    obtain ⟨x, hx, hfree, hmeet⟩ := hcrowded (addr t) hdvd (by
      rw [← h.tileBytes_root]
      exact hsub.trans (tileBytes_mono (H.within_root t htile)))
    obtain ⟨u, hu, rfl⟩ := mem_layoutBlocks.mp hx
    obtain ⟨y, hy, hyu⟩ := Set.not_disjoint_iff.mp hmeet
    obtain rfl := tile_bytes_disjoint H htile hu (hsub hy) hyu
    rw [h.isFree_of_free ht] at hfree
    cases hfree
  · intro hsmall a hdvd hsub
    obtain ⟨v, hv, hbytes⟩ := exists_window hdvd
    rw [← hbytes] at hsub ⊢
    rw [← h.tileBytes_root] at hsub
    have hroot : v.Within root := by
      refine within_root_of_subset ?_ hsub
      exact Nat.le_trans (hv ▸ hk) H.le_root
    by_contra hnone
    have hunused : H.Unused v := by
      refine unused_of_disjoint fun t ht => ?_
      by_contra hmeet
      exact hnone ⟨_, mem_layoutBlocks.mpr ⟨t, H.used_subset ht, rfl⟩,
        h.isFree_of_used ht, hmeet⟩
    obtain ⟨t, ht, hvt⟩ :=
      Tiling.exists_free_of_unused hc hroot (hv ▸ hk) hunused
    have := hsmall t ht
    have := hvt.1
    omega

end Windows

/-- A request below the `mmap` limit is refused exactly when the heap is
crowded for its order. -/
theorem smalloc_null_iff (w : World) (hreach : Reachable w)
    (hinit : w.st.initialized = true) (B : Finset (ℕ × ℕ)) (L : ℕ → List ℕ)
    (hlayout : HeapLayout w.st B L) (env : Env) (size k : ℕ) (hpos : 1 ≤ size)
    (hsmall : size ≤ blockSizeBytes - sizeofMetaData) (hfits : Fits size k) :
    ∃ s' p, smalloc env w.st size = some (s', p) ∧
      (p = 0 ↔ Crowded w.st B k) := by
  obtain ⟨root, H, c, h⟩ := hreach.ready hinit
  obtain ⟨rfl, -⟩ := h.rep.layout_eq hlayout
  have hlimit : size + sizeofMetaData ≤ mmapMinLimit := by
    rw [blockSizeBytes, sizeofMetaData] at hsmall
    rw [mmapMinLimit, sizeofMetaData]
    omega
  have hk : k ≤ maxBlockOrder := by
    obtain ⟨r, hr, hfits'⟩ := exists_fits hlimit
    rwa [hfits.unique hfits']
  have hrun := smalloc_of_small env w.st hpos hlimit
  rw [ensureHeap_of_initialized env h.initialized] at hrun
  rw [hrun]
  have hcrowded := h.rep.crowded_iff h.coalesced hk
  rcases splitBlockBuddy_eq hfits hk h.rep with
    ⟨hnone, hsplit⟩ | ⟨s', H', big, b, hsplit, -, hcarves, -⟩
  · exact ⟨w.st, 0, hsplit, iff_of_true rfl (hcrowded.mpr hnone)⟩
  · refine ⟨s', _, hsplit, iff_of_false (payload_ne_zero _) ?_⟩
    rw [hcrowded]
    intro hall
    have hlt := hall big hcarves.big_free
    have hle := hcarves.within.1
    rw [hcarves.order_eq] at hle
    omega

theorem smalloc_null_iff_oneBlock :
    ∃ B L, HeapLayout oneBlock.st B L ∧
      ∃ s' p, smalloc noMmap oneBlock.st 1000 = some (s', p) ∧
        (p = 0 ↔ Crowded oneBlock.st B 4) := by
  obtain ⟨B, L, hlayout⟩ :=
    oneBlock_reachable.exists_layout oneBlock_initialized
  exact ⟨B, L, hlayout, smalloc_null_iff oneBlock oneBlock_reachable
    oneBlock_initialized B L hlayout noMmap 1000 4 (by decide) (by decide)
    (by decide)⟩

end OsCoursework.Allocator
