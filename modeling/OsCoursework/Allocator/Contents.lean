import OsCoursework.Allocator.Capacity

/-!
# What `srealloc` does to the data

`srealloc` either leaves everything as it was and returns `NULL`, or brings the
old payload along, however long the copy it makes and wherever the block goes.
The old block is given up, with one exception that the code provides for: a
mapping whose `munmap` fails stays.
-/

namespace OsCoursework.Allocator

open OsCoursework.Bytes
open OsCoursework.Dyadic

section Ready

variable {root : Block} {w : World} {H : Tiling root maxBlockOrder}
  {c : Outside} {env : Env} {size : ℕ}

/-! ## Allocated blocks -/

/-- The allocated blocks are the mappings and the used tiles. -/
theorem Ready.allocatedBlock_iff (h : Ready w H c) {a : ℕ} :
    AllocatedBlock w.st a ↔ a ∈ w.st.mapped ∨ ∃ t ∈ H.used, addr t = a := by
  constructor
  · rintro ⟨hfree, ha | ⟨B, L, k, hlayout, hmem⟩⟩
    · exact Or.inl ha
    · obtain ⟨rfl, -⟩ := h.rep.layout_eq hlayout
      obtain ⟨t, ht, heq⟩ := mem_layoutBlocks.mp hmem
      obtain ⟨rfl, rfl⟩ := Prod.mk.inj heq
      refine Or.inr ⟨t, ?_, rfl⟩
      by_contra hnot
      rw [h.rep.isFree_of_free (Tiling.mem_free.mpr ⟨ht, hnot⟩)] at hfree
      cases hfree
  · rintro (ha | ⟨t, ht, rfl⟩)
    · exact ⟨(h.maps.block a ha).not_free, Or.inl ha⟩
    · obtain ⟨L, hlayout, -⟩ := h.rep.heapLayout
      exact ⟨h.rep.isFree_of_used ht, Or.inr ⟨_, L, t.order, hlayout,
        mem_layoutBlocks.mpr ⟨t, H.used_subset ht, rfl⟩⟩⟩

/-- A block whose payload is not live is allocated only as a mapping. -/
theorem Ready.allocatedBlock_iff_of_not_live (h : Ready w H c) {a : ℕ}
    (ha : a + sizeofMetaData ∉ w.live) :
    AllocatedBlock w.st a ↔ a ∈ w.st.mapped := by
  rw [h.allocatedBlock_iff, or_iff_left]
  rintro ⟨t, ht, rfl⟩
  exact ha (h.used_live _ (Finset.mem_image_of_mem _ ht))

theorem Ready.allocatedBlock_of_live (h : Ready w H c) {p : ℕ}
    (hp : p ∈ w.live) : AllocatedBlock w.st (p - sizeofMetaData) :=
  Inv.allocatedBlock (Or.inr ⟨root, H, c, h⟩) hp

/-! ## Moving a block -/

/-- A refused request leaves the state alone, and no request removes a
mapping. -/
theorem Ready.smalloc_frame (h : Ready w H c) {s' : State} {p : ℕ}
    (hrun : Allocator.smalloc env w.st size = some (s', p)) :
    (p = 0 → s' = w.st) ∧ w.st.mapped ⊆ s'.mapped := by
  have hnull (heq : some (w.st, 0) = some (s', p)) :
      (p = 0 → s' = w.st) ∧ w.st.mapped ⊆ s'.mapped := by
    obtain ⟨rfl, rfl⟩ := Prod.mk.inj (Option.some.inj heq)
    exact ⟨fun _ => rfl, Finset.Subset.refl _⟩
  have hcases := smalloc_cases env w.st size
  rw [ensureHeap_of_initialized env h.initialized, hrun] at hcases
  rcases hcases with heq | ⟨a, -, -, -, heq⟩ | ⟨-, hsmall, heq⟩
  · exact hnull heq.symm
  · obtain ⟨rfl, rfl⟩ := Prod.mk.inj (Option.some.inj heq)
    exact ⟨fun h0 => absurd h0 (payload_ne_zero a), Finset.subset_insert _ _⟩
  · obtain ⟨r, hr, hfits⟩ := exists_fits hsmall
    rcases splitBlockBuddy_eq hfits hr h.rep with
      ⟨-, hsplit⟩ | ⟨s₁, H', big, b, hsplit, -, hcarves, htouch⟩
    · exact hnull (hsplit.symm.trans heq.symm)
    · rw [hsplit] at heq
      obtain ⟨rfl, rfl⟩ := Prod.mk.inj (Option.some.inj heq)
      refine ⟨fun h0 => absurd h0 (payload_ne_zero _), ?_⟩
      rw [(hcarves.changes htouch).mapped]

/-- `p` was handed to `srealloc`, which returned `q`: the payload has come along,
`q` is live, and the block of `p` is not allocated any more unless it is a
mapping that `munmap` refused to remove. -/
structure Reallocated (env : Env) (w w' : World) (p q : ℕ) : Prop where
  contents : ∀ i < getSize w.st.mem (p - sizeofMetaData),
    w'.st.mem (q + i) = w.st.mem (p + i)
  live : q ∈ w'.live
  allocated : AllocatedBlock w'.st (q - sizeofMetaData)
  released : q ≠ p → (AllocatedBlock w'.st (p - sizeofMetaData) ↔
    p - sizeofMetaData ∈ w.st.mapped ∧ env.munmap = false)

/-- What `sfree` does to the mappings. -/
theorem Ready.sfree_mapped (h : Ready w H c) {p : ℕ} (hp : p ∈ w.live)
    {s' : State} (hrun : Allocator.sfree env w.st p = some s') :
    p - sizeofMetaData ∈ s'.mapped ↔
      p - sizeofMetaData ∈ w.st.mapped ∧ env.munmap = false := by
  rcases h.live_iff hp with ⟨b, hb, rfl⟩ | ⟨a, ha, rfl⟩
  · obtain ⟨s₁, H', hrun₁, -, -, hchange, -⟩ := sfree_of_used env h.rep hb
    obtain rfl := Option.some.inj (hrun₁.symm.trans hrun)
    have hnot : addr b ∉ w.st.mapped := fun hmem =>
      h.tile_ne_map (H.used_subset hb) hmem rfl
    rw [hchange.mapped, Nat.add_sub_cancel]
    exact iff_of_false hnot fun hmem => hnot hmem.1
  · have hblock := h.maps.block a ha
    rw [sfree_of_large env hblock.not_free hblock.le_max hblock.large] at hrun
    obtain rfl := Option.some.inj hrun
    rw [Nat.add_sub_cancel]
    cases env.munmap with
    | true => simp [unmapBlock]
    | false => simp [ha]

/-- The branch that allocates elsewhere, copies and frees. -/
theorem Ready.moveAlloc_contents (h : Ready w H c) (hvalid : env.Valid w.st)
    {p : ℕ} (hp : p ∈ w.live)
    (hlt : getSize w.st.mem (p - sizeofMetaData) < size) :
    ∃ s' q, moveAlloc env w.st p size = some (s', q) ∧ (q = 0 → s' = w.st) ∧
      (q ≠ 0 → Reallocated env w ⟨s', moveLive w.live p q⟩ p q) := by
  obtain ⟨s₁, q, hrun₁, halloc, hcases⟩ :=
    (closed_onHeap root c).moveAlloc_cases ⟨H, h⟩ trivial hvalid hp hlt
  obtain ⟨hnull, hmapped₁⟩ := h.smalloc_frame hrun₁
  rcases hcases with ⟨hq0, hrun, -⟩ | ⟨hq0, s₃, hrun, hmoves⟩
  · exact ⟨s₁, 0, hrun, fun _ => hnull hq0, fun hne => absurd rfl hne⟩
  refine ⟨s₃, q, hrun, fun h0 => absurd h0 hq0, fun _ => ?_⟩
  obtain ⟨H₂, h₂⟩ := hmoves.copied
  obtain ⟨H₃, h₃⟩ := hmoves.post
  have hqlive₃ : q ∈ insert q (w.live.erase p) := Finset.mem_insert_self _ _
  obtain ⟨d, hpd, -⟩ := h.live_cases p hp
  rw [moveLive, if_neg hq0]
  refine ⟨?_, hqlive₃, h₃.allocatedBlock_of_live hqlive₃, fun _ => ?_⟩
  · intro i hi
    have hblock : q + i ∈
        blockBytes (copyPayload s₁ q p).mem (q - sizeofMetaData) := by
      have hsize := halloc.size_le hq0
      rw [blockBytes, hmoves.header_copied]
      exact ⟨by omega, by omega⟩
    have hold : p + i ∈ blockBytes w.st.mem (p - sizeofMetaData) :=
      ⟨by omega, by omega⟩
    have hi₁ : i < getSize s₁.mem (p - sizeofMetaData) :=
      (halloc.kept.header_eq hp).1.symm ▸ hi
    calc s₃.mem (q + i) = (copyPayload s₁ q p).mem (q + i) :=
          hmoves.freed.kept q hmoves.new_mem _ hblock
      _ = s₁.mem (p + i) := copy_apply s₁.mem hi₁
      _ = w.st.mem (p + i) := halloc.kept p hp _ hold
  · have hnot : p ∉ insert q (w.live.erase p) := by
      rw [Finset.mem_insert, not_or]
      exact ⟨hmoves.ne.symm, fun hmem => (Finset.mem_erase.mp hmem).1 rfl⟩
    have hdead : p - sizeofMetaData + sizeofMetaData ∉
        insert q (w.live.erase p) := by
      rwa [Nat.sub_add_cancel (by omega)]
    rw [h₃.allocatedBlock_iff_of_not_live hdead,
      h₂.sfree_mapped (Finset.mem_insert_of_mem hp) hmoves.run_sfree]
    refine and_congr_left fun _ => ⟨fun hmem => ?_, fun hmem => hmapped₁ hmem⟩
    rcases halloc.mapped _ hmem with hold | hnew
    · exact hold
    · omega

/-! ## `srealloc` -/

/-- The branch that grows the block in place. -/
theorem Ready.grow_contents (h : Ready w H c) (env : Env) {b : Block} {r : ℕ}
    (hb : b ∈ H.used) (hlt : b.order < r) (hr : r ≤ maxBlockOrder) :
    ∃ s' q, growInPlace w.st (addr b) (usable r) = some (s', q) ∧ q ≠ 0 ∧
      Reallocated env w ⟨s', moveLive w.live (addr b + sizeofMetaData) q⟩
        (addr b + sizeofMetaData) q := by
  obtain ⟨s', H', b', hrun, hrep, hgrows, hchange, hcontents, -⟩ :=
    growInPlace_spec h.rep hb hlt hr
  have hready := h.grow hrep hgrows hchange
  have hne := payload_ne_zero (addr b')
  refine ⟨s', _, hrun, hne, ?_⟩
  rw [moveLive, if_neg hne]
  have hlive := Finset.mem_insert_self (addr b' + sizeofMetaData)
    (w.live.erase (addr b + sizeofMetaData))
  refine ⟨?_, hlive, hready.allocatedBlock_of_live hlive, fun hqp => ?_⟩
  · intro i hi
    rw [Nat.add_sub_cancel, h.rep.size_eq b (H.used_subset hb)] at hi
    exact hcontents i hi
  · have hdead : addr b + sizeofMetaData ∉ insert (addr b' + sizeofMetaData)
        (w.live.erase (addr b + sizeofMetaData)) := by
      rw [Finset.mem_insert, not_or]
      exact ⟨hqp.symm, fun hmem => (Finset.mem_erase.mp hmem).1 rfl⟩
    have hnot : addr b ∉ w.st.mapped := fun hmem =>
      h.tile_ne_map (H.used_subset hb) hmem rfl
    rw [Nat.add_sub_cancel, hready.allocatedBlock_iff_of_not_live hdead]
    change addr b ∈ s'.mapped ↔ _
    rw [hchange.mapped]
    exact iff_of_false hnot fun hmem => hnot hmem.1

theorem Ready.srealloc_contents (h : Ready w H c) (hvalid : env.Valid w.st)
    {p : ℕ} (hp : p ∈ w.live) (size : ℕ) :
    ∃ s' q, srealloc env w.st p size = some (s', q) ∧ (q = 0 → s' = w.st) ∧
      (q ≠ 0 → Reallocated env w ⟨s', moveLive w.live p q⟩ p q) := by
  rcases h.srealloc_cases env hp size with
    hrun | hrun | ⟨hlt, hrun⟩ | ⟨b, hb, hpb, r, hr, hbr, hrun⟩
  · exact ⟨w.st, 0, hrun, fun _ => rfl, fun hne => absurd rfl hne⟩
  · have hp0 : p ≠ 0 := by
      rintro rfl
      exact h.zero_not_mem hp
    refine ⟨w.st, p, hrun, fun h0 => absurd h0 hp0, fun _ => ?_⟩
    rw [moveLive, if_neg hp0, Finset.insert_erase hp]
    exact ⟨fun _ _ => rfl, hp, h.allocatedBlock_of_live hp,
      fun hne => absurd rfl hne⟩
  · rw [hrun]
    exact h.moveAlloc_contents hvalid hp hlt
  · obtain ⟨s', q, hgrow, hq0, hpost⟩ := h.grow_contents env hb hbr hr
    rw [hrun, hpb]
    exact ⟨s', q, hgrow, fun h0 => absurd h0 hq0, fun _ => hpost⟩

end Ready

/-- `srealloc` of a live pointer brings the payload along, or changes nothing at
all. -/
theorem srealloc_contents_or_unchanged (w : World) (hreach : Reachable w)
    (hinit : w.st.initialized = true) (env : Env) (hvalid : env.Valid w.st)
    (p : ℕ) (hp : p ∈ w.live) (size : ℕ) :
    ∃ w' q, exec env w (.srealloc p size) = some (w', q) ∧
      (q = 0 → w' = w) ∧ (q ≠ 0 → Reallocated env w w' p q) := by
  obtain ⟨root, H, c, h⟩ := hreach.ready hinit
  obtain ⟨s', q, hrun, hnull, hpost⟩ := h.srealloc_contents hvalid hp size
  refine ⟨⟨s', moveLive w.live p q⟩, q, by rw [exec, hrun]; rfl, ?_, hpost⟩
  intro h0
  rw [hnull h0, moveLive, if_pos h0]

theorem srealloc_contents_or_unchanged_oneBlock :
    ∃ w' q, exec noMmap oneBlock (.srealloc 4194336 150) = some (w', q) ∧
      (q = 0 → w' = oneBlock) ∧
      (q ≠ 0 → Reallocated noMmap oneBlock w' 4194336 q) :=
  srealloc_contents_or_unchanged oneBlock oneBlock_reachable
    oneBlock_initialized noMmap oneBlock_valid 4194336 oneBlock_live 150

/-- A heap block and a mapping of 200000 bytes. -/
@[irreducible] def oneMapping : World :=
  (replayWith (freshWorld 4194304) [(⟨true, none, true⟩, .smalloc 64),
    (⟨true, some (16777216, 200032), true⟩, .smalloc 200000)]).get
      (by decide +kernel)

/-- Moving the mapping while `munmap` fails leaves its block allocated. -/
theorem srealloc_oneMapping_not_released :
    Reachable oneMapping ∧ oneMapping.st.initialized = true ∧
      16777248 ∈ oneMapping.live ∧ ∃ env w' q, env.Valid oneMapping.st ∧
        exec env oneMapping (.srealloc 16777248 300000) = some (w', q) ∧
        q ≠ 0 ∧ q ≠ 16777248 ∧
        AllocatedBlock w'.st (16777248 - sizeofMetaData) := by
  have hreach : Reachable oneMapping := by
    unfold oneMapping
    exact reachable_replayWith (by decide) _
  let x : Answers := ⟨true, some (33554432, 300032), false⟩
  have hvalid : x.env.Valid oneMapping.st :=
    Answers.Fits.valid (by decide +kernel)
  have hrun : (exec x.env oneMapping (.srealloc 16777248 300000)).map
      (fun r => (r.2, decide (16777216 ∈ r.1.st.mapped),
        isFree r.1.st.mem 16777216)) = some (33554464, true, false) := by
    decide +kernel
  obtain ⟨⟨w', q⟩, hexec, heq⟩ := Option.map_eq_some_iff.mp hrun
  obtain ⟨hq, hrest⟩ := Prod.mk.inj heq
  obtain ⟨hmapped, hfree⟩ := Prod.mk.inj hrest
  refine ⟨hreach, by decide +kernel, by decide +kernel, x.env, w', q, hvalid,
    hexec, ?_, ?_, hfree, Or.inl (of_decide_eq_true hmapped)⟩
  · change q = 33554464 at hq
    omega
  · change q = 33554464 at hq
    omega

end OsCoursework.Allocator
