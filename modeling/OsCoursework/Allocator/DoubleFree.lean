import OsCoursework.Allocator.Replay

/-!
# Freeing twice

`sfree` of a block whose header reads free does nothing.  After a first `sfree`
the header may be swallowed by merges and laid out again by splits, but merges
rewrite sizes only, splits make free tiles, and nobody else writes there: the
flag is cleared only when a block that contains it is handed out.
-/

namespace OsCoursework.Allocator

open OsCoursework.Bytes
open OsCoursework.Dyadic

/-! ## Unclaimed headers -/

/-- No live block contains any of the 32 header bytes at `x`. -/
def Unclaimed (x : ℕ) (w : World) : Prop :=
  ∀ q ∈ w.live, Disjoint (blockBytes w.st.mem (q - sizeofMetaData))
    (range x sizeofMetaData)

/-- A step that hands out no block around the header at `x`. -/
def UnclaimedStep (x : ℕ) (w w' : World) : Prop :=
  Step w w' ∧ Unclaimed x w'

/-- Writes apart from a header keep its flag. -/
theorem isFree_of_disjoint {W : Set ℕ} {m m' : Mem} {x : ℕ}
    (hagree : AgreeOff W m m') (hW : Disjoint W (range x sizeofMetaData)) :
    isFree m' x = isFree m x := by
  refine (header_eq_of_agreeOff hagree ?_).2.1
  intro y hy hy' hmem
  exact Set.disjoint_left.mp hW hmem ⟨hy, hy'⟩

/-- Writes into a live payload keep the flag of an unclaimed header. -/
theorem Unclaimed.isFree_of_write {x a : ℕ} {w : World} {m : Mem}
    (h : Unclaimed x w) (ha : a + sizeofMetaData ∈ w.live)
    (hagree : AgreeOff (payloadBytes w.st.mem (a + sizeofMetaData)) w.st.mem m) :
    isFree m x = isFree w.st.mem x := by
  have hoff := h _ ha
  rw [Nat.add_sub_cancel] at hoff
  exact isFree_of_disjoint hagree
    (hoff.mono_left (payload_subset_block w.st.mem a))

/-- Only the headers of free tiles and of `b` were written: a flag that was set
stays, unless it is that of `b`. -/
theorem Rep.isFree_of_touches {root : Block} {H : Tiling root maxBlockOrder}
    {s s' : State} {o : Outside} {b t : Block} (h : Rep s' H o)
    (htouch : Touches (insert (addr b) (freeStarts H)) s s')
    (hne : addr t ≠ addr b) (hfree : isFree s.mem (addr t) = true) :
    isFree s'.mem (addr t) = true := by
  by_cases hstart : addr t ∈ freeStarts H
  · obtain ⟨u, hu, heq⟩ := hstart
    rw [← heq]
    exact h.isFree_of_free hu
  · have hbyte : addr t + 8 ∉ headerBytes (insert (addr b) (freeStarts H)) := by
      rintro ⟨a, ha, hlow, hhigh⟩
      have hdvd : 32 ∣ a := by
        rcases ha with rfl | ⟨u, -, rfl⟩
        · exact addr_dvd b
        · exact addr_dvd u
      have htd := addr_dvd t
      obtain rfl : a = addr t := by omega
      rcases ha with heq | ha
      · exact hne heq
      · exact hstart ha
    have hsame := htouch.agree _ hbyte
    rw [← hfree]
    simp only [isFree]
    rw [hsame]

section Ready

variable {root : Block} {w : World} {H : Tiling root maxBlockOrder}
  {c : Outside} {env : Env} {size : ℕ} {t : Block}

/-! ## What each operation does to a set flag -/

theorem Ready.smalloc_isFree (h : Ready w H c) (hvalid : env.Valid w.st)
    {s' : State} {p : ℕ} (hrun : Allocator.smalloc env w.st size = some (s', p))
    (hoff : p ≠ 0 → Disjoint (blockBytes s'.mem (p - sizeofMetaData))
      (range (addr t) sizeofMetaData))
    (hfree : isFree w.st.mem (addr t) = true) :
    isFree s'.mem (addr t) = true := by
  have hensure := ensureHeap_of_initialized env h.initialized
  have hcases := smalloc_cases env w.st size
  rw [hensure, hrun] at hcases
  rcases hcases with heq | ⟨a, hmax, -, hmmap, heq⟩ | ⟨-, hsmall, heq⟩
  · obtain ⟨rfl, -⟩ := Prod.mk.inj (Option.some.inj heq)
    exact hfree
  · obtain ⟨rfl, rfl⟩ := Prod.mk.inj (Option.some.inj heq)
    have hfresh := hvalid.mmap_fresh _ _ hmmap
    obtain ⟨hsize, -, hagree⟩ := mapBlock_header w.st
      (Dvd.dvd.trans (by decide) hfresh.dvd) hmax
    have hoff := hoff (payload_ne_zero a)
    rw [Nat.add_sub_cancel, blockBytes, hsize] at hoff
    rw [isFree_of_disjoint hagree hoff]
    exact hfree
  · obtain ⟨r, hr, hfits⟩ := exists_fits hsmall
    rcases splitBlockBuddy_eq hfits hr h.rep with
      ⟨-, hsplit⟩ | ⟨s₁, H', big, b, hsplit, hrep, hcarves, htouch⟩
    · obtain ⟨rfl, -⟩ := Prod.mk.inj (Option.some.inj (heq.trans hsplit))
      exact hfree
    · obtain ⟨rfl, rfl⟩ := Prod.mk.inj (Option.some.inj (heq.trans hsplit))
      refine hrep.isFree_of_touches htouch ?_ hfree
      intro hself
      have hoff := hoff (payload_ne_zero _)
      rw [Nat.add_sub_cancel, ← hself] at hoff
      have hself : addr t ∈ range (addr t) sizeofMetaData :=
        ⟨Nat.le_refl _, by rw [sizeofMetaData]; omega⟩
      exact Set.disjoint_left.mp hoff ⟨hself.1, by have := hself.2; omega⟩ hself

/-- Freeing sets one flag and clears none. -/
theorem Ready.sfree_isFree (h : Ready w H c) {p : ℕ} (hp : p ∈ w.live)
    {s' : State} (hrun : Allocator.sfree env w.st p = some s')
    (hfree : isFree w.st.mem (addr t) = true) :
    isFree s'.mem (addr t) = true := by
  rcases h.live_iff hp with ⟨b, hb, rfl⟩ | ⟨a, ha, rfl⟩
  · obtain ⟨s₁, H', hrun₁, -, -, -, hflag⟩ := sfree_of_used env h.rep hb
    obtain rfl := Option.some.inj (hrun₁.symm.trans hrun)
    rw [hflag t, hfree, ite_self]
  · have hblock := h.maps.block a ha
    rw [sfree_of_large env hblock.not_free hblock.le_max hblock.large] at hrun
    obtain rfl := Option.some.inj hrun
    cases env.munmap with
    | true => exact hfree
    | false => exact hfree

/-- Growing in place clears no flag outside the block it makes. -/
theorem Ready.growInPlace_isFree (h : Ready w H c) {b : Block} {r : ℕ}
    (hb : b ∈ H.used) (hlt : b.order < r) (hr : r ≤ maxBlockOrder) {s' : State}
    {q : ℕ} (hrun : growInPlace w.st (addr b) (usable r) = some (s', q))
    (hoff : q ≠ 0 → Disjoint (blockBytes s'.mem (q - sizeofMetaData))
      (range (addr t) sizeofMetaData))
    (hfree : isFree w.st.mem (addr t) = true) :
    isFree s'.mem (addr t) = true := by
  obtain ⟨s₁, H', b', hrun₁, hrep, hgrows, -, -, hflag⟩ :=
    growInPlace_spec h.rep hb hlt hr
  obtain ⟨rfl, rfl⟩ := Prod.mk.inj (Option.some.inj (hrun₁.symm.trans hrun))
  have hoff := hoff (payload_ne_zero _)
  rw [Nat.add_sub_cancel, hrep.blockBytes_eq hgrows.mem_tiles] at hoff
  apply hflag t ?_ hfree
  intro hmem
  exact Set.disjoint_left.mp hoff hmem
    ⟨Nat.le_refl _, by rw [sizeofMetaData]; omega⟩

theorem Ready.moveAlloc_isFree (h : Ready w H c) (hvalid : env.Valid w.st)
    (hun : Unclaimed (addr t) w) {p : ℕ} (hp : p ∈ w.live)
    (hlt : getSize w.st.mem (p - sizeofMetaData) < size) {s' : State} {q : ℕ}
    (hrun : Allocator.moveAlloc env w.st p size = some (s', q))
    (hoff : q ≠ 0 → Disjoint (blockBytes s'.mem (q - sizeofMetaData))
      (range (addr t) sizeofMetaData))
    (hfree : isFree w.st.mem (addr t) = true) :
    isFree s'.mem (addr t) = true := by
  obtain ⟨s₁, q₁, hrun₁, halloc, hcases⟩ :=
    (closed_onHeap root c).moveAlloc_cases ⟨H, h⟩ trivial hvalid hp hlt
  rcases hcases with ⟨rfl, hmove, -⟩ | ⟨hq0, s₃, hmove, hmoves⟩
  · obtain ⟨rfl, rfl⟩ := Prod.mk.inj (Option.some.inj (hmove.symm.trans hrun))
    exact h.smalloc_isFree hvalid hrun₁ (fun hne => absurd rfl hne) hfree
  · obtain ⟨rfl, rfl⟩ := Prod.mk.inj (Option.some.inj (hmove.symm.trans hrun))
    -- The new block has its final extent from the start.
    have hoff₁ : Disjoint (blockBytes s₁.mem (q₁ - sizeofMetaData))
        (range (addr t) sizeofMetaData) := by
      have hoff := hoff hq0
      rw [blockBytes, hmoves.header_eq] at hoff
      exact hoff
    have hfree₁ := h.smalloc_isFree hvalid hrun₁ (fun _ => hoff₁) hfree
    obtain ⟨H₁, h₁⟩ := hmoves.allocated
    obtain ⟨H₂, h₂⟩ := hmoves.copied
    have hqlive := Finset.mem_insert_self q₁ w.live
    obtain ⟨a, rfl, -⟩ := h₁.live_cases q₁ hqlive
    have hun₁ : Unclaimed (addr t) ⟨s₁, insert (a + sizeofMetaData) w.live⟩ := by
      intro r hr
      rcases Finset.mem_insert.mp hr with rfl | hr
      · exact hoff₁
      · have hold := hun r hr
        rw [blockBytes, ← (halloc.kept.header_eq hr).1] at hold
        exact hold
    have hfree₂ := hun₁.isFree_of_write hqlive hmoves.agree_copied
    exact h₂.sfree_isFree (Finset.mem_insert_of_mem hp) hmoves.run_sfree
      (hfree₂.trans hfree₁)

/-! ## Steps -/

theorem Ready.srealloc_isFree (h : Ready w H c) (hvalid : env.Valid w.st)
    (hun : Unclaimed (addr t) w) {p : ℕ} (hp : p ∈ w.live) {s' : State} {q : ℕ}
    (hrun : Allocator.srealloc env w.st p size = some (s', q))
    (hoff : q ≠ 0 → Disjoint (blockBytes s'.mem (q - sizeofMetaData))
      (range (addr t) sizeofMetaData))
    (hfree : isFree w.st.mem (addr t) = true) :
    isFree s'.mem (addr t) = true := by
  rcases h.srealloc_cases env hp size with
    heq | heq | ⟨hlt, heq⟩ | ⟨b, hb, -, r, hr, hbr, heq⟩
  · obtain ⟨rfl, -⟩ := Prod.mk.inj (Option.some.inj (heq.symm.trans hrun))
    exact hfree
  · obtain ⟨rfl, -⟩ := Prod.mk.inj (Option.some.inj (heq.symm.trans hrun))
    exact hfree
  · exact h.moveAlloc_isFree hvalid hun hp hlt (heq.symm.trans hrun) hoff hfree
  · exact h.growInPlace_isFree hb hbr hr (heq.symm.trans hrun) hoff hfree

theorem Ready.scalloc_isFree (h : Ready w H c) (hvalid : env.Valid w.st)
    {num : ℕ} {s' : State} {p : ℕ}
    (hrun : Allocator.scalloc env w.st num size = some (s', p))
    (hoff : p ≠ 0 → Disjoint (blockBytes s'.mem (p - sizeofMetaData))
      (range (addr t) sizeofMetaData))
    (hfree : isFree w.st.mem (addr t) = true) :
    isFree s'.mem (addr t) = true := by
  by_cases hinvalid : mul64 num size = 0 ∨ maxAllocationSize < mul64 num size
  · rw [Allocator.scalloc, if_pos hinvalid] at hrun
    obtain ⟨rfl, -⟩ := Prod.mk.inj (Option.some.inj hrun)
    exact hfree
  obtain ⟨s₁, p₁, H₁, hrun₁, h₁, halloc⟩ := h.smalloc hvalid (mul64 num size)
  by_cases hp0 : p₁ = 0
  · simp only [Allocator.scalloc, if_neg hinvalid, hrun₁, Option.bind_eq_bind,
      Option.bind_some, if_pos hp0] at hrun
    obtain ⟨rfl, rfl⟩ := Prod.mk.inj (Option.some.inj hrun)
    exact h.smalloc_isFree hvalid hrun₁ (fun hne => absurd hp0 hne) hfree
  · simp only [Allocator.scalloc, if_neg hinvalid, hrun₁, Option.bind_eq_bind,
      Option.bind_some, if_neg hp0] at hrun
    obtain ⟨rfl, rfl⟩ := Prod.mk.inj (Option.some.inj hrun)
    rw [addLive_of_ne hp0] at h₁
    obtain ⟨a, rfl, -⟩ := h₁.live_cases p₁ (Finset.mem_insert_self _ _)
    have hfill := agreeOff_fill s₁.mem (a + sizeofMetaData) 0 (mul64 num size)
    have hsize := halloc.size_le hp0
    have hoff := hoff hp0
    have hblock : blockBytes (fill s₁.mem (a + sizeofMetaData) 0
        (mul64 num size)) a = blockBytes s₁.mem a := by
      refine (header_eq_of_agreeOff hfill ?_).2.2
      rintro x hx hx' ⟨hlow, -⟩
      rw [sizeofMetaData] at hlow
      omega
    rw [Nat.add_sub_cancel] at hoff hsize
    rw [hblock] at hoff
    have hzeroed : range (a + sizeofMetaData) (mul64 num size) ⊆
        blockBytes s₁.mem a := by
      rintro x ⟨hx, hx'⟩
      exact ⟨by omega, by omega⟩
    rw [isFree_of_disjoint hfill (hoff.mono_left hzeroed)]
    apply h.smalloc_isFree hvalid hrun₁ ?_ hfree
    intro _
    rw [Nat.add_sub_cancel]
    exact hoff

/-- A step that leaves the header at `addr t` unclaimed keeps its flag set. -/
theorem Ready.exec_isFree (h : Ready w H c) (hvalid : env.Valid w.st)
    {call : Call} (hallowed : call.Allowed w) {w' : World} {p : ℕ}
    (hexec : exec env w call = some (w', p)) (hun : Unclaimed (addr t) w)
    (hun' : Unclaimed (addr t) w') (hfree : isFree w.st.mem (addr t) = true) :
    isFree w'.st.mem (addr t) = true := by
  cases call with
  | smalloc size =>
      obtain ⟨⟨s', q⟩, hrun, heq⟩ := Option.map_eq_some_iff.mp hexec
      obtain ⟨rfl, rfl⟩ := Prod.mk.inj heq
      apply h.smalloc_isFree hvalid hrun ?_ hfree
      intro hq
      exact hun' q ((addLive_of_ne hq).symm ▸ Finset.mem_insert_self _ _)
  | scalloc num size =>
      obtain ⟨⟨s', q⟩, hrun, heq⟩ := Option.map_eq_some_iff.mp hexec
      obtain ⟨rfl, rfl⟩ := Prod.mk.inj heq
      apply h.scalloc_isFree hvalid hrun ?_ hfree
      intro hq
      exact hun' q ((addLive_of_ne hq).symm ▸ Finset.mem_insert_self _ _)
  | sfree q =>
      obtain ⟨s', hrun, heq⟩ := Option.map_eq_some_iff.mp hexec
      obtain ⟨rfl, rfl⟩ := Prod.mk.inj heq
      rcases hallowed with rfl | hq
      · obtain rfl := Option.some.inj (sfree_zero.symm.trans hrun)
        exact hfree
      · exact h.sfree_isFree hq hrun hfree
  | srealloc oldp size =>
      obtain ⟨⟨s', q⟩, hrun, heq⟩ := Option.map_eq_some_iff.mp hexec
      obtain ⟨rfl, rfl⟩ := Prod.mk.inj heq
      have hoff (hq : q ≠ 0) : Disjoint (blockBytes s'.mem (q - sizeofMetaData))
          (range (addr t) sizeofMetaData) := by
        apply hun' q
        change q ∈ moveLive w.live oldp q
        rw [moveLive, if_neg hq]
        exact Finset.mem_insert_self _ _
      rcases hallowed with rfl | hold
      · by_cases hinvalid : size = 0 ∨ maxAllocationSize < size
        · rw [srealloc_of_invalid _ _ _ hinvalid] at hrun
          obtain ⟨rfl, -⟩ := Prod.mk.inj (Option.some.inj hrun)
          exact hfree
        · rw [srealloc_zero hinvalid] at hrun
          exact h.smalloc_isFree hvalid hrun hoff hfree
      · exact h.srealloc_isFree hvalid hun hold hrun hoff hfree
  | write a v =>
      obtain ⟨q, hq, hqa, haq⟩ := hallowed
      obtain ⟨rfl, -⟩ := Prod.mk.inj (Option.some.inj hexec)
      obtain ⟨d, rfl, -⟩ := h.live_cases q hq
      refine (hun.isFree_of_write hq ((agreeOff_fill _ _ _ _).mono ?_)).trans
        hfree
      rintro x ⟨hx, hx'⟩
      exact ⟨by omega, by omega⟩

end Ready

/-! ## Whole runs -/

/-- A set flag survives every run that leaves its header unclaimed. -/
theorem OnHeap.isFree_of_run {root : Block} {c : Outside} {w w' : World}
    {t : Block} (h : OnHeap root c w) (hun : Unclaimed (addr t) w)
    (hfree : isFree w.st.mem (addr t) = true)
    (hrun : Relation.ReflTransGen (UnclaimedStep (addr t)) w w') :
    OnHeap root c w' ∧ Unclaimed (addr t) w' ∧
      isFree w'.st.mem (addr t) = true := by
  induction hrun with
  | refl => exact ⟨h, hun, hfree⟩
  | tail _ hstep ih =>
      obtain ⟨honheap, hun₁, hfree₁⟩ := ih
      obtain ⟨hstep, hun₂⟩ := hstep
      have hpost := (closed_onHeap root c).step honheap hstep
      obtain ⟨env, call, p, -, hvalid, hallowed, hexec⟩ := hstep
      obtain ⟨H₁, h₁⟩ := honheap
      exact ⟨hpost, hun₂,
        h₁.exec_isFree hvalid hallowed hexec hun₁ hun₂ hfree₁⟩

/-- `sfree` does nothing with a block whose header reads free. -/
theorem sfree_of_isFree (env : Env) {s : State} {a : ℕ}
    (hfree : isFree s.mem a = true) :
    sfree env s (a + sizeofMetaData) = some s := by
  rw [sfree, if_neg (payload_ne_zero a), Nat.add_sub_cancel, if_pos hfree]

/-- After the first `sfree` the header reads free and is unclaimed. -/
theorem Ready.exec_sfree_isFree {root : Block} {w w₁ : World}
    {H : Tiling root maxBlockOrder} {c : Outside} {env : Env} {b : Block} {r : ℕ}
    (h : Ready w H c) (hb : b ∈ H.used)
    (hexec : exec env w (.sfree (addr b + sizeofMetaData)) = some (w₁, r)) :
    OnHeap root c w₁ ∧ Unclaimed (addr b) w₁ ∧
      isFree w₁.st.mem (addr b) = true := by
  have hlive := h.used_live _ (Finset.mem_image_of_mem addr hb)
  obtain ⟨s', hrun, heq⟩ := Option.map_eq_some_iff.mp hexec
  obtain ⟨rfl, -⟩ := Prod.mk.inj heq
  obtain ⟨s₁, H₁, hrun₁, hready, hfreed⟩ := h.sfree env hlive
  obtain rfl := Option.some.inj (hrun₁.symm.trans hrun)
  refine ⟨⟨H₁, hready⟩, ?_, ?_⟩
  · intro q hq
    have hdisjoint := h.blocks_disjoint (Finset.mem_of_mem_erase hq) hlive
      (Finset.ne_of_mem_erase hq)
    rw [Nat.add_sub_cancel] at hdisjoint
    change Disjoint (range _ (getSize s₁.mem _ + _)) _
    rw [(hfreed.kept.header_eq hq).1]
    apply hdisjoint.mono_right
    rintro x ⟨hx, hx'⟩
    exact ⟨hx, by omega⟩
  · obtain ⟨s₂, H₂, hrun₂, -, -, -, hflag⟩ := sfree_of_used env h.rep hb
    obtain rfl := Option.some.inj (hrun₂.symm.trans hrun)
    exact (hflag b).trans (if_pos rfl)

/-- Freeing a heap pointer again changes nothing, as long as no block around its
old header has been handed out in between. -/
theorem sfree_again_unchanged (w w₁ w₂ : World) (env₀ : Env) (p r : ℕ)
    (hreach : Reachable w) (hp : p ∈ w.live)
    (hheap : p - sizeofMetaData ∉ w.st.mapped)
    (hfirst : exec env₀ w (.sfree p) = some (w₁, r))
    (hrun : Relation.ReflTransGen (UnclaimedStep (p - sizeofMetaData)) w₁ w₂)
    (env : Env) : sfree env w₂.st p = some w₂.st := by
  rcases hreach.inv with hunready | ⟨root, H, c, h⟩
  · obtain ⟨a, ha, rfl⟩ := hunready.live_iff hp
    rw [Nat.add_sub_cancel] at hheap
    exact absurd ha hheap
  · rcases h.live_iff hp with ⟨b, hb, rfl⟩ | ⟨a, ha, rfl⟩
    · rw [Nat.add_sub_cancel] at hrun
      obtain ⟨honheap, hun, hfree⟩ := h.exec_sfree_isFree hb hfirst
      exact sfree_of_isFree env (honheap.isFree_of_run hun hfree hrun).2.2
    · rw [Nat.add_sub_cancel] at hheap
      exact absurd ha hheap

/-- Two blocks of the smallest order, side by side. -/
@[irreducible] def twoBlocks : World :=
  (replay (freshWorld 4194304) [.smalloc 64, .smalloc 64]).get
    (by decide +kernel)

/-- Freeing the first block buries the header of the second, freed before. -/
theorem sfree_again_unchanged_twoBlocks :
    ∃ w₁ w₂, exec noMmap twoBlocks (.sfree 4194464) = some (w₁, 0) ∧
      exec noMmap w₁ (.sfree 4194336) = some (w₂, 0) ∧
      ∀ env, sfree env w₂.st 4194464 = some w₂.st := by
  have hreach : Reachable twoBlocks := by
    unfold twoBlocks
    exact reachable_replay (by decide) _
  have hruns : ((exec noMmap twoBlocks (.sfree 4194464)).bind fun x =>
      (exec noMmap x.1 (.sfree 4194336)).map fun y =>
        (x.2, y.2, decide (HeapFits x.1.st), decide (4194336 ∈ x.1.live),
          decide (y.1.live = ∅))) = some (0, 0, true, true, true) := by
    decide +kernel
  obtain ⟨⟨w₁, r₁⟩, hfirst, hrest⟩ := Option.bind_eq_some_iff.mp hruns
  obtain ⟨⟨w₂, r₂⟩, hsecond, heq⟩ := Option.map_eq_some_iff.mp hrest
  obtain ⟨hr₁, hr₂, hfits, hlive, hempty⟩ := by
    simpa only [Prod.mk.injEq, decide_eq_true_eq] using heq
  subst hr₁ hr₂
  have hstep : UnclaimedStep 4194432 w₁ w₂ := by
    refine ⟨⟨noMmap, .sfree 4194336, 0, trivial, hfits.valid, Or.inr hlive,
      hsecond⟩, ?_⟩
    intro q hq
    rw [hempty] at hq
    exact absurd hq (Finset.notMem_empty q)
  exact ⟨w₁, w₂, hfirst, hsecond, sfree_again_unchanged twoBlocks w₁ w₂ noMmap
    4194464 0 hreach (by decide +kernel) (by decide +kernel) hfirst
    (Relation.ReflTransGen.single hstep)⟩

end OsCoursework.Allocator
