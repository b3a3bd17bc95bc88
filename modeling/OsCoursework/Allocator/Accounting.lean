import OsCoursework.Allocator.Statistics

/-!
# Accounting when the heap is set up late

`initHeap` is tried again on every `smalloc` until it succeeds, and requests
above the `mmap` limit are served meanwhile.  It assigns the counters instead of
adding to them, so a success forgets the mappings that are live at that moment; as
long as there are none, and no `munmap` fails, the counters are exact after every
call.
-/

namespace OsCoursework.Allocator

open OsCoursework.Bytes
open OsCoursework.Dyadic

/-! ## What the counters should say -/

/-- The heap blocks that exist: none before `initHeap` succeeds. -/
def HeapBlocks (s : State) (B : Finset (ℕ × ℕ)) : Prop :=
  if s.initialized then ∃ L, HeapLayout s B L else B = ∅

/-- The three counters are the number, the bytes and the header bytes of the
heap blocks and of the live mappings. -/
def Accounted (w : World) : Prop :=
  ∃ B, HeapBlocks w.st B ∧
    (numAllocatedBlocks w.st).toNat = B.card + (liveMaps w).card ∧
    (numAllocatedBytes w.st).toNat =
      ∑ x ∈ B, getSize w.st.mem x.1 + ∑ a ∈ liveMaps w, getSize w.st.mem a ∧
    (numMetaDataBytes w.st).toNat =
      sizeofMetaData * (B.card + (liveMaps w).card)

/-- The call runs `smalloc`, as far as one can tell before there is a heap. -/
def Call.EntersSmalloc (w : World) : Call → Prop
  | .smalloc _ => True
  | .scalloc num size =>
      ¬ (mul64 num size = 0 ∨ maxAllocationSize < mul64 num size)
  | .sfree _ => False
  | .srealloc oldp size => ¬ (size = 0 ∨ maxAllocationSize < size) ∧
      (oldp = 0 ∨ getSize w.st.mem (oldp - sizeofMetaData) < size)
  | .write _ _ => False

/-- The call sets up the heap. -/
structure SetsUp (env : Env) (w : World) (call : Call) : Prop where
  initialized : w.st.initialized = false
  sbrk : env.sbrk = true
  enters : call.EntersSmalloc w

/-- A step in which no `munmap` fails and which does not set up the heap while a
mapping is live. -/
def TimelyStep (w w' : World) : Prop :=
  ∃ env call p, env.munmap = true ∧ env.Valid w.st ∧ call.Allowed w ∧
    exec env w call = some (w', p) ∧ (SetsUp env w call → liveMaps w = ∅)

/-! ## Before the heap is set up -/

/-- The counters are those of the mappings. -/
structure CountsMaps (s : State) : Prop where
  outside_eq : outside ⟨0, 0⟩ s = ⟨s.allocatedBlocks, s.allocatedBytes⟩
  meta_eq : s.metadataBytes = 32 * s.allocatedBlocks

/-- Mappings and their headers fit the address space. -/
theorem Maps.total_lt {s : State} (h : Maps s) :
    ∑ a ∈ s.mapped, getSize s.mem a + sizeofMetaData * s.mapped.card <
      addressLimit := by
  have hle : ∑ a ∈ s.mapped, (getSize s.mem a + sizeofMetaData) ≤
      addressLimit - 1 := by
    refine sum_length_le 1 (addressLimit - 1) (a := fun a => a) h.disjoint ?_
    intro a ha x hx
    have hpos := (h.block a ha).slot.pos
    have htop := (h.block a ha).top_le
    have hlow := hx.1
    have hhigh : x < a + (getSize s.mem a + sizeofMetaData) := hx.2
    exact ⟨by omega, by omega⟩
  have hpos := addressLimit_pos
  rw [Finset.sum_add_distrib, Finset.sum_const_nat fun _ _ => rfl,
    Nat.mul_comm] at hle
  omega

theorem CountsMaps.mapBlock {s : State} (h : CountsMaps s) {a size : ℕ}
    (hfresh : Fresh s a (size + sizeofMetaData))
    (hmax : size ≤ maxAllocationSize) : CountsMaps (mapBlock s a size) := by
  refine ⟨?_, ?_⟩
  · rw [outside_mapBlock _ hfresh hmax, h.outside_eq]
    rfl
  · change s.metadataBytes + UInt64.ofNat sizeofMetaData =
      32 * (s.allocatedBlocks + 1)
    rw [h.meta_eq, sizeofMetaData]
    grind

theorem CountsMaps.unmapBlock {s : State} (h : CountsMaps s) {a : ℕ}
    (ha : a ∈ s.mapped) : CountsMaps (unmapBlock s a) := by
  refine ⟨?_, ?_⟩
  · rw [outside_unmapBlock _ ha, h.outside_eq]
    rfl
  · change s.metadataBytes - UInt64.ofNat sizeofMetaData =
      32 * (s.allocatedBlocks - 1)
    rw [h.meta_eq, sizeofMetaData]
    grind

section Unready

variable {w : World} {env : Env}

/-- While `sbrk` fails the counters follow the mappings. -/
theorem closed_countsMaps :
    Closed (fun env => env.sbrk = false)
      (fun w => Unready w ∧ CountsMaps w.st) where
  live_payload := fun h => closed_inv.live_payload (Or.inl h.1)
  blocks_disjoint := fun h => closed_inv.blocks_disjoint (Or.inl h.1)
  write := by
    rintro w ⟨h, hcounts⟩ p hp m hagree
    refine ⟨h.write hp hagree, ?_, hcounts.meta_eq⟩
    obtain ⟨a, ha, rfl⟩ := h.live_iff hp
    rw [Maps.congr_outside (t := { w.st with mem := m }) hagree
      (h.maps.header_not_mem_payload ha) rfl]
    exact hcounts.outside_eq
  smalloc := by
    rintro w env ⟨h, hcounts⟩ hsbrk hvalid size
    obtain ⟨s', p, hrun, hpost, halloc⟩ :=
      h.smalloc_of_sbrk_fails hvalid hsbrk size
    refine ⟨s', p, hrun, ⟨hpost, ?_⟩, halloc⟩
    have hensure : ensureHeap env w.st = w.st := by
      rw [ensureHeap_of_not_initialized _ h.initialized,
        initHeap_of_sbrk_fails hsbrk]
    have hcases := smalloc_cases env w.st size
    rw [hensure, hrun] at hcases
    rcases hcases with heq | ⟨a, hmax, -, hmmap, heq⟩ | ⟨-, hsmall, heq⟩
    · obtain ⟨rfl, -⟩ := Prod.mk.inj (Option.some.inj heq)
      exact hcounts
    · obtain ⟨rfl, -⟩ := Prod.mk.inj (Option.some.inj heq)
      have hfresh := hvalid.mmap_fresh _ _ hmmap
      rw [hensure] at hfresh
      exact hcounts.mapBlock hfresh hmax
    · obtain ⟨r, hr, hfits⟩ := exists_fits hsmall
      rw [splitBlockBuddy_of_empty hfits hr h.heads] at heq
      obtain ⟨rfl, -⟩ := Prod.mk.inj (Option.some.inj heq)
      exact hcounts
  sfree := by
    rintro w env ⟨h, hcounts⟩ - p hp
    obtain ⟨s', hrun, hpost, hfreed⟩ := h.sfree env hp
    refine ⟨s', hrun, ⟨hpost, ?_⟩, hfreed⟩
    obtain ⟨a, ha, rfl⟩ := h.live_iff hp
    have hblock := h.maps.block a ha
    rw [sfree_of_large env hblock.not_free hblock.le_max hblock.large] at hrun
    obtain rfl := Option.some.inj hrun
    cases env.munmap with
    | false => exact hcounts
    | true => exact hcounts.unmapBlock ha
  srealloc_small := by
    rintro w env ⟨h, -⟩ - p hp size hlt hsmall
    exfalso
    obtain ⟨a, ha, rfl⟩ := h.live_iff hp
    have hlarge := (h.maps.block a ha).large
    rw [Nat.add_sub_cancel] at hlt
    omega

/-- A call that sets up no heap leaves counters that follow the mappings. -/
theorem Unready.step_of_not_setsUp (h : Unready w) (hcounts : CountsMaps w.st)
    (hvalid : env.Valid w.st) {call : Call} (hallowed : call.Allowed w)
    (hnot : ¬ SetsUp env w call) {w' : World} {p : ℕ}
    (hexec : exec env w call = some (w', p)) :
    Unready w' ∧ CountsMaps w'.st := by
  cases hsbrk : env.sbrk with
  | false =>
      obtain ⟨w'', q, hexec', hpost, -⟩ :=
        closed_countsMaps.exec ⟨h, hcounts⟩ hsbrk hvalid hallowed
      rw [hexec] at hexec'
      obtain ⟨rfl, -⟩ := Prod.mk.inj (Option.some.inj hexec')
      exact hpost
  | true =>
      have hstay : ¬ call.EntersSmalloc w := fun henters =>
        hnot ⟨h.initialized, hsbrk, henters⟩
      cases call with
      | smalloc size => exact absurd trivial hstay
      | scalloc num size =>
          rw [exec, scalloc, if_pos (not_not.mp hstay)] at hexec
          obtain ⟨rfl, -⟩ := Prod.mk.inj (Option.some.inj hexec)
          exact ⟨h, hcounts⟩
      | sfree p =>
          rcases hallowed with rfl | hp
          · rw [exec, sfree_zero] at hexec
            obtain ⟨rfl, -⟩ := Prod.mk.inj (Option.some.inj hexec)
            rw [Finset.erase_eq_of_notMem h.zero_not_mem]
            exact ⟨h, hcounts⟩
          · -- `sfree` does not look at `sbrk`.
            let env' : Env := ⟨false, env.mmap, env.munmap⟩
            have hfails : env'.sbrk = false := rfl
            obtain ⟨s', hrun, hpost, -⟩ :=
              closed_countsMaps.sfree ⟨h, hcounts⟩ hfails p hp
            have hsame : Allocator.sfree env w.st p = some s' := hrun
            rw [exec, hsame] at hexec
            obtain ⟨rfl, -⟩ := Prod.mk.inj (Option.some.inj hexec)
            exact hpost
      | srealloc oldp size =>
          by_cases hinvalid : size = 0 ∨ maxAllocationSize < size
          · rw [exec, srealloc_of_invalid _ _ _ hinvalid] at hexec
            obtain ⟨rfl, -⟩ := Prod.mk.inj (Option.some.inj hexec)
            exact ⟨h, hcounts⟩
          · obtain ⟨hne, hge⟩ : oldp ≠ 0 ∧
                size ≤ getSize w.st.mem (oldp - sizeofMetaData) := by
              have hor := not_and.mp hstay hinvalid
              rwa [not_or, Nat.not_lt] at hor
            have hp : oldp ∈ w.live := hallowed.resolve_left hne
            obtain ⟨a, -, rfl⟩ := h.live_iff hp
            rw [Nat.add_sub_cancel] at hge
            rw [exec, srealloc_of_le hinvalid env hge] at hexec
            obtain ⟨rfl, -⟩ := Prod.mk.inj (Option.some.inj hexec)
            rw [moveLive, if_neg hne, Finset.insert_erase hp]
            exact ⟨h, hcounts⟩
      | write a v =>
          obtain ⟨p, hp, hpa, hap⟩ := hallowed
          obtain ⟨rfl, -⟩ := Prod.mk.inj (Option.some.inj hexec)
          refine closed_countsMaps.write ⟨h, hcounts⟩ p hp _
            ((agreeOff_fill _ _ _ _).mono ?_)
          rintro x ⟨hx, hx'⟩
          exact ⟨by omega, by omega⟩

/-! ## Setting up the heap -/

/-- A call that runs `smalloc` does the same once the heap has been set up. -/
theorem Unready.exec_ensureHeap (h : Unready w) (hvalid : env.Valid w.st)
    {call : Call} (hallowed : call.Allowed w) (hsets : SetsUp env w call) :
    exec env ⟨ensureHeap env w.st, w.live⟩ call = exec env w call := by
  have henters := hsets.enters
  cases call with
  | smalloc size => rw [exec, exec, smalloc_ensureHeap]
  | scalloc num size =>
      rw [exec, exec, scalloc, scalloc, if_neg henters, if_neg henters,
        smalloc_ensureHeap]
  | sfree p => exact henters.elim
  | srealloc oldp size =>
      obtain ⟨hvalidSize, hcase⟩ := henters
      rcases hallowed with rfl | hp
      · rw [exec, exec, srealloc_zero hvalidSize, srealloc_zero hvalidSize,
          smalloc_ensureHeap]
      · obtain ⟨a, ha, rfl⟩ := h.live_iff hp
        obtain ⟨-, hkept⟩ := h.initHeap hvalid hsets.sbrk
        have hsame := (hkept.header_eq hp).1
        have hlt := hcase.resolve_left (payload_ne_zero a)
        have hlarge := (h.maps.block a ha).large
        rw [Nat.add_sub_cancel] at hlt hsame
        have hlt' := hsame.trans_lt hlt
        rw [exec, exec, srealloc_of_large hvalidSize env hlt (by omega),
          srealloc_of_large hvalidSize env hlt' (by omega),
          Allocator.moveAlloc, Allocator.moveAlloc, smalloc_ensureHeap]
  | write a v => exact henters.elim

/-- A call that sets up the heap leaves counters that miss the mappings there
were. -/
theorem Unready.setUp (h : Unready w) (hvalid : env.Valid w.st) {call : Call}
    (hallowed : call.Allowed w) (hsets : SetsUp env w call) {w' : World} {p : ℕ}
    (hexec : exec env w call = some (w', p)) :
    OnHeap (initialRoot w.st.brk) (forgotten w.st) w' := by
  obtain ⟨hready, -⟩ := h.initHeap hvalid hsets.sbrk
  have hallowed' : call.Allowed ⟨ensureHeap env w.st, w.live⟩ := by
    have henters := hsets.enters
    cases call with
    | smalloc size => exact True.intro
    | scalloc num size => exact True.intro
    | sfree p => exact henters.elim
    | srealloc oldp size => exact hallowed
    | write a v => exact henters.elim
  obtain ⟨w'', q, hexec', hpost, -⟩ := (closed_onHeap _ _).exec ⟨_, hready⟩
    trivial (hvalid.ensureHeap hready.initialized) hallowed'
  rw [h.exec_ensureHeap hvalid hallowed hsets, hexec] at hexec'
  obtain ⟨rfl, -⟩ := Prod.mk.inj (Option.some.inj hexec')
  exact hpost

end Unready

/-! ## Whole runs -/

/-- The invariant of the runs in which the heap is set up in time: nothing was
forgotten, and every mapping is live. -/
structure TimelyInv (w : World) : Prop where
  counts : (Unready w ∧ CountsMaps w.st) ∨ ∃ root, OnHeap root ⟨0, 0⟩ w
  mapsLive : AllMapsLive w

theorem TimelyInv.inv {w : World} (h : TimelyInv w) : Inv w := by
  rcases h.counts with ⟨hunready, -⟩ | ⟨root, H, hready⟩
  · exact Or.inl hunready
  · exact Or.inr ⟨root, H, _, hready⟩

/-- A call whose `munmap` succeeds leaves every mapping live. -/
theorem TimelyInv.mapsLive_of_exec {w w' : World} {env : Env} {call : Call} {p : ℕ}
    (h : TimelyInv w) (hmunmap : env.munmap = true) (hvalid : env.Valid w.st)
    (hallowed : call.Allowed w) (hexec : exec env w call = some (w', p)) :
    AllMapsLive w' :=
  (closed_inv.allMapsLive.step ⟨h.inv, h.mapsLive⟩
    ⟨env, call, p, hmunmap, hvalid, hallowed, hexec⟩).2

theorem TimelyInv.step {w w' : World} (h : TimelyInv w)
    (hstep : TimelyStep w w') : TimelyInv w' := by
  obtain ⟨env, call, p, hmunmap, hvalid, hallowed, hexec, htimely⟩ := hstep
  refine ⟨?_, h.mapsLive_of_exec hmunmap hvalid hallowed hexec⟩
  rcases h.counts with ⟨hunready, hcounts⟩ | ⟨root, hready⟩
  · by_cases hsets : SetsUp env w call
    · have hmapped : w.st.mapped = ∅ := h.mapsLive.liveMaps_eq ▸ htimely hsets
      have hpost := hunready.setUp hvalid hallowed hsets hexec
      rw [forgotten_of_empty hmapped] at hpost
      exact Or.inr ⟨_, hpost⟩
    · exact Or.inl
        (hunready.step_of_not_setsUp hcounts hvalid hallowed hsets hexec)
  · exact Or.inr ⟨root, (closed_onHeap root _).step hready
      ⟨env, call, p, trivial, hvalid, hallowed, hexec⟩⟩

theorem IsStart.timelyInv {w : World} (h : IsStart w) : TimelyInv w := by
  refine ⟨Or.inl ⟨h.unready, ?_, ?_⟩, ?_⟩
  · rw [outside, h.mapped, h.allocatedBlocks, h.allocatedBytes]
    rfl
  · rw [h.metadataBytes, h.allocatedBlocks]
    rfl
  · intro a ha
    rw [h.mapped] at ha
    exact absurd ha (Finset.notMem_empty a)

theorem TimelyInv.of_run {w₀ w : World} (hstart : IsStart w₀)
    (hrun : Relation.ReflTransGen TimelyStep w₀ w) : TimelyInv w := by
  induction hrun with
  | refl => exact hstart.timelyInv
  | tail _ hstep ih => exact ih.step hstep

theorem CountsMaps.accounted {w : World} (h : Unready w)
    (hcounts : CountsMaps w.st) (hlive : AllMapsLive w) : Accounted w := by
  have htotal := h.maps.total_lt
  rw [addressLimit, sizeofMetaData] at htotal
  have hout := hcounts.outside_eq
  rw [outside_zero] at hout
  obtain ⟨hblocks, hbytes⟩ := Outside.mk.inj hout
  rw [Accounted, hlive.liveMaps_eq]
  refine ⟨∅, ?_, ?_, ?_, ?_⟩
  · rw [HeapBlocks, h.initialized]
    rfl
  · rw [numAllocatedBlocks, ← hblocks, UInt64.toNat_ofNat', Finset.card_empty]
    omega
  · rw [numAllocatedBytes, ← hbytes, UInt64.toNat_ofNat', Finset.sum_empty]
    omega
  · rw [numMetaDataBytes, hcounts.meta_eq, ← hblocks, UInt64.toNat_mul,
      UInt64.toNat_ofNat', Finset.card_empty, sizeofMetaData]
    change 32 * _ % _ = _
    omega

theorem Ready.heapBlocks_iff {root : Block} {w : World}
    {H : Tiling root maxBlockOrder} {c : Outside} (h : Ready w H c)
    {B : Finset (ℕ × ℕ)} : HeapBlocks w.st B ↔ B = layoutBlocks H := by
  rw [HeapBlocks, if_pos h.initialized]
  constructor
  · rintro ⟨L, hlayout⟩
    exact (h.rep.layout_eq hlayout).1
  · rintro rfl
    obtain ⟨L, hlayout, -⟩ := h.rep.heapLayout
    exact ⟨L, hlayout⟩

theorem OnHeap.accounted {root : Block} {w : World} (h : OnHeap root ⟨0, 0⟩ w)
    (hlive : AllMapsLive w) : Accounted w := by
  obtain ⟨H, h⟩ := h
  obtain ⟨hblocks, hbytes, hmeta⟩ := h.counters_eq
  rw [Accounted, hlive.liveMaps_eq]
  refine ⟨layoutBlocks H, h.heapBlocks_iff.mpr rfl, ?_, ?_, ?_⟩
  · rw [hblocks, layoutBlocks_card]
  · rw [hbytes, layoutBlocks_sum H (getSize w.st.mem)]
  · rw [hmeta, hblocks, layoutBlocks_card]

theorem TimelyInv.accounted {w : World} (h : TimelyInv w) : Accounted w := by
  rcases h.counts with ⟨hunready, hcounts⟩ | ⟨root, hready⟩
  · exact hcounts.accounted hunready h.mapsLive
  · exact hready.accounted h.mapsLive

/-- There is at most one set of heap blocks. -/
theorem TimelyInv.heapBlocks_unique {w : World} (h : TimelyInv w)
    {B B' : Finset (ℕ × ℕ)} (hB : HeapBlocks w.st B) (hB' : HeapBlocks w.st B') :
    B = B' := by
  rcases h.counts with ⟨hunready, -⟩ | ⟨root, H, hready⟩
  · rw [HeapBlocks, hunready.initialized] at hB hB'
    exact Eq.trans hB (Eq.symm hB')
  · rw [hready.heapBlocks_iff.mp hB, hready.heapBlocks_iff.mp hB']

/-- A heap set up too late is never accounted for. -/
theorem OnHeap.not_accounted {root : Block} {w w' : World} (h : Unready w)
    (hmapped : w.st.mapped ≠ ∅) (hpost : OnHeap root (forgotten w.st) w')
    (hlive : AllMapsLive w') : ¬ Accounted w' := by
  obtain ⟨H, hready⟩ := hpost
  rintro ⟨B, hB, hblocks, -⟩
  obtain rfl := hready.heapBlocks_iff.mp hB
  have hcard := Finset.card_pos.mpr (Finset.nonempty_iff_ne_empty.mpr hmapped)
  have htotal := h.maps.total_lt
  have hrep := hready.rep.blocks_eq
  rw [layoutBlocks_card, hlive.liveMaps_eq] at hblocks
  have hcounted : w'.st.allocatedBlocks =
      UInt64.ofNat (H.tiles.card + w'.st.mapped.card) := by
    rw [← hblocks, numAllocatedBlocks, UInt64.ofNat_toNat]
  rw [hcounted, UInt64.ofNat_add, outside, forgotten] at hrep
  have hzero : UInt64.ofNat w.st.mapped.card = 0 := by
    grind
  have hnat := congrArg UInt64.toNat hzero
  rw [UInt64.toNat_ofNat'] at hnat
  rw [addressLimit, sizeofMetaData] at htotal
  change _ = 0 at hnat
  omega

/-- A call that sets up the heap while a mapping is live loses the count. -/
theorem TimelyInv.not_accounted_of_setsUp {w w' : World} {env : Env} {call : Call}
    {p : ℕ} (h : TimelyInv w) (hmunmap : env.munmap = true)
    (hvalid : env.Valid w.st) (hallowed : call.Allowed w)
    (hexec : exec env w call = some (w', p)) (hsets : SetsUp env w call)
    (hmaps : liveMaps w ≠ ∅) : ¬ Accounted w' := by
  rw [h.mapsLive.liveMaps_eq] at hmaps
  rcases h.counts with ⟨hunready, -⟩ | ⟨root, H, hready⟩
  · exact OnHeap.not_accounted hunready hmaps
      (hunready.setUp hvalid hallowed hsets hexec)
      (h.mapsLive_of_exec hmunmap hvalid hallowed hexec)
  · have hinit := hsets.initialized
    rw [hready.initialized] at hinit
    cases hinit

theorem TimelyInv.mappedBlock {w : World} (h : TimelyInv w) {a : ℕ}
    (ha : a ∈ w.st.mapped) : MappedBlock w.st.mem a := by
  rcases h.counts with ⟨hunready, -⟩ | ⟨root, H, hready⟩
  · exact hunready.maps.block a ha
  · exact hready.maps.block a ha

/-- A mapping whose `munmap` fails is no longer live, and still counted. -/
theorem TimelyInv.not_accounted_of_munmap_fails {w w' : World} {env : Env}
    {a p : ℕ} (h : TimelyInv w) (ha : a ∈ liveMaps w)
    (hfails : env.munmap = false)
    (hexec : exec env w (.sfree (a + sizeofMetaData)) = some (w', p)) :
    ¬ Accounted w' := by
  obtain ⟨B, hB, hblocks, -⟩ := h.accounted
  have hblock := h.mappedBlock (Finset.mem_filter.mp ha).1
  rw [exec, sfree_of_large env hblock.not_free hblock.le_max hblock.large,
    hfails] at hexec
  obtain ⟨rfl, -⟩ := Prod.mk.inj (Option.some.inj hexec)
  rintro ⟨B', hB', hblocks', -⟩
  obtain rfl := h.heapBlocks_unique hB hB'
  have herase : liveMaps ⟨w.st, w.live.erase (a + sizeofMetaData)⟩ =
      (liveMaps w).erase a := by
    ext d
    simp only [liveMaps, Finset.mem_filter, Finset.mem_erase, ne_eq,
      Nat.add_right_cancel_iff]
    tauto
  have hcard := Finset.card_erase_lt_of_mem ha
  rw [← herase] at hcard
  have hsame : B.card + (liveMaps w).card = B.card +
      (liveMaps ⟨w.st, w.live.erase (a + sizeofMetaData)⟩).card :=
    hblocks.symm.trans hblocks'
  omega

/-- As long as no heap is set up while a mapping is live and no `munmap` fails, the
counters are exact after every call; the first call that sets up the heap while a
mapping is live, and the first `sfree` whose `munmap` fails, make them wrong. -/
theorem accounted_of_timely_run (w₀ w : World) (hstart : IsStart w₀)
    (hrun : Relation.ReflTransGen TimelyStep w₀ w) :
    Accounted w ∧
      (∀ env call w' p, env.munmap = true → env.Valid w.st → call.Allowed w →
        exec env w call = some (w', p) → SetsUp env w call →
          liveMaps w ≠ ∅ → ¬ Accounted w') ∧
      ∀ env a w' p, a ∈ liveMaps w → env.munmap = false →
        exec env w (.sfree (a + sizeofMetaData)) = some (w', p) →
          ¬ Accounted w' := by
  have hinv := TimelyInv.of_run hstart hrun
  refine ⟨hinv.accounted, ?_, ?_⟩
  · intro env call w' p hmunmap hvalid hallowed hexec hsets hmaps
    exact hinv.not_accounted_of_setsUp hmunmap hvalid hallowed hexec hsets hmaps
  · intro env a w' p ha hfails hexec
    exact hinv.not_accounted_of_munmap_fails ha hfails hexec

/-- A mapping of 200000 bytes is handed out while `sbrk` fails. -/
@[irreducible] def earlyMapping : World :=
  (replayWith (freshWorld 4194304) [(⟨false, some (16777216, 200032), true⟩,
    .smalloc 200000)]).get (by decide +kernel)

theorem earlyMapping_reachable : Reachable earlyMapping := by
  unfold earlyMapping
  exact reachable_replayWith (by decide) _

theorem accounted_of_timely_run_first :
    ∃ w p, exec (Answers.env ⟨false, some (16777216, 200032), true⟩)
        (freshWorld 4194304) (.smalloc 200000) = some (w, p) ∧
      Accounted w := by
  have hstart := isStart_freshWorld (Nat.zero_lt_succ 4194303)
  have hvalid := Answers.Fits.valid
    (x := ⟨false, some (16777216, 200032), true⟩)
    (s := (freshWorld 4194304).st) (by decide +kernel)
  have hallowed : Call.Allowed (freshWorld 4194304) (.smalloc 200000) := trivial
  obtain ⟨w, p, hexec, -, -⟩ :=
    closed_inv.exec (Or.inl hstart.unready) trivial hvalid hallowed
  refine ⟨w, p, hexec, (accounted_of_timely_run _ w hstart
    (Relation.ReflTransGen.single
      ⟨_, _, p, rfl, hvalid, hallowed, hexec, ?_⟩)).1⟩
  intro hsets
  exact absurd hsets.sbrk Bool.false_ne_true

/-- The next `smalloc`, for which `sbrk` succeeds, forgets the mapping. -/
theorem smalloc_earlyMapping_not_accounted :
    Reachable earlyMapping ∧ noMmap.Valid earlyMapping.st ∧
      ∃ w' p, exec noMmap earlyMapping (.smalloc 64) = some (w', p) ∧
        ¬ Accounted w' := by
  have hvalid : noMmap.Valid earlyMapping.st :=
    Answers.Fits.valid (x := ⟨true, none, true⟩) (by decide +kernel)
  have hunready := earlyMapping_reachable.unready (by decide +kernel)
  have hmapped : earlyMapping.st.mapped ≠ ∅ := by
    decide +kernel
  have hlive : AllMapsLive earlyMapping := by
    unfold AllMapsLive
    decide +kernel
  have hallowed : Call.Allowed earlyMapping (.smalloc 64) := trivial
  have hsets : SetsUp noMmap earlyMapping (.smalloc 64) :=
    ⟨hunready.initialized, rfl, trivial⟩
  obtain ⟨w', p, hexec, ⟨-, hlive'⟩, -⟩ := closed_inv.allMapsLive.exec
    ⟨earlyMapping_reachable.inv, hlive⟩ rfl hvalid hallowed
  exact ⟨earlyMapping_reachable, hvalid, w', p, hexec,
    OnHeap.not_accounted hunready hmapped
      (hunready.setUp hvalid hallowed hsets hexec) hlive'⟩

end OsCoursework.Allocator
