import OsCoursework.Allocator.Preservation

/-!
# Whole runs

`Closed I` collects what an invariant has to guarantee about the elementary
operations; `Closed.exec` derives from it that every call a well-behaved client
can make is defined, preserves the invariant and keeps the other live blocks.
It is used twice: for the invariant of every run, and for the worlds on one
fixed heap, whose base and leftover counts never change once it is set up.
-/

namespace OsCoursework.Allocator

open OsCoursework.Bytes
open OsCoursework.Dyadic

/-! ## Before the heap is set up -/

section Unready

variable {w : World} {env : Env}

theorem Unready.live_iff (h : Unready w) {p : ℕ} (hp : p ∈ w.live) :
    ∃ a ∈ w.st.mapped, p = a + sizeofMetaData := by
  obtain ⟨a, rfl, ha | ha⟩ := h.live_cases p hp
  · simp at ha
  · exact ⟨a, ha, rfl⟩

theorem Unready.blocks_disjoint (h : Unready w) {p q : ℕ} (hp : p ∈ w.live)
    (hq : q ∈ w.live) (hne : p ≠ q) :
    Disjoint (blockBytes w.st.mem (p - sizeofMetaData))
      (blockBytes w.st.mem (q - sizeofMetaData)) := by
  obtain ⟨a, ha, rfl⟩ := h.live_iff hp
  obtain ⟨d, hd, rfl⟩ := h.live_iff hq
  rw [Nat.add_sub_cancel, Nat.add_sub_cancel]
  apply h.maps.disjoint a ha d hd
  rintro rfl
  exact hne rfl

theorem Unready.write (h : Unready w) {p : ℕ} (hp : p ∈ w.live) {m : Mem}
    (hagree : AgreeOff (payloadBytes w.st.mem p) w.st.mem m) :
    Unready { w with st := { w.st with mem := m } } := by
  obtain ⟨a, ha, rfl⟩ := h.live_iff hp
  exact ⟨⟨h.maps.congr hagree (h.maps.header_not_mem_payload ha) rfl
    h.maps.off_heap, h.brk_pos, h.used_live, h.live_cases⟩, h.initialized,
    h.heads⟩

theorem Unready.sfree (h : Unready w) (env : Env) {p : ℕ} (hp : p ∈ w.live) :
    ∃ s', sfree env w.st p = some s' ∧ Unready ⟨s', w.live.erase p⟩ ∧
      Freed env w p s' := by
  obtain ⟨a, ha, rfl⟩ := h.live_iff hp
  have hblock := h.maps.block a ha
  have hrun := sfree_of_large env hblock.not_free hblock.le_max
    hblock.large
  cases hmunmap : env.munmap with
  | false =>
      rw [hmunmap] at hrun
      refine ⟨w.st, hrun, ⟨⟨h.maps, h.brk_pos, by simp, ?_⟩, h.initialized,
        h.heads⟩, Kept.refl _ _, ?_⟩
      · intro p hp
        exact h.live_cases p (Finset.mem_of_mem_erase hp)
      · intro d hd
        exact ⟨hd, fun htrue => by rw [hmunmap] at htrue; cases htrue⟩
  | true =>
      rw [hmunmap] at hrun
      refine ⟨unmapBlock w.st a, hrun, ⟨⟨h.maps.unmapBlock a, h.brk_pos,
        by simp, ?_⟩, h.initialized, h.heads⟩, Kept.refl _ _, ?_⟩
      · intro p hp
        obtain ⟨hne, hp⟩ := Finset.mem_erase.mp hp
        obtain ⟨d, hd, rfl⟩ := h.live_iff hp
        refine ⟨d, rfl, Or.inr (Finset.mem_erase.mpr ⟨?_, hd⟩)⟩
        rintro rfl
        exact hne rfl
      · intro d hd
        obtain ⟨hne, hd⟩ := Finset.mem_erase.mp hd
        exact ⟨hd, fun _ => by omega⟩

theorem ensureHeap_of_not_initialized (env : Env) {s : State}
    (h : s.initialized = false) : ensureHeap env s = Allocator.initHeap env s := by
  rw [ensureHeap, if_neg (by simp [h])]

theorem initHeap_of_sbrk_fails {s : State} (h : env.sbrk = false) :
    Allocator.initHeap env s = s := by
  simp only [Allocator.initHeap, h, if_true]

/-- The counts a successful `initHeap` forgets: it overwrites the counters,
whatever mappings exist. -/
def forgotten (s : State) : Outside :=
  ⟨0 - UInt64.ofNat s.mapped.card,
    0 - UInt64.ofNat (∑ a ∈ s.mapped, getSize s.mem a)⟩

theorem forgotten_of_empty {s : State} (h : s.mapped = ∅) :
    forgotten s = ⟨0, 0⟩ := by
  rw [forgotten, h, Finset.card_empty, Finset.sum_empty]
  rfl

theorem outside_forgotten (s : State) : outside (forgotten s) s = ⟨0, 0⟩ := by
  have hcancel (x : UInt64) : 0 - x + x = 0 := by grind
  rw [outside, forgotten, hcancel, hcancel]

/-- The first successful `initHeap`. -/
theorem Unready.initHeap (h : Unready w) (hvalid : env.Valid w.st)
    (hsbrk : env.sbrk = true) :
    Ready ⟨ensureHeap env w.st, w.live⟩
        (initialTiling (initialRoot w.st.brk) (initialRoot_order w.st.brk))
        (forgotten w.st) ∧
      Kept w.live w.st.mem (ensureHeap env w.st).mem := by
  have hensure := ensureHeap_of_not_initialized env h.initialized
  obtain ⟨hrep, hagree, hinit, hbase, hmapped, hbrk⟩ :=
    initHeap_eq hsbrk h.brk_pos (hvalid.sbrk_le h.initialized hsbrk) h.heads
  have hoff := hvalid.sbrk_off_maps h.initialized hsbrk
  have hW (a : ℕ) (ha : a ∈ w.st.mapped) := header_not_mem (hoff a ha)
  rw [hensure]
  refine ⟨⟨⟨h.maps.congr hagree hW hmapped ?_, hbrk, ?_, ?_⟩, hinit, ?_,
    initialTiling_coalesced _⟩, Kept.of_agreeOff hagree ?_⟩
  · intro _
    rw [hbase]
    exact hoff
  · intro a ha
    simp [initialTiling] at ha
  · intro p hp
    obtain ⟨a, ha, rfl⟩ := h.live_iff hp
    refine ⟨a, rfl, Or.inr ?_⟩
    change a ∈ (Allocator.initHeap env w.st).mapped
    rwa [hmapped]
  · have hout := Maps.congr_outside hagree hW hmapped (forgotten w.st)
    rw [outside_forgotten] at hout
    change Rep (Allocator.initHeap env w.st) _
      (outside (forgotten w.st) (Allocator.initHeap env w.st))
    rwa [hout]
  · intro p hp
    obtain ⟨a, ha, rfl⟩ := h.live_iff hp
    rw [Nat.add_sub_cancel]
    exact hoff a ha

theorem ensureHeap_ensureHeap (env : Env) (s : State) :
    ensureHeap env (ensureHeap env s) = ensureHeap env s := by
  cases hinit : s.initialized with
  | true => rw [ensureHeap_of_initialized _ hinit, ensureHeap_of_initialized _ hinit]
  | false =>
      have hensure := ensureHeap_of_not_initialized env hinit
      cases hsbrk : env.sbrk with
      | false =>
          have hid := initHeap_of_sbrk_fails (s := s) hsbrk
          rw [hensure, hid, hensure, hid]
      | true =>
          apply ensureHeap_of_initialized _
          rw [hensure]
          simp only [Allocator.initHeap, hsbrk, Bool.true_eq_false, if_false]

theorem ensureHeap_mapped (env : Env) (s : State) :
    (ensureHeap env s).mapped = s.mapped := by
  cases hinit : s.initialized with
  | true => rw [ensureHeap_of_initialized _ hinit]
  | false =>
      rw [ensureHeap_of_not_initialized _ hinit]
      cases hsbrk : env.sbrk with
      | false => rw [initHeap_of_sbrk_fails hsbrk]
      | true =>
          simp only [Allocator.initHeap, hsbrk, Bool.true_eq_false, if_false]

theorem smalloc_ensureHeap (env : Env) (s : State) (size : ℕ) :
    smalloc env (ensureHeap env s) size = smalloc env s size := by
  rw [smalloc, smalloc, ensureHeap_ensureHeap]

/-- What is fresh for a call stays fresh once the call has set up the heap. -/
theorem Env.Valid.ensureHeap (hvalid : env.Valid w.st)
    (hinit : (ensureHeap env w.st).initialized = true) :
    env.Valid (ensureHeap env w.st) := by
  refine ⟨?_, ?_, ?_⟩
  · intro hfalse
    rw [hinit] at hfalse
    cases hfalse
  · intro hfalse
    rw [hinit] at hfalse
    cases hfalse
  · intro len a ha
    rw [ensureHeap_ensureHeap]
    exact hvalid.mmap_fresh len a ha

/-- `smalloc` when the heap cannot be set up: only mappings are handed out. -/
theorem Unready.smalloc_of_sbrk_fails (h : Unready w) (hvalid : env.Valid w.st)
    (hsbrk : env.sbrk = false) (size : ℕ) :
    ∃ s' p, smalloc env w.st size = some (s', p) ∧
      Unready ⟨s', addLive w.live p⟩ ∧ Allocated w size s' p := by
  have hensure : ensureHeap env w.st = w.st := by
    rw [ensureHeap_of_not_initialized _ h.initialized, initHeap_of_sbrk_fails hsbrk]
  have hnull : Unready ⟨w.st, addLive w.live 0⟩ := by
    rw [addLive_zero]
    exact h
  have hallocated : Allocated w size w.st 0 :=
    ⟨Kept.refl _ _, h.zero_not_mem, fun hne => absurd rfl hne,
      fun _ ha => Or.inl ha⟩
  have hcases := smalloc_cases env w.st size
  rw [hensure] at hcases
  rcases hcases with hrun | ⟨a, hmax, hlarge, hmmap, hrun⟩ | ⟨-, hsmall, hrun⟩
  · exact ⟨w.st, 0, hrun, hnull, hallocated⟩
  · have hfresh := hvalid.mmap_fresh _ _ hmmap
    rw [hensure] at hfresh
    refine ⟨mapBlock w.st a size, a + sizeofMetaData, hrun, ?_,
      allocated_mapBlock hfresh hmax ?_⟩
    · rw [addLive_of_ne (payload_ne_zero a)]
      exact ⟨h.toOwns.mapBlock hfresh hlarge hmax, h.initialized, h.heads⟩
    · intro p hp
      obtain ⟨d, hd, rfl⟩ := h.live_iff hp
      rw [Nat.add_sub_cancel]
      exact (hfresh.off_maps d hd).symm
  · obtain ⟨r, hr, hfits⟩ := exists_fits hsmall
    refine ⟨w.st, 0, ?_, hnull, hallocated⟩
    rw [hrun]
    exact splitBlockBuddy_of_empty hfits hr h.heads

/-- `smalloc` that sets up the heap first. -/
theorem Unready.smalloc_of_sbrk (h : Unready w) (hvalid : env.Valid w.st)
    (hsbrk : env.sbrk = true) (size : ℕ) :
    ∃ s' p, ∃ H' : Tiling (initialRoot w.st.brk) maxBlockOrder,
      smalloc env w.st size = some (s', p) ∧
      Ready ⟨s', addLive w.live p⟩ H' (forgotten w.st) ∧
      Allocated w size s' p := by
  obtain ⟨hready, hkept⟩ := h.initHeap hvalid hsbrk
  obtain ⟨s', p, H', hrun, hready', halloc⟩ :=
    hready.smalloc (hvalid.ensureHeap hready.initialized) size
  rw [smalloc_ensureHeap] at hrun
  refine ⟨s', p, H', hrun, hready', hkept.trans halloc.kept, halloc.fresh,
    halloc.size_le, ?_⟩
  intro a ha
  rw [← ensureHeap_mapped env w.st]
  exact halloc.mapped a ha

end Unready

/-! ## Closed invariants -/

/-- An invariant that every elementary operation preserves, in environments
that satisfy `E`. -/
structure Closed (E : Env → Prop) (I : World → Prop) : Prop where
  live_payload : ∀ {w}, I w → ∀ p ∈ w.live, ∃ a, p = a + sizeofMetaData
  blocks_disjoint : ∀ {w}, I w → ∀ p ∈ w.live, ∀ q ∈ w.live, p ≠ q →
    Disjoint (blockBytes w.st.mem (p - sizeofMetaData))
      (blockBytes w.st.mem (q - sizeofMetaData))
  write : ∀ {w}, I w → ∀ p ∈ w.live, ∀ m,
    AgreeOff (payloadBytes w.st.mem p) w.st.mem m →
      I { w with st := { w.st with mem := m } }
  smalloc : ∀ {w env}, I w → E env → env.Valid w.st → ∀ size,
    ∃ s' p, smalloc env w.st size = some (s', p) ∧
      I ⟨s', addLive w.live p⟩ ∧ Allocated w size s' p
  sfree : ∀ {w env}, I w → E env → ∀ p ∈ w.live,
    ∃ s', sfree env w.st p = some s' ∧ I ⟨s', w.live.erase p⟩ ∧
      Freed env w p s'
  srealloc_small : ∀ {w env}, I w → E env → ∀ p ∈ w.live, ∀ size,
    getSize w.st.mem (p - sizeofMetaData) < size →
    size + sizeofMetaData ≤ mmapMinLimit →
    srealloc env w.st p size = moveAlloc env w.st p size ∨
      ∃ s' q, srealloc env w.st p size = some (s', q) ∧
        I ⟨s', insert q (w.live.erase p)⟩ ∧ Grown w p s' q

/-- The state after `srealloc` copied the payload of `p` to `q`; the length is
that in the header of `p`. -/
def copyPayload (s : State) (q p : ℕ) : State :=
  { s with mem := copy s.mem q p (getSize s.mem (p - sizeofMetaData)) }

namespace Closed

variable {E : Env → Prop} {I : World → Prop} {w : World} {env : Env}

theorem zero_not_mem (hI : Closed E I) (h : I w) : 0 ∉ w.live := by
  intro h0
  obtain ⟨a, ha⟩ := hI.live_payload h 0 h0
  exact payload_ne_zero a ha.symm

/-- Storing into one live payload keeps the blocks of the others and the
header of its own. -/
theorem kept_of_write (hI : Closed E I) (h : I w) {p : ℕ} (hp : p ∈ w.live)
    {m : Mem} (hagree : AgreeOff (payloadBytes w.st.mem p) w.st.mem m) :
    Kept (w.live.erase p) w.st.mem m ∧
      getSize m (p - sizeofMetaData) =
        getSize w.st.mem (p - sizeofMetaData) := by
  obtain ⟨a, rfl⟩ := hI.live_payload h p hp
  refine ⟨Kept.of_agreeOff hagree ?_, ?_⟩
  · intro q hq
    obtain ⟨hne, hq⟩ := Finset.mem_erase.mp hq
    have hdisjoint := hI.blocks_disjoint h q hq _ hp hne
    rw [Nat.add_sub_cancel a] at hdisjoint
    exact hdisjoint.mono_right (payload_subset_block _ _)
  · refine (header_eq_of_agreeOff hagree ?_).1
    rintro x hx hx' ⟨hlow, -⟩
    rw [Nat.add_sub_cancel] at hx'
    rw [sizeofMetaData] at hlow
    omega

/-- The block of `p` moves to the one of `q`: `s₁` is the state after `smalloc`
and `s₃` the one after `sfree`. -/
structure Moves (I : World → Prop) (env : Env) (w : World) (p : ℕ) (s₁ : State)
    (q : ℕ) (s₃ : State) : Prop where
  ne : q ≠ p
  allocated : I ⟨s₁, insert q w.live⟩
  copied : I ⟨copyPayload s₁ q p, insert q w.live⟩
  agree_copied : AgreeOff (payloadBytes s₁.mem q) s₁.mem (copyPayload s₁ q p).mem
  kept_copied : Kept w.live s₁.mem (copyPayload s₁ q p).mem
  header_copied : getSize (copyPayload s₁ q p).mem (q - sizeofMetaData) =
    getSize s₁.mem (q - sizeofMetaData)
  run_sfree : Allocator.sfree env (copyPayload s₁ q p) p = some s₃
  freed : Freed env ⟨copyPayload s₁ q p, insert q w.live⟩ p s₃
  post : I ⟨s₃, insert q (w.live.erase p)⟩

namespace Moves

variable {s₁ s₃ : State} {p q : ℕ}

theorem kept (h : Moves I env w p s₁ q s₃) :
    Kept (w.live.erase p) s₁.mem s₃.mem :=
  (h.kept_copied.mono (Finset.erase_subset p w.live)).trans
    (h.freed.kept.mono
      (Finset.erase_subset_erase p (Finset.subset_insert q w.live)))

/-- Freeing the old block leaves the new one alone. -/
theorem new_mem (h : Moves I env w p s₁ q s₃) :
    q ∈ (insert q w.live).erase p :=
  Finset.mem_erase.mpr ⟨h.ne, Finset.mem_insert_self q w.live⟩

theorem header_eq (h : Moves I env w p s₁ q s₃) :
    getSize s₃.mem (q - sizeofMetaData) =
      getSize s₁.mem (q - sizeofMetaData) :=
  (h.freed.kept.header_eq h.new_mem).1.trans h.header_copied

end Moves

/-- The branch of `srealloc` that allocates, copies and frees, step by step. -/
theorem moveAlloc_cases (hI : Closed E I) (h : I w) (hE : E env)
    (hvalid : env.Valid w.st) {p size : ℕ} (hp : p ∈ w.live)
    (hlt : getSize w.st.mem (p - sizeofMetaData) < size) :
    ∃ s₁ q, Allocator.smalloc env w.st size = some (s₁, q) ∧
      Allocated w size s₁ q ∧
      ((q = 0 ∧ Allocator.moveAlloc env w.st p size = some (s₁, 0) ∧
          I ⟨s₁, w.live⟩) ∨
        (q ≠ 0 ∧ ∃ s₃, Allocator.moveAlloc env w.st p size = some (s₃, q) ∧
          Moves I env w p s₁ q s₃)) := by
  obtain ⟨s₁, q, hrun₁, h₁, halloc⟩ := hI.smalloc h hE hvalid size
  refine ⟨s₁, q, hrun₁, halloc, ?_⟩
  by_cases hq0 : q = 0
  · refine Or.inl ⟨hq0, ?_, ?_⟩
    · simp only [Allocator.moveAlloc, hrun₁, Option.bind_eq_bind,
        Option.bind_some, if_pos hq0]
    · rw [hq0, addLive_zero] at h₁
      exact h₁
  rw [addLive_of_ne hq0] at h₁
  have hqp : q ≠ p := by
    rintro rfl
    exact halloc.fresh hp
  have hqlive := Finset.mem_insert_self q w.live
  -- The copy stays inside the new payload.
  have hcopy : AgreeOff (payloadBytes s₁.mem q) s₁.mem (copyPayload s₁ q p).mem := by
    apply (agreeOff_copy _ _ _ _).mono
    rintro x ⟨hx, hx'⟩
    have hsize := halloc.size_le hq0
    rw [(halloc.kept.header_eq hp).1] at hx'
    exact ⟨hx, by omega⟩
  have h₂ : I ⟨copyPayload s₁ q p, insert q w.live⟩ :=
    hI.write h₁ q hqlive _ hcopy
  obtain ⟨hkept₂, hheader⟩ := hI.kept_of_write h₁ hqlive hcopy
  rw [Finset.erase_insert halloc.fresh] at hkept₂
  obtain ⟨s₃, hrun₃, h₃, hfreed⟩ :=
    hI.sfree h₂ hE p (Finset.mem_insert_of_mem hp)
  rw [Finset.erase_insert_of_ne hqp] at h₃
  refine Or.inr ⟨hq0, s₃, ?_, hqp, h₁, h₂, hcopy, hkept₂, hheader, hrun₃,
    hfreed, h₃⟩
  simp only [Allocator.moveAlloc, hrun₁, Option.bind_eq_bind,
    Option.bind_some, if_neg hq0]
  change (Allocator.sfree env (copyPayload s₁ q p) p).bind _ = _
  rw [hrun₃]
  rfl

/-- The branch of `srealloc` that allocates, copies and frees. -/
theorem moveAlloc (hI : Closed E I) (h : I w) (hE : E env) (hvalid : env.Valid w.st)
    {p size : ℕ} (hp : p ∈ w.live)
    (hlt : getSize w.st.mem (p - sizeofMetaData) < size) :
    ∃ s' q, moveAlloc env w.st p size = some (s', q) ∧
      I ⟨s', moveLive w.live p q⟩ ∧
      Kept (w.live.erase p) w.st.mem s'.mem ∧
      (q ≠ 0 → size ≤ getSize s'.mem (q - sizeofMetaData)) := by
  obtain ⟨s₁, q, -, halloc, hcases⟩ := hI.moveAlloc_cases h hE hvalid hp hlt
  have hkept₁ := halloc.kept.mono (Finset.erase_subset p w.live)
  rcases hcases with ⟨-, hrun, hpost⟩ | ⟨hq0, s₃, hrun, hmoves⟩
  · exact ⟨s₁, 0, hrun, hpost, hkept₁, fun hne => absurd rfl hne⟩
  · refine ⟨s₃, q, hrun, ?_, hkept₁.trans hmoves.kept, fun _ => ?_⟩
    · rw [moveLive, if_neg hq0]
      exact hmoves.post
    · rw [hmoves.header_eq]
      exact halloc.size_le hq0

/-- `srealloc` of a live pointer. -/
theorem srealloc (hI : Closed E I) (h : I w) (hE : E env) (hvalid : env.Valid w.st)
    {p : ℕ} (hp : p ∈ w.live) (size : ℕ) :
    ∃ s' q, srealloc env w.st p size = some (s', q) ∧
      I ⟨s', moveLive w.live p q⟩ ∧
      Kept (w.live.erase p) w.st.mem s'.mem := by
  by_cases hinvalid : size = 0 ∨ maxAllocationSize < size
  · exact ⟨w.st, 0, srealloc_of_invalid _ _ _ hinvalid, h, Kept.refl _ _⟩
  obtain ⟨a, ha⟩ := hI.live_payload h p hp
  rcases Nat.lt_or_ge (getSize w.st.mem (p - sizeofMetaData)) size with
    hlt | hge
  · have hmove := hI.moveAlloc h hE hvalid hp hlt
    rcases Nat.lt_or_ge mmapMinLimit (size + sizeofMetaData) with
      hlarge | hsmall
    · have hrun : Allocator.srealloc env w.st p size =
          Allocator.moveAlloc env w.st p size := by
        rw [ha, Nat.add_sub_cancel] at hlt
        rw [ha]
        exact srealloc_of_large hinvalid env hlt hlarge
      obtain ⟨s', q, hrun', hpost, hkept, -⟩ := hmove
      exact ⟨s', q, hrun.trans hrun', hpost, hkept⟩
    · rcases hI.srealloc_small h hE p hp size hlt hsmall with
        hrun | ⟨s', q, hrun, hpost, hgrown⟩
      · obtain ⟨s', q, hrun', hpost, hkept, -⟩ := hmove
        exact ⟨s', q, hrun.trans hrun', hpost, hkept⟩
      · refine ⟨s', q, hrun, ?_, hgrown.kept⟩
        rw [moveLive, if_neg hgrown.ne_zero]
        exact hpost
  · refine ⟨w.st, p, ?_, ?_, Kept.refl _ _⟩
    · rw [ha, Nat.add_sub_cancel] at hge
      rw [ha]
      exact srealloc_of_le hinvalid env hge
    · have hp0 : p ≠ 0 := by
        rw [ha]
        exact payload_ne_zero a
      rw [moveLive, if_neg hp0, Finset.insert_erase hp]
      exact h

theorem scalloc (hI : Closed E I) (h : I w) (hE : E env) (hvalid : env.Valid w.st)
    (num size : ℕ) :
    ∃ s' p, scalloc env w.st num size = some (s', p) ∧
      I ⟨s', addLive w.live p⟩ ∧ Kept w.live w.st.mem s'.mem := by
  by_cases hinvalid : mul64 num size = 0 ∨ maxAllocationSize < mul64 num size
  · refine ⟨w.st, 0, ?_, h, Kept.refl _ _⟩
    rw [Allocator.scalloc, if_pos hinvalid]
  obtain ⟨s₁, p, hrun, h₁, halloc⟩ := hI.smalloc h hE hvalid (mul64 num size)
  by_cases hp0 : p = 0
  · subst hp0
    refine ⟨s₁, 0, ?_, h₁, halloc.kept⟩
    simp only [Allocator.scalloc, if_neg hinvalid, hrun, Option.bind_eq_bind,
      Option.bind_some, if_true]
  · rw [addLive_of_ne hp0] at h₁
    have hplive := Finset.mem_insert_self p w.live
    have hfill : AgreeOff (payloadBytes s₁.mem p) s₁.mem
        (fill s₁.mem p 0 (mul64 num size)) := by
      apply (agreeOff_fill _ _ _ _).mono
      rintro x ⟨hx, hx'⟩
      have hsize := halloc.size_le hp0
      exact ⟨hx, by omega⟩
    have hkept := (hI.kept_of_write h₁ hplive hfill).1
    rw [Finset.erase_insert halloc.fresh] at hkept
    refine ⟨{ s₁ with mem := fill s₁.mem p 0 (mul64 num size) }, p, ?_, ?_,
      halloc.kept.trans hkept⟩
    · simp only [Allocator.scalloc, if_neg hinvalid, hrun,
        Option.bind_eq_bind, Option.bind_some, if_neg hp0]
    · rw [addLive_of_ne hp0]
      exact hI.write h₁ p hplive _ hfill

/-- A call keeps the live blocks it was not handed, unless it is a store. -/
def Frame (w : World) (call : Call) (w' : World) : Prop :=
  w.live.erase call.handed ⊆ w'.live ∧
    (call.isApi = true → Kept (w.live.erase call.handed) w.st.mem w'.st.mem)

theorem subset_addLive (live : Finset ℕ) (p : ℕ) : live ⊆ addLive live p := by
  unfold addLive
  split
  · exact Finset.Subset.refl _
  · exact Finset.subset_insert _ _

theorem erase_subset_moveLive (live : Finset ℕ) (oldp p : ℕ) :
    live.erase oldp ⊆ moveLive live oldp p := by
  unfold moveLive
  split
  · exact Finset.erase_subset _ _
  · exact Finset.subset_insert _ _

/-- Every call of a well-behaved client is defined, preserves the invariant and
keeps the other live blocks. -/
theorem exec (hI : Closed E I) (h : I w) (hE : E env)
    (hvalid : env.Valid w.st) {call : Call} (hallowed : call.Allowed w) :
    ∃ w' p, exec env w call = some (w', p) ∧ I w' ∧ Frame w call w' := by
  have hzero := Finset.erase_eq_of_notMem (hI.zero_not_mem h)
  cases call with
  | smalloc size =>
      obtain ⟨s', p, hrun, hpost, halloc⟩ := hI.smalloc h hE hvalid size
      refine ⟨_, p, by rw [Allocator.exec, hrun]; rfl, hpost, ?_⟩
      rw [Frame, Call.handed, hzero]
      exact ⟨subset_addLive _ _, fun _ => halloc.kept⟩
  | scalloc num size =>
      obtain ⟨s', p, hrun, hpost, hkept⟩ := hI.scalloc h hE hvalid num size
      refine ⟨_, p, by rw [Allocator.exec, hrun]; rfl, hpost, ?_⟩
      rw [Frame, Call.handed, hzero]
      exact ⟨subset_addLive _ _, fun _ => hkept⟩
  | sfree p =>
      rcases hallowed with rfl | hp
      · refine ⟨⟨w.st, w.live.erase 0⟩, 0, ?_, ?_, Finset.Subset.refl _,
          fun _ => Kept.refl _ _⟩
        · rw [Allocator.exec, sfree_zero]
          rfl
        · rw [hzero]
          exact h
      · obtain ⟨s', hrun, hpost, hfreed⟩ := hI.sfree h hE p hp
        exact ⟨_, 0, by rw [Allocator.exec, hrun]; rfl, hpost,
          Finset.Subset.refl _, fun _ => hfreed.kept⟩
  | srealloc oldp size =>
      rcases hallowed with rfl | hp
      · by_cases hinvalid : size = 0 ∨ maxAllocationSize < size
        · exact ⟨w, 0, by
            rw [Allocator.exec, srealloc_of_invalid _ _ _ hinvalid]; rfl, h,
            Finset.erase_subset _ _, fun _ => Kept.refl _ _⟩
        · obtain ⟨s', p, hrun, hpost, halloc⟩ := hI.smalloc h hE hvalid size
          refine ⟨_, p, ?_, hpost, ?_⟩
          · simp only [Allocator.exec, srealloc_zero hinvalid, hrun,
              Option.map_some, moveLive, hzero]
            rfl
          · rw [Frame, Call.handed, hzero]
            exact ⟨subset_addLive _ _, fun _ => halloc.kept⟩
      · obtain ⟨s', q, hrun, hpost, hkept⟩ := hI.srealloc h hE hvalid hp size
        exact ⟨_, q, by rw [Allocator.exec, hrun]; rfl, hpost,
          erase_subset_moveLive _ _ _, fun _ => hkept⟩
  | write a v =>
      obtain ⟨p, hp, hpa, hap⟩ := hallowed
      refine ⟨_, 0, rfl, hI.write h p hp _ ((agreeOff_fill _ _ _ _).mono ?_),
        Finset.erase_subset _ _, fun hapi => by cases hapi⟩
      rintro x ⟨hx, hx'⟩
      exact ⟨by omega, by omega⟩

/-- A step leads where `exec` says. -/
theorem step (hI : Closed E I) {w' : World} (h : I w)
    (hstep : StepWith E w w') : I w' := by
  obtain ⟨env, call, p, hE, hvalid, hallowed, hexec⟩ := hstep
  obtain ⟨w'', q, hexec', hpost, -⟩ := hI.exec h hE hvalid hallowed
  rw [hexec'] at hexec
  obtain ⟨rfl, -⟩ := Prod.mk.inj (Option.some.inj hexec)
  exact hpost

/-- A closed invariant survives whole runs. -/
theorem run (hI : Closed E I) {w' : World} (h : I w)
    (hrun : Relation.ReflTransGen (StepWith E) w w') : I w' := by
  induction hrun with
  | refl => exact h
  | tail _ hstep ih => exact hI.step ih hstep

end Closed

/-! ## The two closed invariants -/

/-- The worlds on the heap at `root`, with a fixed leftover `c`. -/
def OnHeap (root : Block) (c : Outside) (w : World) : Prop :=
  ∃ H : Tiling root maxBlockOrder, Ready w H c

theorem closed_onHeap (root : Block) (c : Outside) :
    Closed (fun _ => True) (OnHeap root c) where
  live_payload := by
    rintro w ⟨H, h⟩ p hp
    obtain ⟨a, ha, -⟩ := h.live_cases p hp
    exact ⟨a, ha⟩
  blocks_disjoint := by
    rintro w ⟨H, h⟩ p hp q hq hne
    exact h.blocks_disjoint hp hq hne
  write := by
    rintro w ⟨H, h⟩ p hp m hagree
    exact ⟨H, h.write hp hagree⟩
  smalloc := by
    rintro w env ⟨H, h⟩ - hvalid size
    obtain ⟨s', p, H', hrun, hready, halloc⟩ := h.smalloc hvalid size
    exact ⟨s', p, hrun, ⟨H', hready⟩, halloc⟩
  sfree := by
    rintro w env ⟨H, h⟩ - p hp
    obtain ⟨s', H', hrun, hready, hfreed⟩ := h.sfree env hp
    exact ⟨s', hrun, ⟨H', hready⟩, hfreed⟩
  srealloc_small := by
    rintro w env ⟨H, h⟩ - p hp size hlt hsmall
    rcases h.srealloc_small env hp hlt hsmall with
      hrun | ⟨s', q, H', hrun, hready, hgrown⟩
    · exact Or.inl hrun
    · exact Or.inr ⟨s', q, hrun, ⟨H', hready⟩, hgrown⟩

theorem closed_inv : Closed (fun _ => True) Inv where
  live_payload := by
    rintro w (h | ⟨root, H, c, h⟩) p hp
    · obtain ⟨a, ha, -⟩ := h.live_cases p hp
      exact ⟨a, ha⟩
    · obtain ⟨a, ha, -⟩ := h.live_cases p hp
      exact ⟨a, ha⟩
  blocks_disjoint := by
    rintro w (h | ⟨root, H, c, h⟩) p hp q hq hne
    · exact h.blocks_disjoint hp hq hne
    · exact h.blocks_disjoint hp hq hne
  write := by
    rintro w (h | ⟨root, H, c, h⟩) p hp m hagree
    · exact Or.inl (h.write hp hagree)
    · exact Or.inr ⟨root, H, c, h.write hp hagree⟩
  smalloc := by
    rintro w env (h | ⟨root, H, c, h⟩) - hvalid size
    · cases hsbrk : env.sbrk with
      | false =>
          obtain ⟨s', p, hrun, hpost, halloc⟩ :=
            h.smalloc_of_sbrk_fails hvalid hsbrk size
          exact ⟨s', p, hrun, Or.inl hpost, halloc⟩
      | true =>
          obtain ⟨s', p, H', hrun, hpost, halloc⟩ :=
            h.smalloc_of_sbrk hvalid hsbrk size
          exact ⟨s', p, hrun, Or.inr ⟨_, H', _, hpost⟩, halloc⟩
    · obtain ⟨s', p, H', hrun, hpost, halloc⟩ := h.smalloc hvalid size
      exact ⟨s', p, hrun, Or.inr ⟨root, H', c, hpost⟩, halloc⟩
  sfree := by
    rintro w env (h | ⟨root, H, c, h⟩) - p hp
    · obtain ⟨s', hrun, hpost, hfreed⟩ := h.sfree env hp
      exact ⟨s', hrun, Or.inl hpost, hfreed⟩
    · obtain ⟨s', H', hrun, hpost, hfreed⟩ := h.sfree env hp
      exact ⟨s', hrun, Or.inr ⟨root, H', c, hpost⟩, hfreed⟩
  srealloc_small := by
    rintro w env (h | ⟨root, H, c, h⟩) - p hp size hlt hsmall
    · exfalso
      obtain ⟨a, ha, rfl⟩ := h.live_iff hp
      have hlarge := (h.maps.block a ha).large
      rw [Nat.add_sub_cancel] at hlt
      omega
    · rcases h.srealloc_small env hp hlt hsmall with
        hrun | ⟨s', q, H', hrun, hready, hgrown⟩
      · exact Or.inl hrun
      · exact Or.inr ⟨s', q, hrun, Or.inr ⟨root, H', c, hready⟩, hgrown⟩

theorem IsStart.unready {w : World} (h : IsStart w) : Unready w := by
  refine ⟨⟨⟨?_, ?_, ?_⟩, h.brk_pos, by simp, ?_⟩, h.initialized, h.heads⟩
  · simp [h.mapped]
  · simp [h.mapped]
  · simp [h.mapped]
  · simp [h.live]

theorem Reachable.inv {w : World} (h : Reachable w) : Inv w := by
  obtain ⟨w₀, hstart, hrun⟩ := h
  exact closed_inv.run (Or.inl hstart.unready) hrun

/-- A reachable world whose heap has been set up. -/
theorem Reachable.ready {w : World} (h : Reachable w)
    (hinit : w.st.initialized = true) :
    ∃ root, ∃ H : Tiling root maxBlockOrder, ∃ c, Ready w H c := by
  rcases h.inv with hunready | hready
  · have hfalse := hunready.initialized
    rw [hinit] at hfalse
    cases hfalse
  · exact hready

/-- A reachable world without a heap. -/
theorem Reachable.unready {w : World} (h : Reachable w)
    (hinit : w.st.initialized = false) : Unready w := by
  rcases h.inv with hunready | ⟨root, H, c, hready⟩
  · exact hunready
  · have htrue := hready.initialized
    rw [hinit] at htrue
    cases htrue

end OsCoursework.Allocator
