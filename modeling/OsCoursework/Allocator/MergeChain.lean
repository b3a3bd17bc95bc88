import Mathlib.Order.Bounds.Basic
import OsCoursework.Allocator.Replay

/-!
# The chain of merges

How far `attemptFreeBuddyMerge` climbs is read off the tiling before the call: as long as
the buddy of the window that has been reached is a free tile of the same order.  The
block in which the climb ends stands for the tiles that make it up, in the tiling and in
the lists, and each merge step moves the counters once.
-/

namespace OsCoursework.Allocator

open OsCoursework.Bytes
open OsCoursework.Dyadic

variable {root : Block} {s s' : State} {H H' : Tiling root maxBlockOrder} {b b' : Block}
  {target j k a : ℕ}

/-! ## Members of a list -/

/-- The address is a member of `freeBlocksList[k]`. -/
def Listed (s : State) (k a : ℕ) : Prop :=
  ∃ l, FreeList s.mem (s.freeBlocksList k) l ∧ a ∈ l

theorem Heap.listed_iff (h : Heap s H) (hk : k ≤ maxBlockOrder) :
    Listed s k a ↔ a ∈ freeAddrs H k := by
  obtain ⟨l, hl, hmem⟩ := h.lists.list k hk
  rw [← hmem]
  constructor
  · rintro ⟨l', hl', ha⟩
    rwa [hl.unique hl']
  · intro ha
    exact ⟨l, hl, ha⟩

/-! ## The chain of free buddies -/

/-- Up to order `j`, every window around `b` finds its buddy a free tile. -/
def FreeChain (H : Tiling root maxBlockOrder) (b : Block) (target j : ℕ) : Prop :=
  b.order ≤ j ∧ j ≤ target ∧
    ∀ i, b.order ≤ i → i < j → (b.ancestor i).buddy ∈ H.free

/-- The tiles that make up the block of order `j` around `b`. -/
def parts (b : Block) (j : ℕ) : Finset Block :=
  insert b ((Finset.Ico b.order j).image fun i => (b.ancestor i).buddy)

/-- A climb goes as far as the chain of free buddies. -/
theorem Climb.isGreatest (h : Climb s H b s' H' b') (hstop : Stops target H' b') :
    IsGreatest {j | FreeChain H b target j} b'.order := by
  have hmerges := h.mergesTo
  obtain ⟨hle, hend⟩ := hstop
  refine ⟨⟨hmerges.order_le, hle, fun i => hmerges.buddy_mem_free⟩, ?_⟩
  rintro j ⟨-, hj, hchain⟩
  by_contra hlt
  rw [not_le] at hlt
  have hbuddy := hchain b'.order hmerges.order_le hlt
  rw [hmerges.within.ancestor_eq] at hbuddy
  rcases hend with heq | hnot
  · omega
  · apply hnot
    rw [hmerges.mem_free_iff]
    · exact hbuddy
    · intro hwithin
      exact b'.buddy_ne (hwithin.eq_of_order (Nat.le_refl _))

/-- The tiles that are put together are free. -/
theorem Climb.parts_subset (h : Climb s H b s' H' b') (hb : b ∈ H.free) :
    parts b b'.order ⊆ H.free := by
  intro t ht
  rcases Finset.mem_insert.mp ht with rfl | ht
  · exact hb
  · obtain ⟨i, hi, rfl⟩ := Finset.mem_image.mp ht
    obtain ⟨hle, hlt⟩ := Finset.mem_Ico.mp hi
    exact h.mergesTo.buddy_mem_free hle hlt

theorem Climb.mem_free_iff (h : Climb s H b s' H' b') (hb : b ∈ H.free) {t : Block} :
    t ∈ H'.free ↔ t = b' ∨ t ∈ H.free ∧ t ∉ parts b b'.order := by
  rw [h.mergesTo.free_eq hb, parts, Finset.mem_insert, Finset.mem_sdiff,
    Finset.mem_erase, Finset.mem_insert, not_or]
  tauto

/-- The tiles after a climb: one block stands for those that make it up. -/
theorem Climb.tiles_eq (h : Climb s H b s' H' b') (hb : b ∈ H.free) :
    H'.tiles = insert b' (H.tiles \ parts b b'.order) := by
  have hunion (K : Tiling root maxBlockOrder) (t : Block) :
      t ∈ K.tiles ↔ t ∈ K.free ∨ t ∈ K.used := by
    rw [Tiling.mem_free]
    constructor
    · intro ht
      by_cases hused : t ∈ K.used
      · exact Or.inr hused
      · exact Or.inl ⟨ht, hused⟩
    · rintro (⟨ht, -⟩ | hused)
      · exact ht
      · exact K.used_subset hused
  ext t
  have hparts : t ∈ parts b b'.order → t ∉ H.used := fun ht =>
    (Tiling.mem_free.mp (h.parts_subset hb ht)).2
  rw [hunion, h.mem_free_iff hb, h.mergesTo.used_eq, Finset.mem_insert,
    Finset.mem_sdiff, hunion]
  tauto

theorem Climb.mem_freeAddrs_iff (h : Climb s H b s' H' b') (hb : b ∈ H.free) :
    a ∈ freeAddrs H' k ↔ (k = b'.order ∧ a = addr b') ∨
      a ∈ freeAddrs H k ∧ ∀ t ∈ parts b b'.order, a ≠ addr t := by
  have htile {t : Block} (ht : t ∈ H.free) : t ∈ H.tiles := (Tiling.mem_free.mp ht).1
  rw [mem_freeAddrs, mem_freeAddrs]
  constructor
  · rintro ⟨t, ht, rfl, rfl⟩
    rcases (h.mem_free_iff hb).mp ht with rfl | ⟨hfree, hnot⟩
    · exact Or.inl ⟨rfl, rfl⟩
    · refine Or.inr ⟨⟨t, hfree, rfl, rfl⟩, ?_⟩
      intro u hu heq
      have hufree := h.parts_subset hb hu
      rw [tile_addr_inj H (htile hfree) (htile hufree) heq] at hnot
      exact hnot hu
  · rintro (⟨rfl, rfl⟩ | ⟨⟨t, hfree, rfl, rfl⟩, hne⟩)
    · exact ⟨b', h.mergesTo.mem_free hb, rfl, rfl⟩
    · refine ⟨t, (h.mem_free_iff hb).mpr (Or.inr ⟨hfree, ?_⟩), rfl, rfl⟩
      intro ht
      exact hne t ht rfl

/-! ## The iterations -/

/-- One iteration that merges the window `w`: `mergeBuddyBlocks` is called after both
buddies have left their list, and what it returns is the parent and not `NULL`. -/
def Iteration (s : State) (w : Block) (s₁ : State) : Prop :=
  mergeStep s (addr w) (addr w.buddy) w.order =
      some (s₁, addr w.parent, ((w.order + 1 : ℕ) : ℤ)) ∧
    ∃ s₂, (do
        let s ← s.removeBlockAt w.order (addr w)
        s.removeBlockAt w.order (addr w.buddy)) = some s₂ ∧
      (mergeBuddyBlocks s₂.mem (addr w) (addr w.buddy)).2 = addr w.parent ∧
      addr w.parent ≠ 0

/-- A merge step that does not fail got a block from `mergeBuddyBlocks`. -/
theorem mergeStep_eq_some {current buddy merged : ℕ} {order order' : ℤ}
    (h : mergeStep s current buddy order = some (s', merged, order')) :
    ∃ s₂, (do
        let s ← s.removeBlockAt order current
        s.removeBlockAt order buddy) = some s₂ ∧
      (mergeBuddyBlocks s₂.mem current buddy).2 = merged ∧ merged ≠ 0 := by
  rw [mergeStep, Option.bind_eq_bind, Option.bind_eq_some_iff] at h
  obtain ⟨s₁, hfirst, h⟩ := h
  rw [Option.bind_eq_bind, Option.bind_eq_some_iff] at h
  obtain ⟨s₂, hsecond, h⟩ := h
  refine ⟨s₂, ?_, ?_⟩
  · rw [hfirst]
    exact hsecond
  · dsimp only at h
    rw [deref] at h
    split at h
    · cases h
    · next hne =>
      rw [Option.bind_some, Option.bind_eq_some_iff] at h
      obtain ⟨s₃, -, h⟩ := h
      obtain ⟨-, rfl, -⟩ := Prod.mk.inj (Option.some.inj h)
      exact ⟨rfl, hne⟩

theorem StepsTo.iteration {hb : b ∈ H.free} {hbuddy : b.buddy ∈ H.free}
    {horder : b.order < maxBlockOrder} {s₁ : State}
    (h : StepsTo s H b hb hbuddy horder s₁) : Iteration s b s₁ :=
  ⟨h.run, mergeStep_eq_some h.run⟩

/-- The states between the iterations of a climb. -/
theorem Climb.exists_states (h : Climb s H b s' H' b') :
    ∃ states : ℕ → State, states b.order = s ∧ states b'.order = s' ∧
      ∀ i, b.order ≤ i → i < b'.order →
        Iteration (states i) (b.ancestor i) (states (i + 1)) := by
  induction h with
  | done s H b => exact ⟨fun _ => s, rfl, rfl, fun i hle hlt => by omega⟩
  | @step s s₁ s' H H' b b' hb hbuddy horder first rest ih =>
      obtain ⟨states, hstart, hend, hsteps⟩ := ih
      have hle : b.order + 1 ≤ b'.order := rest.mergesTo.order_le
      rw [Block.parent_order] at hstart hsteps
      refine ⟨Function.update states b.order s, Function.update_self .., ?_, ?_⟩
      · rw [Function.update_of_ne (by omega), hend]
      · intro i hi hlt
        rcases Nat.eq_or_lt_of_le hi with rfl | hgt
        · rw [Function.update_self, Function.update_of_ne (by omega), hstart,
            Block.ancestor_self]
          exact first.iteration
        · rw [Function.update_of_ne (by omega), Function.update_of_ne (by omega),
            ← Block.ancestor_parent hgt]
          exact hsteps i hgt hlt

/-- Each iteration counts once. -/
theorem Climb.counters (h : Climb s H b s' H' b') :
    ∃ n, b'.order = b.order + n ∧
      s'.allocatedBlocks = s.allocatedBlocks - UInt64.ofNat n ∧
      s'.allocatedBytes = s.allocatedBytes + UInt64.ofNat (n * sizeofMetaData) ∧
      s'.metadataBytes = s.metadataBytes - UInt64.ofNat (n * sizeofMetaData) := by
  induction h with
  | done s H b => exact ⟨0, rfl, by simp, by simp, by simp⟩
  | step first rest ih =>
      obtain ⟨n, horder, hblocks, hbytes, hmeta⟩ := ih
      rw [first.blocks_eq] at hblocks
      rw [first.bytes_eq] at hbytes
      rw [first.meta_eq] at hmeta
      refine ⟨n + 1, ?_, ?_, ?_, ?_⟩
      · rw [horder, Block.parent_order]
        omega
      · rw [hblocks, UInt64.ofNat_add]
        grind
      · rw [hbytes, Nat.succ_mul, UInt64.ofNat_add]
        grind
      · rw [hmeta, Nat.succ_mul, UInt64.ofNat_add]
        grind

/-- Outside the headers of free blocks nothing is written. -/
theorem Climb.touches (h : Climb s H b s' H' b') : Touches (freeStarts H) s s' := by
  induction h with
  | done s H b => exact Touches.refl _ s
  | @step s s₁ s' H H' b b' hb hbuddy horder first rest ih =>
      exact first.touches.trans (ih.mono (freeStarts_merge_subset hb hbuddy horder))

theorem Climb.heap (h : Climb s H b s' H' b') (hs : Heap s H) : Heap s' H' := by
  induction h with
  | done s H b => exact hs
  | step first rest ih => exact ih first.heap

/-! ## The maximal chain -/

/-- From `s` to `s'` the tiles that make up the block of order `j` around `b` have been
merged into it, and everything else has stayed. -/
structure ChainMerged (s : State) (H : Tiling root maxBlockOrder) (b : Block) (j : ℕ)
    (s' : State) : Prop where
  heap : ∃ H' : Tiling root maxBlockOrder, Heap s' H' ∧ b.ancestor j ∈ H'.free ∧
    H'.tiles = insert (b.ancestor j) (H.tiles \ parts b j) ∧ H'.used = H.used
  listed : ∀ k ≤ maxBlockOrder, ∀ a, Listed s' k a ↔
    (k = j ∧ a = addr (b.ancestor j)) ∨ Listed s k a ∧ ∀ t ∈ parts b j, a ≠ addr t
  header : ∀ t ∈ H.tiles, t ∉ parts b j →
    getSize s'.mem (addr t) = getSize s.mem (addr t) ∧
      isFree s'.mem (addr t) = isFree s.mem (addr t)
  touches : Touches (freeStarts H) s s'
  iterations : ∃ states : ℕ → State, states b.order = s ∧ states j = s' ∧
    ∀ i, b.order ≤ i → i < j → Iteration (states i) (b.ancestor i) (states (i + 1))
  blocks_eq : s'.allocatedBlocks = s.allocatedBlocks - UInt64.ofNat (j - b.order)
  bytes_eq : s'.allocatedBytes =
    s.allocatedBytes + UInt64.ofNat ((j - b.order) * sizeofMetaData)
  meta_eq : s'.metadataBytes =
    s.metadataBytes - UInt64.ofNat ((j - b.order) * sizeofMetaData)

theorem Climb.chainMerged (h : Climb s H b s' H' b') (hs : Heap s H) (hb : b ∈ H.free) :
    ChainMerged s H b b'.order s' := by
  have hs' := h.heap hs
  have hself := h.mergesTo.within.ancestor_eq
  obtain ⟨n, horder, hblocks, hbytes, hmeta⟩ := h.counters
  have hn : b'.order - b.order = n := by omega
  refine ⟨⟨H', hs', ?_, ?_, h.mergesTo.used_eq⟩, ?_, ?_, h.touches, h.exists_states,
    ?_, ?_, ?_⟩
  · rw [hself]
    exact h.mergesTo.mem_free hb
  · rw [hself]
    exact h.tiles_eq hb
  · intro k hk a
    rw [hs'.listed_iff hk, hs.listed_iff hk, hself]
    exact h.mem_freeAddrs_iff hb
  · intro t ht hnot
    have ht' : t ∈ H'.tiles := by
      rw [h.tiles_eq hb]
      exact Finset.mem_insert_of_mem (Finset.mem_sdiff.mpr ⟨ht, hnot⟩)
    rw [hs'.size_eq t ht', hs.size_eq t ht, hs'.isFree_eq t ht', hs.isFree_eq t ht,
      h.mergesTo.used_eq]
    exact ⟨rfl, rfl⟩
  · rw [hn, hblocks]
  · rw [hn, hbytes]
  · rw [hn, hmeta]

/-- `attemptFreeBuddyMerge` ends and merges exactly the maximal chain of free buddies. -/
theorem attemptFreeBuddyMerge_maximal (h : Heap s H) (hb : b ∈ H.free)
    (hlt : b.order < target) (htarget : target ≤ maxBlockOrder) :
    ∃ j s', IsGreatest {j | FreeChain H b target j} j ∧
      attemptFreeBuddyMerge s (addr b) target = some (s', addr (b.ancestor j)) ∧
      ChainMerged s H b j s' := by
  obtain ⟨s', H', b', hrun, hclimb, hstop⟩ := attemptFreeBuddyMerge_climb h hb hlt htarget
  refine ⟨b'.order, s', hclimb.isGreatest hstop, ?_, hclimb.chainMerged h hb⟩
  rw [hrun, hclimb.mergesTo.within.ancestor_eq]

/-- With its one block freed, the heap of `oneBlock` is coalesced up to order 10. -/
theorem attemptFreeBuddyMerge_maximal_oneBlock :
    ∃ root, ∃ H : Tiling root maxBlockOrder, ∃ b s,
      State.insertAt { oneBlock.st with mem := setIsFree oneBlock.st.mem 4194304 true }
        0 4194304 = some s ∧
      Heap s H ∧ b ∈ H.free ∧ b.order = 0 ∧ addr b = 4194304 ∧
      ∃ j s', IsGreatest {j | FreeChain H b 10 j} j ∧
        attemptFreeBuddyMerge s 4194304 10 = some (s', addr (b.ancestor j)) ∧
        ChainMerged s H b j s' := by
  obtain ⟨root, H, c, b, h, hb, horder, haddr⟩ := oneBlock_ready
  obtain ⟨s, hrun, hrep, -⟩ := release_eq h.rep hb
  have hfree := Tiling.mem_free_release H hb
  have hlt : b.order < 10 := by omega
  have hmerge := attemptFreeBuddyMerge_maximal hrep.heap hfree hlt (by decide)
  rw [haddr, horder] at hrun
  rw [haddr] at hmerge
  exact ⟨root, H.release b, b, s, hrun, hrep.heap, hfree, horder, haddr, hmerge⟩

end OsCoursework.Allocator
