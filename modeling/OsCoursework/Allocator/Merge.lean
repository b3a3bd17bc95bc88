import OsCoursework.Allocator.Representation

/-!
# Merging buddies

One iteration of the loop of `attemptFreeBuddyMerge` is one `merge` of the
abstract tiling, and the whole call climbs from a free tile through its free
buddies: `attemptFreeBuddyMerge_eq` says that it ends, that it is a
`MergesTo` of the tiling, and where it stops.
-/

namespace OsCoursework.Allocator

open OsCoursework.Bytes
open OsCoursework.Dyadic

variable {root : Block} {s : State} {H : Tiling root maxBlockOrder}
  {o : Outside} {b : Block}

/-! ## The free addresses after a merge -/

theorem addr_parent_eq_or (b : Block) :
    addr b.parent = addr b ∨ addr b.parent = addr b.buddy := by
  rw [addr_parent]
  split
  · exact Or.inl rfl
  · exact Or.inr rfl

theorem freeAddrs_merge (hb : b ∈ H.free) (hbuddy : b.buddy ∈ H.free)
    (horder : b.order < maxBlockOrder) (k : ℕ) :
    freeAddrs (H.merge b hb hbuddy horder) k =
      if k = b.order + 1 then insert (addr b.parent) (freeAddrs H k)
      else if k = b.order then
        ((freeAddrs H k).erase (addr b)).erase (addr b.buddy)
      else freeAddrs H k := by
  rw [freeAddrs_eq, Tiling.free_merge, addrsOf_insert, addrsOf_erase,
    addrsOf_erase, Block.parent_order, Block.buddy_order, ← freeAddrs_eq]
  split
  · next hk =>
    have hne : k ≠ b.order := by omega
    rw [if_neg hne, if_neg hne]
  · split <;> rfl

theorem freeStarts_merge_subset (hb : b ∈ H.free) (hbuddy : b.buddy ∈ H.free)
    (horder : b.order < maxBlockOrder) :
    freeStarts (H.merge b hb hbuddy horder) ⊆ freeStarts H := by
  rintro a ⟨t, ht, rfl⟩
  rw [Tiling.free_merge, Finset.mem_coe, Finset.mem_insert, Finset.mem_erase,
    Finset.mem_erase] at ht
  rcases ht with rfl | ⟨-, -, ht⟩
  · rcases addr_parent_eq_or b with heq | heq
    · exact ⟨b, hb, heq.symm⟩
    · exact ⟨b.buddy, hbuddy, heq.symm⟩
  · exact ⟨t, ht, rfl⟩

/-! ## The counters after a merge -/

theorem card_merge (hb : b ∈ H.free) (hbuddy : b.buddy ∈ H.free)
    (horder : b.order < maxBlockOrder) :
    H.tiles.card = (H.merge b hb hbuddy horder).tiles.card + 1 := by
  have h := H.sum_merge (fun _ => 1) hb hbuddy horder
  rw [← Finset.card_eq_sum_ones, ← Finset.card_eq_sum_ones] at h
  omega

theorem sum_usable_merge (hb : b ∈ H.free) (hbuddy : b.buddy ∈ H.free)
    (horder : b.order < maxBlockOrder) :
    ∑ c ∈ (H.merge b hb hbuddy horder).tiles, usable c.order =
      ∑ c ∈ H.tiles, usable c.order + 32 := by
  have h := H.sum_merge (fun c => usable c.order) hb hbuddy horder
  have hu : usable (b.order + 1) = 2 * usable b.order + 32 := usable_succ _
  simp only [Block.buddy_order, Block.parent_order] at h
  omega

/-! ## One iteration -/

theorem mergeBuddyBlocks_eq {m : Mem} (horder : b.order < maxBlockOrder)
    (hne : addr b ≠ 0) (hne' : addr b.buddy ≠ 0)
    (hsize : getSize m (addr b) = usable b.order)
    (hsize' : getSize m (addr b.buddy) = usable b.order)
    (hfree : isFree m (addr b) = true)
    (hfree' : isFree m (addr b.buddy) = true) :
    mergeBuddyBlocks m (addr b) (addr b.buddy) =
      (setSize m (addr b.parent) (usable (b.order + 1)), addr b.parent) := by
  have hblock : getBlockOrder m (addr b) = b.order :=
    getBlockOrder_eq (Nat.le_of_lt horder) hsize
  have hmax : (b.order : ℤ) ≠ maxBlockOrder := by omega
  have hval : add64 (mul64 (usable b.order) 2) sizeofMetaData =
      usable (b.order + 1) := by
    have hlt : usable (b.order + 1) < addressLimit := usable_lt horder
    have hsucc := usable_succ b.order
    simp only [addressLimit] at hlt
    rw [mul64, Nat.mod_eq_of_lt (by omega), add64, Nat.mod_eq_of_lt (by omega)]
    omega
  simp only [mergeBuddyBlocks, hne, hne', hsize, hsize', hfree, hfree', hblock,
    hval, addr_parent, or_self, if_false, ne_eq, not_true_eq_false, hmax,
    not_false_eq_true, and_self, if_true]

/-- Taking two members out of one list. -/
theorem removePair_eq {F : ℕ → Finset ℕ} {k a a' : ℕ}
    (h : Lists s.mem s.freeBlocksList F) (hk : k ≤ maxBlockOrder)
    (ha : a ∈ F k) (ha' : a' ∈ F k) (hne : a' ≠ a) :
    ∃ m heads,
      (do
        let s ← s.removeBlockAt (k : ℤ) a
        s.removeBlockAt (k : ℤ) a') =
          some { s with mem := m, freeBlocksList := heads } ∧
      Lists m heads (Function.update F k (((F k).erase a).erase a')) ∧
      Relinks (F k) s.mem m := by
  obtain ⟨m₁, heads₁, hrun₁, hlists₁, hlinks₁⟩ := removeBlockAt_eq h hk ha
  have ha'₁ : a' ∈ Function.update F k ((F k).erase a) k := by
    rw [Function.update_self]
    exact Finset.mem_erase.mpr ⟨hne, ha'⟩
  obtain ⟨m₂, heads₂, hrun₂, hlists₂, hlinks₂⟩ :=
    removeBlockAt_eq (s := { s with mem := m₁, freeBlocksList := heads₁ })
      hlists₁ hk ha'₁
  rw [Function.update_idem, Function.update_self] at hlists₂
  rw [Function.update_self] at hlinks₂
  have hsub := Finset.coe_subset.mpr (Finset.erase_subset a (F k))
  refine ⟨m₂, heads₂, ?_, hlists₂, hlinks₁.trans (hlinks₂.mono hsub hlinks₁.dvd)⟩
  rw [hrun₁]
  exact hrun₂

/-- A tile other than the two buddies does not start where their parent
does. -/
theorem addr_ne_addr_parent (hb : b ∈ H.free) (hbuddy : b.buddy ∈ H.free)
    {t : Block} (ht : t ∈ H.tiles) (htb : t ≠ b) (htb' : t ≠ b.buddy) :
    addr t ≠ addr b.parent := by
  rcases addr_parent_eq_or b with heq | heq
  · rw [heq]
    exact fun hcontra =>
      htb (tile_addr_inj H ht (Tiling.mem_free.mp hb).1 hcontra)
  · rw [heq]
    exact fun hcontra =>
      htb' (tile_addr_inj H ht (Tiling.mem_free.mp hbuddy).1 hcontra)

/-- The headers of the merged tiling, in a memory that differs from the old one
in links and in the size field of the parent. -/
theorem Heap.headers_merge (h : Heap s H) (hb : b ∈ H.free)
    (hbuddy : b.buddy ∈ H.free) (horder : b.order < maxBlockOrder) {m : Mem}
    (hsize : ∀ t : Block, getSize m (addr t) =
      if addr t = addr b.parent then usable (b.order + 1)
      else getSize s.mem (addr t))
    (hfree : ∀ t : Block, isFree m (addr t) = isFree s.mem (addr t)) :
    ∀ t ∈ (H.merge b hb hbuddy horder).tiles,
      getSize m (addr t) = usable t.order ∧
        isFree m (addr t) =
          decide (t ∉ (H.merge b hb hbuddy horder).used) := by
  intro t ht
  rw [hsize, hfree, Tiling.merge_used]
  rw [Tiling.merge_tiles, Finset.mem_insert, Finset.mem_erase,
    Finset.mem_erase] at ht
  rcases ht with rfl | ⟨htb', htb, ht⟩
  · have hused : b.parent ∉ H.used := fun hmem =>
      H.parent_not_mem (Tiling.mem_free.mp hb).1 (H.used_subset hmem)
    refine ⟨by rw [if_pos rfl, Block.parent_order], ?_⟩
    rw [decide_eq_true hused]
    rcases addr_parent_eq_or b with heq | heq
    · rw [heq]
      exact h.rep.isFree_of_free hb
    · rw [heq]
      exact h.rep.isFree_of_free hbuddy
  · rw [if_neg (addr_ne_addr_parent hb hbuddy ht htb htb')]
    exact ⟨h.size_eq t ht, h.isFree_eq t ht⟩

/-- Once both buddies have left their list, their parent is in no list. -/
theorem parent_not_mem_removed (hb : b ∈ H.free) (hbuddy : b.buddy ∈ H.free)
    (j : ℕ) :
    addr b.parent ∉ Function.update (freeAddrs H) b.order
      (((freeAddrs H b.order).erase (addr b)).erase (addr b.buddy)) j := by
  by_cases hjk : j = b.order
  · rw [hjk, Function.update_self, Finset.mem_erase, Finset.mem_erase]
    rcases addr_parent_eq_or b with heq | heq <;> simp [heq]
  · rw [Function.update_of_ne hjk]
    rcases addr_parent_eq_or b with heq | heq
    · rw [heq, addr_mem_freeAddrs H (Tiling.mem_free.mp hb).1]
      exact fun hmem => hjk hmem.2.symm
    · rw [heq, addr_mem_freeAddrs H (Tiling.mem_free.mp hbuddy).1]
      exact fun hmem => hjk hmem.2.symm

/-- The lists after the two updates are those of the merged tiling. -/
theorem update_freeAddrs_merge (hb : b ∈ H.free) (hbuddy : b.buddy ∈ H.free)
    (horder : b.order < maxBlockOrder) (j : ℕ) :
    Function.update (Function.update (freeAddrs H) b.order
        (((freeAddrs H b.order).erase (addr b)).erase (addr b.buddy)))
        (b.order + 1) (insert (addr b.parent) (freeAddrs H (b.order + 1))) j =
      freeAddrs (H.merge b hb hbuddy horder) j := by
  rw [freeAddrs_merge]
  split
  · next hj =>
    subst hj
    rw [Function.update_self]
  · next hj =>
    rw [Function.update_of_ne hj]
    split
    · next hj' =>
      subst hj'
      rw [Function.update_self]
    · next hj' => rw [Function.update_of_ne hj']

/-- The counters after a merge. -/
theorem Rep.counters_merge (h : Rep s H o) (hb : b ∈ H.free)
    (hbuddy : b.buddy ∈ H.free) (horder : b.order < maxBlockOrder) :
    s.allocatedBlocks - 1 = o.blocks +
        UInt64.ofNat (H.merge b hb hbuddy horder).tiles.card ∧
      s.allocatedBytes + UInt64.ofNat sizeofMetaData = o.bytes +
        UInt64.ofNat (∑ c ∈ (H.merge b hb hbuddy horder).tiles,
          usable c.order) ∧
      s.metadataBytes - UInt64.ofNat sizeofMetaData =
        32 * (s.allocatedBlocks - 1) := by
  have hblocks := h.blocks_eq
  rw [card_merge hb hbuddy horder, UInt64.ofNat_add] at hblocks
  refine ⟨?_, ?_, ?_⟩
  · rw [hblocks]
    grind
  · rw [sum_usable_merge hb hbuddy horder, UInt64.ofNat_add, h.bytes_eq,
      sizeofMetaData]
    grind
  · rw [h.meta_eq, sizeofMetaData]
    grind

/-- One iteration of the loop, which merges `b` with its buddy, takes the state from `s`
to `s₁`. -/
structure StepsTo (s : State) (H : Tiling root maxBlockOrder) (b : Block)
    (hb : b ∈ H.free) (hbuddy : b.buddy ∈ H.free) (horder : b.order < maxBlockOrder)
    (s₁ : State) : Prop where
  run : mergeStep s (addr b) (addr b.buddy) b.order =
    some (s₁, addr b.parent, ((b.order + 1 : ℕ) : ℤ))
  heap : Heap s₁ (H.merge b hb hbuddy horder)
  touches : Touches (freeStarts H) s s₁
  getSize_eq : ∀ t : Block, getSize s₁.mem (addr t) =
    if addr t = addr b.parent then usable (b.order + 1) else getSize s.mem (addr t)
  isFree_eq : ∀ t : Block, isFree s₁.mem (addr t) = isFree s.mem (addr t)
  blocks_eq : s₁.allocatedBlocks = s.allocatedBlocks - 1
  bytes_eq : s₁.allocatedBytes = s.allocatedBytes + UInt64.ofNat sizeofMetaData
  meta_eq : s₁.metadataBytes = s.metadataBytes - UInt64.ofNat sizeofMetaData

/-- The parent of two free buddies starts where one of them does. -/
theorem addr_parent_mem_freeStarts (hb : b ∈ H.free) (hbuddy : b.buddy ∈ H.free) :
    addr b.parent ∈ freeStarts H := by
  rcases addr_parent_eq_or b with heq | heq
  · exact ⟨b, hb, heq.symm⟩
  · exact ⟨b.buddy, hbuddy, heq.symm⟩

/-- After two free buddies have left their list, the lower one takes the doubled
size. -/
theorem Heap.mergeBuddyBlocks_eq (h : Heap s H) (hb : b ∈ H.free)
    (hbuddy : b.buddy ∈ H.free) (horder : b.order < maxBlockOrder) {m : Mem}
    (hfield : ∀ t : Block, getSize m (addr t) = getSize s.mem (addr t) ∧
      isFree m (addr t) = isFree s.mem (addr t)) :
    mergeBuddyBlocks m (addr b) (addr b.buddy) =
      (setSize m (addr b.parent) (usable (b.order + 1)), addr b.parent) := by
  have hbt := (Tiling.mem_free.mp hb).1
  have hbt' := (Tiling.mem_free.mp hbuddy).1
  refine Allocator.mergeBuddyBlocks_eq horder (h.rep.slot hbt).ne_zero
    (h.rep.slot hbt').ne_zero ?_ ?_ ?_ ?_
  · rw [(hfield b).1, h.size_eq b hbt]
  · rw [(hfield b.buddy).1, h.size_eq _ hbt', Block.buddy_order]
  · rw [(hfield b).2]
    exact h.rep.isFree_of_free hb
  · rw [(hfield b.buddy).2]
    exact h.rep.isFree_of_free hbuddy

/-- The merged block with its doubled size, in the state with the counters of one merge. -/
def mergedState (s : State) (m : Mem) (heads : ℕ → ℕ) (b : Block) : State :=
  { s with
    mem := setSize m (addr b.parent) (usable (b.order + 1))
    freeBlocksList := heads
    allocatedBlocks := s.allocatedBlocks - 1
    allocatedBytes := s.allocatedBytes + UInt64.ofNat sizeofMetaData
    metadataBytes := s.metadataBytes - UInt64.ofNat sizeofMetaData }

/-- The code of one iteration, given what its calls do. -/
theorem mergeStep_run {m : Mem} {heads : ℕ → ℕ} {s' : State}
    (hslot : Slot (addr b.parent)) (horder : b.order < maxBlockOrder)
    (hremove : (do
      let s ← s.removeBlockAt b.order (addr b)
      s.removeBlockAt b.order (addr b.buddy)) =
        some { s with mem := m, freeBlocksList := heads })
    (hmerge : mergeBuddyBlocks m (addr b) (addr b.buddy) =
      (setSize m (addr b.parent) (usable (b.order + 1)), addr b.parent))
    (hinsert : (mergedState s m heads b).insertAt ((b.order + 1 : ℕ) : ℤ)
      (addr b.parent) = some s') :
    mergeStep s (addr b) (addr b.buddy) b.order =
      some (s', addr b.parent, ((b.order + 1 : ℕ) : ℤ)) := by
  have hblock : getBlockOrder (mergedState s m heads b).mem (addr b.parent) =
      ((b.order + 1 : ℕ) : ℤ) := by
    apply getBlockOrder_eq horder
    simp [mergedState, getSize_setSize, hslot.dvd, usable_lt (k := b.order + 1) horder]
  rw [Option.bind_eq_bind, Option.bind_eq_some_iff] at hremove
  obtain ⟨s₁, hrun₁, hrun₂⟩ := hremove
  simp only [mergeStep, hrun₁, hrun₂, hmerge, Option.bind_eq_bind, Option.bind_some,
    deref, if_neg hslot.ne_zero]
  rw [mergedState] at hblock hinsert
  rw [hblock, hinsert]
  rfl

/-- One merge inside the loop is one merge of the tiling. -/
theorem Heap.exists_stepsTo (h : Heap s H) (hb : b ∈ H.free)
    (hbuddy : b.buddy ∈ H.free) (horder : b.order < maxBlockOrder) :
    ∃ s', StepsTo s H b hb hbuddy horder s' := by
  have hbt := (Tiling.mem_free.mp hb).1
  have hbt' := (Tiling.mem_free.mp hbuddy).1
  have hk : b.order ≤ maxBlockOrder := Nat.le_of_lt horder
  have hpmem := addr_parent_mem_freeStarts hb hbuddy
  have hpslot : Slot (addr b.parent) := by
    obtain ⟨c, hc, heq⟩ := hpmem
    exact heq ▸ h.rep.slot (Tiling.mem_free.mp hc).1
  have hpd := hpslot.dvd
  -- Both blocks leave their list.
  obtain ⟨m, heads, hremove, hlists, hlinks⟩ := removePair_eq h.lists hk
    ((addr_mem_freeAddrs H hbt).mpr ⟨hb, rfl⟩)
    ((addr_mem_freeAddrs H hbt').mpr ⟨hbuddy, rfl⟩)
    (fun heq => b.buddy_ne (tile_addr_inj H hbt' hbt heq))
  have hfield (t : Block) := hlinks.size_isFree_eq (addr_dvd t)
  have hmerge := h.mergeBuddyBlocks_eq hb hbuddy horder hfield
  -- The parent enters the next list.
  obtain ⟨m', heads', hinsert, hlists', hlinks'⟩ :=
    insertAt_eq (s := mergedState s m heads b) (hlists.setSize hpd _) horder hpslot
      fun j _ => parent_not_mem_removed hb hbuddy j
  rw [Function.update_of_ne (Nat.succ_ne_self b.order)] at hlists' hlinks'
  have hfield' (t : Block) := hlinks'.size_isFree_eq (addr_dvd t)
  have hsize (t : Block) : getSize m' (addr t) =
      if addr t = addr b.parent then usable (b.order + 1)
      else getSize s.mem (addr t) := by
    rw [(hfield' t).1, mergedState, getSize_setSize m hpd (addr_dvd t) (usable_lt horder),
      (hfield t).1]
  have hfree (t : Block) : isFree m' (addr t) = isFree s.mem (addr t) := by
    rw [(hfield' t).2, mergedState, isFree_setSize m hpd (addr_dvd t), (hfield t).2]
  have hheaders := h.headers_merge hb hbuddy horder hsize hfree
  refine ⟨_, mergeStep_run hpslot horder hremove hmerge hinsert,
    ⟨h.heapRoot, h.base_eq, fun t ht => (hheaders t ht).1,
      fun t ht => (hheaders t ht).2, hlists'.congr_sets ?_⟩,
    ⟨?_, rfl, rfl, rfl, rfl⟩, hsize, hfree, rfl, rfl, rfl⟩
  · intro j _
    rw [← update_freeAddrs_merge hb hbuddy horder]
  · have hsub := Set.insert_subset hpmem (freeAddrs_subset_freeStarts H (b.order + 1))
    exact ((hlinks.agreeOff_headers (freeAddrs_subset_freeStarts H _)).trans
      (agreeOff_setSize m hpmem)).trans (hlinks'.agreeOff_headers hsub)

/-- The counters follow the tiling. -/
theorem StepsTo.rep {s₁ : State} {hb : b ∈ H.free} {hbuddy : b.buddy ∈ H.free}
    {horder : b.order < maxBlockOrder} (h : StepsTo s H b hb hbuddy horder s₁)
    (hrep : Rep s H o) : Rep s₁ (H.merge b hb hbuddy horder) o := by
  obtain ⟨hblocks, hbytes, hmeta⟩ := hrep.counters_merge hb hbuddy horder
  refine ⟨h.heap.heapRoot, h.heap.base_eq, h.heap.size_eq, h.heap.isFree_eq,
    h.heap.lists, ?_, ?_, ?_⟩
  · rw [h.blocks_eq, hblocks]
  · rw [h.bytes_eq, hbytes]
  · rw [h.meta_eq, h.blocks_eq, hmeta]

/-! ## The loop -/

/-- At the target order the loop stops, whatever the stale `current` and
`buddy` hold. -/
theorem mergeLoop_of_target (s : State) (targetOrder : ℤ)
    (fuel current buddy finalBlock : ℕ) :
    mergeLoop targetOrder (fuel + 1) s current buddy targetOrder finalBlock =
      some (s, finalBlock) := by
  rw [mergeLoop, if_neg (not_not.mpr rfl)]
  split <;> rfl

/-- The iterations of the loop that lead from `b` up to `b'`. -/
inductive Climb : State → Tiling root maxBlockOrder → Block →
    State → Tiling root maxBlockOrder → Block → Prop
  | done (s : State) (H : Tiling root maxBlockOrder) (b : Block) : Climb s H b s H b
  | step {s s₁ s' : State} {H H' : Tiling root maxBlockOrder} {b b' : Block}
      {hb : b ∈ H.free} {hbuddy : b.buddy ∈ H.free} {horder : b.order < maxBlockOrder}
      (first : StepsTo s H b hb hbuddy horder s₁)
      (rest : Climb s₁ (H.merge b hb hbuddy horder) b.parent s' H' b') :
      Climb s H b s' H' b'

/-- A climb may end: at the target order, or where there is no free buddy. -/
def Stops (target : ℕ) (H : Tiling root maxBlockOrder) (b : Block) : Prop :=
  b.order ≤ target ∧ (b.order = target ∨ b.buddy ∉ H.free)

/-- The merge loop climbs through free buddies until the target order or an
unavailable buddy stops it. -/
theorem mergeLoop_climb (h : Heap s H) (hb : b ∈ H.free) {target fuel : ℕ}
    (hlt : b.order < target) (htarget : target ≤ maxBlockOrder)
    (hfuel : target - b.order < fuel) :
    ∃ s' H' b', mergeLoop target fuel s (addr b) (addr b.buddy) b.order
        (addr b) = some (s', addr b') ∧ Climb s H b s' H' b' ∧ Stops target H' b' := by
  obtain ⟨n, hn⟩ : ∃ n, target - b.order = n := ⟨_, rfl⟩
  induction n generalizing s H b fuel with
  | zero => omega
  | succ n ih =>
      obtain ⟨fuel, rfl⟩ : ∃ f, fuel = f + 1 := ⟨fuel - 1, by omega⟩
      have hbt := (Tiling.mem_free.mp hb).1
      have horder : b.order < maxBlockOrder := by omega
      have htest : (isFree s.mem (addr b.buddy) = true ∧
          getSize s.mem (addr b) = getSize s.mem (addr b.buddy)) ↔ b.buddy ∈ H.free :=
        h.rep.buddy_test_iff hbt horder
      by_cases hbuddy : b.buddy ∈ H.free
      · obtain ⟨hfree, hsize⟩ := htest.mpr hbuddy
        obtain ⟨s₁, hstep⟩ := h.exists_stepsTo hb hbuddy horder
        have hp := Tiling.parent_mem_free_merge hb hbuddy horder
        have hbud : findBuddy s₁.mem (addr b.parent) = addr b.parent.buddy :=
          hstep.heap.rep.findBuddy_eq (Tiling.mem_free.mp hp).1
        have hne : (b.order : ℤ) ≠ target := by omega
        have hpass : ¬ (isFree s.mem (addr b.buddy) = false ∨
            getSize s.mem (addr b) ≠ getSize s.mem (addr b.buddy)) := by
          rw [hfree, hsize]
          simp
        rw [mergeLoop, if_neg hpass, if_pos hne, hstep.run]
        simp only [Option.bind_eq_bind, Option.bind_some, hbud]
        rcases Nat.lt_or_ge (b.order + 1) target with hlt' | hge
        · have hfuel' : target - b.parent.order < fuel := by
            rw [Block.parent_order]
            omega
          obtain ⟨s₂, H₂, b₂, hloop, hclimb, hstop⟩ :=
            ih hstep.heap hp hlt' hfuel' (by rw [Block.parent_order]; omega)
          rw [if_pos (by omega)]
          exact ⟨s₂, H₂, b₂, hloop, .step hstep hclimb, hstop⟩
        · -- The target is reached: `current` and `buddy` are not refreshed.
          have heq : b.order + 1 = target := by omega
          subst heq
          obtain ⟨fuel, rfl⟩ : ∃ f, fuel = f + 1 := ⟨fuel - 1, by omega⟩
          rw [if_neg (not_not.mpr rfl), mergeLoop_of_target]
          exact ⟨s₁, _, b.parent, rfl, .step hstep (.done _ _ _),
            Nat.le_refl _, Or.inl rfl⟩
      · refine ⟨s, H, b, ?_, .done s H b, Nat.le_of_lt hlt, Or.inr hbuddy⟩
        have hfail : isFree s.mem (addr b.buddy) = false ∨
            getSize s.mem (addr b) ≠ getSize s.mem (addr b.buddy) := by
          by_contra hcontra
          rw [not_or, Bool.not_eq_false, not_not] at hcontra
          exact hbuddy (htest.mp hcontra)
        rw [mergeLoop, if_pos hfail]

/-- `attemptFreeBuddyMerge` on a free block below the target order ends, and climbs
through free buddies as far as the target allows. -/
theorem attemptFreeBuddyMerge_climb (h : Heap s H) (hb : b ∈ H.free) {target : ℕ}
    (hlt : b.order < target) (htarget : target ≤ maxBlockOrder) :
    ∃ s' H' b', attemptFreeBuddyMerge s (addr b) target = some (s', addr b') ∧
      Climb s H b s' H' b' ∧ Stops target H' b' := by
  have hbt := (Tiling.mem_free.mp hb).1
  have horder : b.order < maxBlockOrder := by omega
  have hne : (b.order : ℤ) ≠ target := by omega
  have hblock : getBlockOrder s.mem (addr b) = b.order := h.rep.getBlockOrder_eq hbt
  have hbud : findBuddy s.mem (addr b) = addr b.buddy := h.rep.findBuddy_eq hbt
  have hrun : attemptFreeBuddyMerge s (addr b) target =
      if getSize s.mem (addr b) = getSize s.mem (addr b.buddy) then
        mergeLoop target loopBound s (addr b) (addr b.buddy) b.order (addr b)
      else some (s, addr b) := by
    simp only [attemptFreeBuddyMerge, if_neg (h.rep.slot hbt).ne_zero, hblock,
      if_neg hne, hbud, deref, if_neg (h.rep.buddy_ne_zero hbt horder),
      Option.bind_eq_bind, Option.bind_some]
  by_cases hsize : getSize s.mem (addr b) = getSize s.mem (addr b.buddy)
  · rw [hrun, if_pos hsize]
    apply mergeLoop_climb h hb hlt htarget
    rw [maxBlockOrder] at htarget
    rw [loopBound]
    omega
  · refine ⟨s, H, b, by rw [hrun, if_neg hsize], .done s H b, Nat.le_of_lt hlt,
      Or.inr fun hbuddy => ?_⟩
    have htest : isFree s.mem (addr b.buddy) = true ∧
        getSize s.mem (addr b) = getSize s.mem (addr b.buddy) :=
      (h.rep.buddy_test_iff hbt horder).mpr hbuddy
    exact hsize htest.2

/-! ## What a climb leaves behind -/

theorem Climb.mergesTo {s' : State} {H' : Tiling root maxBlockOrder} {b' : Block}
    (h : Climb s H b s' H' b') : Tiling.MergesTo H b H' b' := by
  induction h with
  | done s H b => exact .refl H b
  | step first rest ih => exact .step _ _ _ ih

/-- What the merge loop leaves behind: it has climbed from `b` to `b'` through
free buddies, as far as the target order or an unavailable buddy let it.  The
size field at an absorbed address is stale: whatever was written there lies
between the sizes of `b` and `b'`. -/
structure Merged (target : ℕ) (s : State) (H : Tiling root maxBlockOrder)
    (o : Outside) (b : Block) (s' : State) (H' : Tiling root maxBlockOrder)
    (b' : Block) : Prop where
  rep : Rep s' H' o
  merges : Tiling.MergesTo H b H' b'
  order_le : b'.order ≤ target
  stop : b'.order = target ∨ b'.buddy ∉ H'.free
  touches : Touches (freeStarts H) s s'
  size_le : ∀ t : Block, getSize s'.mem (addr t) = getSize s.mem (addr t) ∨
    getSize s'.mem (addr t) ≤ usable b'.order
  size_ge : ∀ t : Block, getSize s'.mem (addr t) = getSize s.mem (addr t) ∨
    usable b.order ≤ getSize s'.mem (addr t)
  isFree_eq : ∀ t : Block, isFree s'.mem (addr t) = isFree s.mem (addr t)

/-- Nothing to merge with. -/
theorem Merged.refl {target : ℕ} (h : Rep s H o) (hle : b.order ≤ target)
    (hstop : b.order = target ∨ b.buddy ∉ H.free) :
    Merged target s H o b s H b :=
  ⟨h, Tiling.MergesTo.refl H b, hle, hstop, Touches.refl _ s,
    fun _ => Or.inl rfl, fun _ => Or.inl rfl, fun _ => rfl⟩

theorem freeStarts_subset_of_mergesTo
    {H' : Tiling root maxBlockOrder} {b' : Block}
    (h : Tiling.MergesTo H b H' b') : freeStarts H' ⊆ freeStarts H := by
  induction h with
  | refl => exact Set.Subset.refl _
  | step hb hbuddy horder _ ih =>
      exact ih.trans (freeStarts_merge_subset hb hbuddy horder)

/-- One merge followed by the rest of the climb. -/
theorem Merged.step {target : ℕ} {s₁ s' : State}
    {H' : Tiling root maxBlockOrder} {b' : Block} (hb : b ∈ H.free)
    (hbuddy : b.buddy ∈ H.free) (horder : b.order < maxBlockOrder)
    (first : StepsTo s H b hb hbuddy horder s₁)
    (rest : Merged target s₁ (H.merge b hb hbuddy horder) o b.parent s' H' b') :
    Merged target s H o b s' H' b' := by
  refine ⟨rest.rep, Tiling.MergesTo.step hb hbuddy horder rest.merges,
    rest.order_le, rest.stop, first.touches.trans
      (rest.touches.mono (freeStarts_merge_subset hb hbuddy horder)), ?_, ?_,
    fun t => (rest.isFree_eq t).trans (first.isFree_eq t)⟩
  · intro t
    rcases rest.size_le t with heq | hle
    · rw [heq, first.getSize_eq t]
      split
      · exact Or.inr (usable_le_of_le rest.merges.within.1)
      · exact Or.inl rfl
    · exact Or.inr hle
  · intro t
    have hparent : usable b.order ≤ usable b.parent.order :=
      usable_le_of_le (Nat.le_succ b.order)
    rcases rest.size_ge t with heq | hge
    · rw [heq, first.getSize_eq t]
      split
      · exact Or.inr hparent
      · exact Or.inl rfl
    · exact Or.inr (Nat.le_trans hparent hge)

/-- A climb that may stop, with the counters. -/
theorem Climb.merged {target : ℕ} {s' : State} {H' : Tiling root maxBlockOrder}
    {b' : Block} (h : Climb s H b s' H' b') (hrep : Rep s H o)
    (hstop : Stops target H' b') : Merged target s H o b s' H' b' := by
  induction h with
  | done s H b => exact Merged.refl hrep hstop.1 hstop.2
  | step first rest ih =>
      exact Merged.step _ _ _ first (ih (first.rep hrep) hstop)

/-- `attemptFreeBuddyMerge` in a state whose counters are right. -/
theorem attemptFreeBuddyMerge_eq (h : Rep s H o) (hb : b ∈ H.free)
    {target : ℕ} (hlt : b.order < target) (htarget : target ≤ maxBlockOrder) :
    ∃ s' H' b', attemptFreeBuddyMerge s (addr b) target =
        some (s', addr b') ∧ Merged target s H o b s' H' b' := by
  obtain ⟨s', H', b', hrun, hclimb, hstop⟩ :=
    attemptFreeBuddyMerge_climb h.heap hb hlt htarget
  exact ⟨s', H', b', hrun, hclimb.merged h hstop⟩

end OsCoursework.Allocator
