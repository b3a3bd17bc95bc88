import OsCoursework.Allocator.Representation

/-!
# Splitting blocks

One iteration of the second loop of `splitBlockBuddy` is one `split` of the
abstract tiling.  The call as a whole either finds no free block large enough
and leaves the state alone, or hands out the lowest part of the first block of
the first nonempty list.
-/

namespace OsCoursework.Allocator

open OsCoursework.Bytes
open OsCoursework.Dyadic

variable {root : Block} {s : State} {H : Tiling root maxBlockOrder}
  {o : Outside} {b : Block}

/-! ## The free addresses and counters after a split -/

theorem freeAddrs_split (hb : b ∈ H.free) (h0 : 0 < b.order) (k : ℕ) :
    freeAddrs (H.split b hb h0) k =
      if k = b.order - 1 then
        insert (addr b.right) (insert (addr b.left) (freeAddrs H k))
      else if k = b.order then (freeAddrs H k).erase (addr b)
      else freeAddrs H k := by
  rw [freeAddrs_eq, Tiling.free_split, addrsOf_insert, addrsOf_insert,
    addrsOf_erase, Block.left_order, Block.right_order, ← freeAddrs_eq]
  split
  · next hk =>
    have hne : k ≠ b.order := by omega
    rw [if_neg hne, Finset.insert_comm]
  · rfl

theorem freeStarts_subset_split (hb : b ∈ H.free) (h0 : 0 < b.order) :
    freeStarts H ⊆ freeStarts (H.split b hb h0) := by
  rintro a ⟨t, ht, rfl⟩
  by_cases htb : t = b
  · subst htb
    exact ⟨t.left, Tiling.left_mem_free_split hb h0, addr_left h0⟩
  · refine ⟨t, ?_, rfl⟩
    rw [Tiling.free_split]
    simp only [Finset.coe_insert, Finset.coe_erase, Set.mem_insert_iff]
    exact Or.inr (Or.inr ⟨ht, htb⟩)

theorem freeStarts_subset_of_splitsTo
    {H' : Tiling root maxBlockOrder} {b' : Block}
    (h : Tiling.SplitsTo H b H' b') : freeStarts H ⊆ freeStarts H' := by
  induction h with
  | refl => exact Set.Subset.refl _
  | step hb h0 _ ih => exact (freeStarts_subset_split hb h0).trans ih

theorem card_split (hb : b ∈ H.free) (h0 : 0 < b.order) :
    (H.split b hb h0).tiles.card = H.tiles.card + 1 := by
  have h := H.sum_split (fun _ => 1) hb h0
  rw [← Finset.card_eq_sum_ones, ← Finset.card_eq_sum_ones] at h
  omega

theorem sum_usable_split (hb : b ∈ H.free) (h0 : 0 < b.order) :
    ∑ c ∈ H.tiles, usable c.order =
      ∑ c ∈ (H.split b hb h0).tiles, usable c.order + 32 := by
  have h := H.sum_split (fun c => usable c.order) hb h0
  have hu : usable (b.order - 1 + 1) = 2 * usable (b.order - 1) + 32 :=
    usable_succ _
  rw [Nat.sub_add_cancel h0] at hu
  simp only [Block.left_order, Block.right_order] at h
  omega

/-! ## Fresh headers -/

/-- The header the split writes for each half. -/
def freshHeader (m : Mem) (a size : ℕ) : Mem :=
  clearLinks (setIsFree (setSize m a size) a true) a

theorem agreeOff_freshHeader (m : Mem) {a size : ℕ} {S : Set ℕ} (ha : a ∈ S) :
    AgreeOff (headerBytes S) m (freshHeader m a size) :=
  ((agreeOff_setSize m ha).trans (agreeOff_setIsFree _ ha true)).trans
    ((agreeOff_clearLinks _ ha).mono (linkBytes_subset_headerBytes S))

theorem freshHeader_fields (m : Mem) {a c size : ℕ} (ha : 32 ∣ a) (hc : 32 ∣ c)
    (hsize : size < addressLimit) :
    getSize (freshHeader m a size) c = (if c = a then size else getSize m c) ∧
      isFree (freshHeader m a size) c =
        (if c = a then true else isFree m c) := by
  simp [freshHeader, clearLinks, getSize_setPrev, getSize_setNext,
    getSize_setIsFree, getSize_setSize, isFree_setPrev, isFree_setNext,
    isFree_setIsFree, isFree_setSize, ha, hc, hsize]

/-! ## One iteration -/

theorem half_eq {m : Mem} (hb : b.order ≤ maxBlockOrder) (h0 : 0 < b.order)
    (hsize : getSize m (addr b) = usable b.order) :
    add64 (getSize m (addr b)) sizeofMetaData / 2 =
      blockSizeByOrder (b.order - 1) := by
  have hsucc := blockSizeByOrder_succ (b.order - 1)
  rw [Nat.sub_add_cancel h0] at hsucc
  rw [hsize, add64_usable hb, hsucc]
  omega

theorem sub64_blockSizeByOrder {k : ℕ} (hk : k ≤ maxBlockOrder) :
    sub64 (blockSizeByOrder k) sizeofMetaData = usable k := by
  have hadd := usable_add k
  have hle := blockSizeByOrder_le_max hk
  rw [sub64, ← hadd]
  omega

/-- The start of the upper half is not the start of any tile. -/
theorem addr_ne_addr_right (hb : b ∈ H.free) (h0 : 0 < b.order) {t : Block}
    (ht : t ∈ H.tiles) : addr t ≠ addr b.right := by
  intro heq
  have hge := blockSizeByOrder_ge (b.order - 1)
  have hbt := (Tiling.mem_free.mp hb).1
  have htb : t = b := by
    apply H.tile_unique t ht b hbt t.first t.contains_first
    rw [first_eq_of_addr_eq heq]
    exact (Block.right_within h0).contains b.right.contains_first
  rw [htb, addr_right h0] at heq
  omega

/-- The headers of the split tiling, in a memory that differs from the old one
in links and in the two new headers. -/
theorem Rep.headers_split (h : Rep s H o) (hb : b ∈ H.free)
    (h0 : 0 < b.order) {m : Mem}
    (hsize : ∀ t : Block, getSize m (addr t) =
      if addr t = addr b.right ∨ addr t = addr b.left then usable (b.order - 1)
      else getSize s.mem (addr t))
    (hfree : ∀ t : Block, isFree m (addr t) =
      if addr t = addr b.right ∨ addr t = addr b.left then true
      else isFree s.mem (addr t)) :
    ∀ t ∈ (H.split b hb h0).tiles,
      getSize m (addr t) = usable t.order ∧
        isFree m (addr t) = decide (t ∉ (H.split b hb h0).used) := by
  have hbt := (Tiling.mem_free.mp hb).1
  intro t ht
  rw [hsize, hfree, Tiling.split_used]
  rw [Tiling.split_tiles, Finset.mem_insert, Finset.mem_insert,
    Finset.mem_erase] at ht
  rcases ht with rfl | rfl | ⟨htb, ht⟩
  · have hused : b.left ∉ H.used := fun hmem =>
      H.left_not_mem hbt h0 (H.used_subset hmem)
    rw [if_pos (Or.inr rfl), if_pos (Or.inr rfl), decide_eq_true hused]
    exact ⟨rfl, rfl⟩
  · have hused : b.right ∉ H.used := fun hmem =>
      H.right_not_mem hbt h0 (H.used_subset hmem)
    rw [if_pos (Or.inl rfl), if_pos (Or.inl rfl), decide_eq_true hused]
    exact ⟨rfl, rfl⟩
  · have hne : ¬ (addr t = addr b.right ∨ addr t = addr b.left) := by
      rw [addr_left h0]
      rintro (heq | heq)
      · exact addr_ne_addr_right hb h0 ht heq
      · exact htb (tile_addr_inj H ht hbt heq)
    rw [if_neg hne, if_neg hne]
    exact ⟨h.size_eq t ht, h.isFree_eq t ht⟩

/-- Entering two new addresses into one list. -/
theorem insertPair_eq {F : ℕ → Finset ℕ} {k a a' : ℕ}
    (h : Lists s.mem s.freeBlocksList F) (hk : k ≤ maxBlockOrder)
    (ha : Slot a) (ha' : Slot a') (hne : a' ≠ a)
    (hnot : ∀ j ≤ maxBlockOrder, a ∉ F j)
    (hnot' : ∀ j ≤ maxBlockOrder, a' ∉ F j) :
    ∃ m heads,
      (do
        let s ← s.insertAt (k : ℤ) a
        s.insertAt (k : ℤ) a') =
          some { s with mem := m, freeBlocksList := heads } ∧
      Lists m heads (Function.update F k (insert a' (insert a (F k)))) ∧
      Relinks (insert a' (insert a (F k))) s.mem m := by
  obtain ⟨m₁, heads₁, hrun₁, hlists₁, hlinks₁⟩ := insertAt_eq h hk ha hnot
  have hnot₁ : ∀ j ≤ maxBlockOrder,
      a' ∉ Function.update F k (insert a (F k)) j := by
    intro j hj
    by_cases hjk : j = k
    · rw [hjk, Function.update_self, Finset.mem_insert, not_or]
      exact ⟨hne, hnot' k hk⟩
    · rw [Function.update_of_ne hjk]
      exact hnot' j hj
  obtain ⟨m₂, heads₂, hrun₂, hlists₂, hlinks₂⟩ :=
    insertAt_eq (s := { s with mem := m₁, freeBlocksList := heads₁ })
      hlists₁ hk ha' hnot₁
  rw [Function.update_idem, Function.update_self] at hlists₂
  rw [Function.update_self, Finset.coe_insert] at hlinks₂
  have hlinks := (hlinks₁.mono (Set.subset_insert _ _) hlinks₂.dvd).trans hlinks₂
  refine ⟨m₂, heads₂, ?_, hlists₂, hlinks⟩
  rw [hrun₁]
  exact hrun₂

/-- Once the block has left its list, neither half is in any list. -/
theorem halves_not_mem (hb : b ∈ H.free) (h0 : 0 < b.order) (j : ℕ) :
    addr b.left ∉ Function.update (freeAddrs H) b.order
        ((freeAddrs H b.order).erase (addr b)) j ∧
      addr b.right ∉ Function.update (freeAddrs H) b.order
        ((freeAddrs H b.order).erase (addr b)) j := by
  have hbt := (Tiling.mem_free.mp hb).1
  have hright : addr b.right ∉ freeAddrs H j := by
    intro hmem
    obtain ⟨t, ht, -, heq⟩ := (mem_freeAddrs H).mp hmem
    exact addr_ne_addr_right hb h0 (Tiling.mem_free.mp ht).1 heq
  by_cases hjk : j = b.order
  · subst hjk
    rw [Function.update_self, addr_left h0]
    exact ⟨by simp, fun hmem => hright (Finset.mem_of_mem_erase hmem)⟩
  · rw [Function.update_of_ne hjk, addr_left h0, addr_mem_freeAddrs H hbt]
    exact ⟨fun hmem => hjk hmem.2.symm, hright⟩

/-- The lists after the two updates are those of the split tiling. -/
theorem update_freeAddrs_split (hb : b ∈ H.free) (h0 : 0 < b.order) (j : ℕ) :
    Function.update (Function.update (freeAddrs H) b.order
        ((freeAddrs H b.order).erase (addr b))) (b.order - 1)
        (insert (addr b.right) (insert (addr b.left)
          (freeAddrs H (b.order - 1)))) j =
      freeAddrs (H.split b hb h0) j := by
  rw [freeAddrs_split]
  split
  · next hj =>
    subst hj
    rw [Function.update_self]
  · next hj =>
    rw [Function.update_of_ne hj]
    split
    · next hj' =>
      subst hj'
      rw [Function.update_self]
    · next hj' => rw [Function.update_of_ne hj']

/-- The headers that `splitStep` writes for the two halves. -/
def halvesHeader (m : Mem) (b : Block) : Mem :=
  freshHeader (freshHeader m (addr b.left) (usable (b.order - 1)))
    (addr b.right) (usable (b.order - 1))

theorem agreeOff_halvesHeader (m : Mem) (b : Block) :
    AgreeOff (headerBytes {addr b.left, addr b.right}) m (halvesHeader m b) :=
  (agreeOff_freshHeader m (by simp)).trans (agreeOff_freshHeader _ (by simp))

theorem halvesHeader_fields (m : Mem) (hk : b.order - 1 ≤ maxBlockOrder)
    (t : Block) :
    getSize (halvesHeader m b) (addr t) =
      (if addr t = addr b.right ∨ addr t = addr b.left then usable (b.order - 1)
        else getSize m (addr t)) ∧
    isFree (halvesHeader m b) (addr t) =
      (if addr t = addr b.right ∨ addr t = addr b.left then true
        else isFree m (addr t)) := by
  have hu := usable_lt hk
  obtain ⟨hs, hf⟩ := freshHeader_fields
    (freshHeader m (addr b.left) (usable (b.order - 1))) (addr_dvd b.right)
    (addr_dvd t) hu
  obtain ⟨hs', hf'⟩ := freshHeader_fields m (addr_dvd b.left) (addr_dvd t) hu
  rw [halvesHeader, hs, hf, hs', hf', ite_or, ite_or]
  exact ⟨rfl, rfl⟩

/-- Lists without the two halves survive the writing of their headers. -/
theorem lists_halvesHeader {m : Mem} {heads : ℕ → ℕ} {F : ℕ → Finset ℕ}
    (h : Lists m heads F) (hnot : ∀ j, addr b.left ∉ F j ∧ addr b.right ∉ F j) :
    Lists (halvesHeader m b) heads F := by
  have hkeep {j a : ℕ} (hj : j ≤ maxBlockOrder) (ha : a ∈ F j) :=
    fields_eq_of_agreeOff_headers (agreeOff_halvesHeader m b)
      (by simp [addr_dvd]) (h.slot hj ha).dvd (a := a) (by
        rintro (rfl | rfl)
        · exact (hnot j).1 ha
        · exact (hnot j).2 ha)
  apply h.congr
  · intro j hj a ha
    exact (hkeep hj ha).2.2.1
  · intro j hj a ha
    exact (hkeep hj ha).2.2.2

/-- The counters after a split. -/
theorem Rep.counters_split (h : Rep s H o) (hb : b ∈ H.free) (h0 : 0 < b.order) :
    s.allocatedBlocks + 1 =
        o.blocks + UInt64.ofNat (H.split b hb h0).tiles.card ∧
      s.allocatedBytes - UInt64.ofNat sizeofMetaData = o.bytes +
        UInt64.ofNat (∑ c ∈ (H.split b hb h0).tiles, usable c.order) ∧
      s.metadataBytes + UInt64.ofNat sizeofMetaData =
        32 * (s.allocatedBlocks + 1) := by
  have hbytes := h.bytes_eq
  rw [sum_usable_split hb h0, UInt64.ofNat_add] at hbytes
  refine ⟨?_, ?_, ?_⟩
  · rw [card_split hb h0, UInt64.ofNat_add, h.blocks_eq]
    grind
  · rw [hbytes, sizeofMetaData]
    grind
  · rw [h.meta_eq, sizeofMetaData]
    grind

theorem halves_mem_freeStarts (hb : b ∈ H.free) (h0 : 0 < b.order) :
    addr b.left ∈ freeStarts (H.split b hb h0) ∧
      addr b.right ∈ freeStarts (H.split b hb h0) := by
  refine ⟨⟨b.left, Tiling.left_mem_free_split hb h0, rfl⟩, b.right, ?_, rfl⟩
  rw [Tiling.free_split]
  simp

/-- The block leaves its list and both halves get a header. -/
theorem Rep.halve_eq (h : Rep s H o) (hb : b ∈ H.free) (h0 : 0 < b.order)
    (hhead : s.freeBlocksList b.order = addr b) :
    ∃ m heads,
      s.removeFirstAt b.order =
        some ({ s with mem := m, freeBlocksList := heads }, addr b) ∧
      add64 (getSize m (addr b)) sizeofMetaData / 2 = blockSizeByOrder (b.order - 1) ∧
      Lists (halvesHeader m b) heads (Function.update (freeAddrs H) b.order
        ((freeAddrs H b.order).erase (addr b))) ∧
      AgreeOff (headerBytes (freeStarts (H.split b hb h0))) s.mem (halvesHeader m b) ∧
      ∀ t : Block,
        getSize (halvesHeader m b) (addr t) =
          (if addr t = addr b.right ∨ addr t = addr b.left then usable (b.order - 1)
            else getSize s.mem (addr t)) ∧
        isFree (halvesHeader m b) (addr t) =
          (if addr t = addr b.right ∨ addr t = addr b.left then true
            else isFree s.mem (addr t)) := by
  have hbt := (Tiling.mem_free.mp hb).1
  have hk := H.order_le b hbt
  have hk1 : b.order - 1 ≤ maxBlockOrder := Nat.le_trans (Nat.sub_le _ _) hk
  obtain ⟨m, heads, hrun, hlists, hlinks⟩ :=
    removeFirstAt_eq h.lists hk (by rw [hhead]; exact (h.slot hbt).ne_zero)
  rw [hhead] at hrun hlists
  have hfield (t : Block) := hlinks.size_isFree_eq (addr_dvd t)
  obtain ⟨hleft, hright⟩ := halves_mem_freeStarts hb h0
  refine ⟨m, heads, hrun, half_eq hk h0 ((hfield b).1.trans (h.size_eq b hbt)),
    lists_halvesHeader hlists (halves_not_mem hb h0), ?_, ?_⟩
  · have hold : (freeAddrs H b.order : Set ℕ) ⊆ freeStarts (H.split b hb h0) :=
      (freeAddrs_subset_freeStarts H _).trans (freeStarts_subset_split hb h0)
    have hhalves : {addr b.left, addr b.right} ⊆ freeStarts (H.split b hb h0) :=
      Set.insert_subset hleft (Set.singleton_subset_iff.mpr hright)
    exact (hlinks.agreeOff_headers hold).trans
      ((agreeOff_halvesHeader m b).mono (headerBytes_mono hhalves))
  · intro t
    rw [← (hfield t).1, ← (hfield t).2]
    exact halvesHeader_fields m hk1 t

/-- The code of one iteration, given what its calls do. -/
theorem splitStep_run {m m' : Mem} {heads heads' : ℕ → ℕ}
    (hb : b.order ≤ maxBlockOrder) (h0 : 0 < b.order) (hslot : Slot (addr b))
    (hremove : s.removeFirstAt b.order =
      some ({ s with mem := m, freeBlocksList := heads }, addr b))
    (hhalf : add64 (getSize m (addr b)) sizeofMetaData / 2 =
      blockSizeByOrder (b.order - 1))
    (hinsert : (do
      let s ← State.insertAt { s with mem := halvesHeader m b, freeBlocksList := heads }
        ((b.order - 1 : ℕ) : ℤ) (addr b.left)
      s.insertAt ((b.order - 1 : ℕ) : ℤ) (addr b.right)) =
        some { s with mem := m', freeBlocksList := heads' }) :
    splitStep s b.order = some { s with
      mem := m'
      freeBlocksList := heads'
      allocatedBlocks := s.allocatedBlocks + 1
      allocatedBytes := s.allocatedBytes - UInt64.ofNat sizeofMetaData
      metadataBytes := s.metadataBytes + UInt64.ofNat sizeofMetaData } := by
  have hk1 : b.order - 1 ≤ maxBlockOrder := Nat.le_trans (Nat.sub_le _ _) hb
  have hcast : (b.order : ℤ) - 1 = ((b.order - 1 : ℕ) : ℤ) := by omega
  rw [Option.bind_eq_bind, Option.bind_eq_some_iff] at hinsert
  obtain ⟨s₁, hins, hins'⟩ := hinsert
  simp only [splitStep, hremove, Option.bind_eq_bind, Option.bind_some, deref,
    if_neg hslot.ne_zero, hhalf, sub64_blockSizeByOrder hk1, hcast]
  rw [← addr_right h0, ← addr_left h0]
  change ((State.insertAt _ _ _).bind _) = _
  rw [halvesHeader, freshHeader, freshHeader] at hins
  rw [hins, Option.bind_some, hins']
  rfl

/-- One iteration of the split loop is one split of the tiling. -/
theorem splitStep_eq (h : Rep s H o) (hb : b ∈ H.free) (h0 : 0 < b.order)
    (hhead : s.freeBlocksList b.order = addr b) :
    ∃ s', splitStep s b.order = some s' ∧
      Rep s' (H.split b hb h0) o ∧
      Touches (freeStarts (H.split b hb h0)) s s' := by
  have hbt := (Tiling.mem_free.mp hb).1
  have hk := H.order_le b hbt
  have hk1 : b.order - 1 ≤ maxBlockOrder := Nat.le_trans (Nat.sub_le _ _) hk
  have hslot := h.slot hbt
  have hslot' : Slot (addr b.right) :=
    tile_slot (H.split b hb h0) h.heapRoot (by simp)
  have hleft : addr b.left = addr b := addr_left h0
  have hne : addr b.right ≠ addr b.left := by
    rw [hleft]
    exact (addr_ne_addr_right hb h0 hbt).symm
  obtain ⟨m, heads, hremove, hhalf, hlists, hagree, hfield⟩ := h.halve_eq hb h0 hhead
  -- Both halves enter the next list down.
  obtain ⟨m', heads', hinsert, hlists', hlinks'⟩ :=
    insertPair_eq (s := { s with mem := halvesHeader m b, freeBlocksList := heads })
      hlists hk1 (hleft ▸ hslot) hslot' hne
      (fun j _ => (halves_not_mem hb h0 j).1) (fun j _ => (halves_not_mem hb h0 j).2)
  rw [Function.update_of_ne (by omega)] at hlists' hlinks'
  have hfield' (t : Block) := hlinks'.size_isFree_eq (addr_dvd t)
  have hheaders := h.headers_split hb h0 (m := m')
    (fun t => (hfield' t).1.trans (hfield t).1)
    (fun t => (hfield' t).2.trans (hfield t).2)
  obtain ⟨hblocks, hbytes, hmeta⟩ := h.counters_split hb h0
  refine ⟨_, splitStep_run hk h0 hslot hremove hhalf hinsert,
    ⟨h.heapRoot, h.base_eq, fun t ht => (hheaders t ht).1,
      fun t ht => (hheaders t ht).2, hlists'.congr_sets ?_, hblocks, hbytes, hmeta⟩,
    ⟨hagree.trans (hlinks'.agreeOff_headers ?_), rfl, rfl, rfl, rfl⟩⟩
  · exact fun j _ => update_freeAddrs_split hb h0 j
  · obtain ⟨hleftmem, hrightmem⟩ := halves_mem_freeStarts hb h0
    exact Set.insert_subset hrightmem (Set.insert_subset hleftmem
      ((freeAddrs_subset_freeStarts H _).trans (freeStarts_subset_split hb h0)))

/-! ## Rounds of the second loop -/

/-- The size the second loop compares with the request: that of half the first
block of order `k`. -/
def halfSize (s : State) (k : ℕ) : ℕ :=
  sub64 (add64 (getSize s.mem (s.freeBlocksList k)) sizeofMetaData / 2)
    sizeofMetaData

/-- The second loop goes through its body exactly `n` times from `s` and order
`k` to `s'`, and the list head its test reads is never `NULL`. -/
inductive SplitRounds (size : ℕ) : State → ℕ → ℕ → State → Prop
  | stop {s : State} {k : ℕ} (hhead : 0 < k → s.freeBlocksList k ≠ 0)
      (hstop : 0 < k → halfSize s k < size) : SplitRounds size s k 0 s
  | round {s s₁ s' : State} {k n : ℕ} (hhead : s.freeBlocksList (k + 1) ≠ 0)
      (hgo : size ≤ halfSize s (k + 1))
      (hstep : splitStep s ((k + 1 : ℕ) : ℤ) = some s₁)
      (rest : SplitRounds size s₁ k n s') : SplitRounds size s (k + 1) (n + 1) s'

theorem SplitRounds.splitLoop_eq {size k n fuel : ℕ} {s s' : State}
    (h : SplitRounds size s k n s') (hk : k ≤ maxBlockOrder) (hfuel : n < fuel) :
    splitLoop size fuel s (k : ℤ) = some s' := by
  induction h generalizing fuel with
  | @stop s k hhead hstop =>
      obtain ⟨fuel, rfl⟩ : ∃ f, fuel = f + 1 := ⟨fuel - 1, by omega⟩
      by_cases h0 : 0 < k
      · have hlarge : ¬ size ≤ halfSize s k := Nat.not_le.mpr (hstop h0)
        rw [halfSize] at hlarge
        rw [splitLoop, if_pos (by omega), headAt_eq s hk]
        simp only [Option.bind_eq_bind, Option.bind_some, deref,
          if_neg (hhead h0), if_neg hlarge]
      · rw [splitLoop, if_neg (by omega)]
  | @round s s₁ s' k n hhead hgo hstep rest ih =>
      obtain ⟨fuel, rfl⟩ : ∃ f, fuel = f + 1 := ⟨fuel - 1, by omega⟩
      have hcast : ((k + 1 : ℕ) : ℤ) - 1 = (k : ℤ) := by omega
      rw [halfSize] at hgo
      rw [splitLoop, if_pos (by omega), headAt_eq s hk]
      simp only [Option.bind_eq_bind, Option.bind_some, deref, if_neg hhead,
        if_pos hgo, hstep, hcast]
      exact ih (Nat.le_of_succ_le hk) (Nat.lt_of_succ_lt_succ hfuel)

/-! ## The loops -/

/-- The first loop stops at the first nonempty list, or past the last one. -/
theorem findOrder_eq {F : ℕ → Finset ℕ}
    (h : Lists s.mem s.freeBlocksList F) (fuel : ℕ) {r : ℕ}
    (hr : r ≤ maxBlockOrder + 1) (hfuel : maxBlockOrder + 1 - r < fuel) :
    ∃ k : ℕ, findOrder s fuel (r : ℤ) = some (k : ℤ) ∧ r ≤ k ∧
      k ≤ maxBlockOrder + 1 ∧ (∀ j, r ≤ j → j < k → F j = ∅) ∧
      (k ≤ maxBlockOrder → s.freeBlocksList k ≠ 0) := by
  obtain ⟨n, hn⟩ : ∃ n, maxBlockOrder + 1 - r = n := ⟨_, rfl⟩
  induction n generalizing r fuel with
  | zero =>
      obtain ⟨fuel, rfl⟩ : ∃ f, fuel = f + 1 := ⟨fuel - 1, by omega⟩
      refine ⟨r, ?_, Nat.le_refl r, hr, ?_, ?_⟩
      · rw [findOrder, if_neg (by omega)]
      · intro j hj hjr
        omega
      · intro hle
        omega
  | succ n ih =>
      obtain ⟨fuel, rfl⟩ : ∃ f, fuel = f + 1 := ⟨fuel - 1, by omega⟩
      have hle : r ≤ maxBlockOrder := by omega
      rw [findOrder, if_pos (by omega), headAt_eq s hle]
      simp only [Option.bind_eq_bind, Option.bind_some]
      by_cases hhead : s.freeBlocksList r = 0
      · obtain ⟨k, hrun, hrk, hk, hempty, hne⟩ :=
          ih fuel (r := r + 1) (by omega) (by omega) (by omega)
        refine ⟨k, ?_, by omega, hk, ?_, hne⟩
        · rw [if_pos hhead]
          exact hrun
        · intro j hj hjk
          rcases Nat.eq_or_lt_of_le hj with rfl | hlt
          · exact (h.head_eq_zero_iff hle).mp hhead
          · exact hempty j hlt hjk
      · rw [if_neg hhead]
        refine ⟨r, rfl, Nat.le_refl r, hr, ?_, fun _ => hhead⟩
        intro j hj hjr
        omega

/-- After a split in which the halves' list was empty, the lower half is its
head. -/
theorem head_after_split {s' : State} (hb : b ∈ H.free) (h0 : 0 < b.order)
    (h : Rep s' (H.split b hb h0) o)
    (hempty : ∀ t ∈ H.free, t.order ≠ b.order - 1) :
    s'.freeBlocksList (b.order - 1) = addr b.left := by
  have hk1 : b.order - 1 ≤ maxBlockOrder :=
    Nat.le_trans (Nat.sub_le _ _) (H.order_le b (Tiling.mem_free.mp hb).1)
  have hmem : addr b.left ∈ freeAddrs (H.split b hb h0) (b.order - 1) := by
    rw [freeAddrs_split, if_pos rfl]
    simp
  have hne : s'.freeBlocksList (b.order - 1) ≠ 0 := fun hzero => by
    rw [(h.lists.head_eq_zero_iff hk1).mp hzero] at hmem
    simp at hmem
  obtain ⟨hhead, hmin⟩ := h.lists.head_mem hk1 hne
  have hle := hmin _ hmem
  rw [freeAddrs_split, if_pos rfl, Finset.mem_insert, Finset.mem_insert,
    mem_freeAddrs] at hhead
  rcases hhead with heq | heq | ⟨t, ht, htk, -⟩
  · rw [addr_right h0] at heq
    rw [addr_left h0] at hle
    have hge := blockSizeByOrder_ge (b.order - 1)
    omega
  · exact heq
  · exact absurd htk (hempty t ht)

/-- The quantity the second loop compares with the request. -/
theorem Rep.half_usable (h : Rep s H o) (hb : b ∈ H.tiles) (h0 : 0 < b.order) :
    sub64 (add64 (getSize s.mem (addr b)) sizeofMetaData / 2) sizeofMetaData =
      usable (b.order - 1) := by
  have hk := H.order_le b hb
  rw [half_eq hk h0 (h.size_eq b hb)]
  exact sub64_blockSizeByOrder (Nat.le_trans (Nat.sub_le _ _) hk)

/-- What the test of the second loop reads at the head of a list. -/
theorem Rep.halfSize_eq (h : Rep s H o) (hb : b ∈ H.tiles) (h0 : 0 < b.order)
    (hhead : s.freeBlocksList b.order = addr b) :
    halfSize s b.order = usable (b.order - 1) := by
  rw [halfSize, hhead, h.half_usable hb h0]

/-- The second loop splits down to the required order, one order a round. -/
theorem exists_splitRounds {size r : ℕ} (hfits : Fits size r)
    (h : Rep s H o) (hb : b ∈ H.free) (hr : r ≤ b.order)
    (hhead : s.freeBlocksList b.order = addr b)
    (hfirst : ∀ t ∈ H.free, r ≤ t.order → b.order ≤ t.order) :
    ∃ s' H' b', SplitRounds size s b.order (b.order - r) s' ∧
      Rep s' H' o ∧ Tiling.SplitsTo H b H' b' ∧ b'.order = r ∧
      s'.freeBlocksList r = addr b' ∧ Touches (freeStarts H') s s' := by
  obtain ⟨n, hn⟩ : ∃ n, b.order - r = n := ⟨_, rfl⟩
  rw [hn]
  induction n generalizing s H b with
  | zero =>
      have heq : b.order = r := by omega
      have hbt := (Tiling.mem_free.mp hb).1
      refine ⟨s, H, b, SplitRounds.stop ?_ ?_, h, Tiling.SplitsTo.refl H b, heq,
        heq ▸ hhead, Touches.refl _ s⟩
      · intro _
        rw [hhead]
        exact (h.slot hbt).ne_zero
      · intro h0
        rw [h.halfSize_eq hbt h0 hhead, ← Nat.not_le, hfits.le_usable_iff]
        omega
  | succ n ih =>
      have h0 : 0 < b.order := by omega
      have hbt := (Tiling.mem_free.mp hb).1
      have hsmall : size ≤ halfSize s b.order := by
        rw [h.halfSize_eq hbt h0 hhead, hfits.le_usable_iff]
        omega
      obtain ⟨s₁, hrun, hrep₁, htouch₁⟩ := splitStep_eq h hb h0 hhead
      have hhead₁ := head_after_split hb h0 hrep₁ (by
        intro t ht hto
        have := hfirst t ht (by omega)
        omega)
      obtain ⟨s₂, H₂, b₂, hrounds, hrep₂, hsplits, horder, hhead₂, htouch₂⟩ :=
        ih hrep₁ (Tiling.left_mem_free_split hb h0)
          (by simp; omega) (by simpa using hhead₁)
          (by
            intro t ht hrt
            rw [Tiling.free_split, Finset.mem_insert, Finset.mem_insert,
              Finset.mem_erase] at ht
            rcases ht with rfl | rfl | ⟨-, ht⟩
            · exact Nat.le_refl _
            · exact Nat.le_refl _
            · have := hfirst t ht hrt
              simp only [Block.left_order]
              omega)
          (by simp; omega)
      refine ⟨s₂, H₂, b₂, ?_, hrep₂, Tiling.SplitsTo.step hb h0 hsplits, horder,
        hhead₂, (htouch₁.mono (freeStarts_subset_of_splitsTo hsplits)).trans
          htouch₂⟩
      have hne : s.freeBlocksList b.order ≠ 0 := by
        rw [hhead]
        exact (h.slot hbt).ne_zero
      rw [Block.left_order] at hrounds
      obtain ⟨k, hk⟩ : ∃ k, b.order = k + 1 := ⟨b.order - 1, by omega⟩
      rw [hk] at hrun hsmall hne hrounds ⊢
      exact SplitRounds.round hne hsmall hrun hrounds

/-! ## `splitBlockBuddy` -/

/-- What a successful `splitBlockBuddy` does to the tiling: `big` is the first
block of the first nonempty list, and `b` is its lowest part of order `r`. -/
structure Carves (H : Tiling root maxBlockOrder) (r : ℕ)
    (H' : Tiling root maxBlockOrder) (big b : Block) : Prop where
  big_free : big ∈ H.free
  big_order : ∀ t ∈ H.free, r ≤ t.order → big.order ≤ t.order
  big_first : ∀ t ∈ H.free, t.order = big.order → addr big ≤ addr t
  splits : ∃ (H₁ : Tiling root maxBlockOrder) (hb : b ∈ H₁.tiles),
    Tiling.SplitsTo H big H₁ b ∧ H' = H₁.take b hb
  order_eq : b.order = r

namespace Carves

variable {H' : Tiling root maxBlockOrder} {big : Block} {r : ℕ}

theorem used_eq (h : Carves H r H' big b) : H'.used = insert b H.used := by
  obtain ⟨H₁, hb, hsplits, rfl⟩ := h.splits
  rw [Tiling.take_used, hsplits.used_eq]

theorem mem_tiles (h : Carves H r H' big b) : b ∈ H'.tiles :=
  H'.used_subset (by rw [h.used_eq]; exact Finset.mem_insert_self _ _)

theorem within (h : Carves H r H' big b) : b.Within big := by
  obtain ⟨H₁, hb, hsplits, -⟩ := h.splits
  exact hsplits.within

theorem not_mem_used (h : Carves H r H' big b) : b ∉ H.used := by
  intro hmem
  have heq := H.eq_of_within (H.used_subset hmem)
    (Tiling.mem_free.mp h.big_free).1 h.within
  exact (Tiling.mem_free.mp h.big_free).2 (heq ▸ hmem)

theorem coalesced (h : Carves H r H' big b) (hc : H.Coalesced) :
    H'.Coalesced := by
  obtain ⟨H₁, hb, hsplits, rfl⟩ := h.splits
  exact (hsplits.coalescedExcept (hc.except big)).take hb

end Carves

/-- How the two loops of `splitBlockBuddy` came to the block: the first one ends
at the order of `big`, which heads its list, and after the rounds of the second
one `b` heads the list of the required order. -/
structure LoopsTo (s : State) (size r : ℕ) (big b : Block) : Prop where
  found : findOrder s loopBound r = some (big.order : ℤ)
  head : s.freeBlocksList big.order = addr big
  rounds : ∃ s₁, SplitRounds size s big.order (big.order - r) s₁ ∧
    s₁.freeBlocksList r = addr b

theorem freeStarts_subset_insert_take (hbt : b ∈ H.tiles) :
    freeStarts H ⊆ insert (addr b) (freeStarts (H.take b hbt)) := by
  rintro a ⟨t, ht, rfl⟩
  by_cases htb : t = b
  · exact Or.inl (congrArg addr htb)
  · refine Or.inr ⟨t, ?_, rfl⟩
    rw [Tiling.free_take]
    exact Finset.mem_coe.mpr (Finset.mem_erase.mpr ⟨htb, ht⟩)

/-- Taking the head of a list: it leaves the list and its flag is cleared. -/
theorem takeHead_eq (h : Rep s H o) (hb : b ∈ H.free)
    (hhead : s.freeBlocksList b.order = addr b) :
    ∃ m heads,
      s.removeFirstAt b.order =
        some ({ s with mem := m, freeBlocksList := heads }, addr b) ∧
      Rep { s with
          mem := setIsFree m (addr b) false, freeBlocksList := heads }
        (H.take b (Tiling.mem_free.mp hb).1) o ∧
      Touches (freeStarts H) s { s with
        mem := setIsFree m (addr b) false, freeBlocksList := heads } := by
  have hbt := (Tiling.mem_free.mp hb).1
  have hbd := addr_dvd b
  have hk := H.order_le b hbt
  obtain ⟨m, heads, hrun, hlists, hlinks⟩ :=
    removeFirstAt_eq h.lists hk (by rw [hhead]; exact (h.slot hbt).ne_zero)
  rw [hhead] at hrun hlists
  have hfield (t : Block) := hlinks.size_isFree_eq (addr_dvd t)
  refine ⟨m, heads, hrun, ?_, ⟨?_, rfl, rfl, rfl, rfl⟩⟩
  · apply h.take hbt (hlists.setIsFree hbd false)
    · intro t
      rw [getSize_setIsFree m hbd (addr_dvd t), (hfield t).1]
    · intro t
      rw [isFree_setIsFree m hbd (addr_dvd t), (hfield t).2]
  · have hself : addr b ∈ freeStarts H := ⟨b, hb, rfl⟩
    exact (hlinks.agreeOff_headers (freeAddrs_subset_freeStarts H _)).trans
      (agreeOff_setIsFree m hself false)

/-- `splitBlockBuddy` fails exactly when no free block is large enough, and
otherwise carves the block out of the first one that is. -/
theorem splitBlockBuddy_spec {size r : ℕ} (hfits : Fits size r)
    (hr : r ≤ maxBlockOrder) (h : Rep s H o) :
    ((∀ t ∈ H.free, t.order < r) ∧ splitBlockBuddy s size = some (s, 0)) ∨
    ∃ s' H' big b, splitBlockBuddy s size =
        some (s', addr b + sizeofMetaData) ∧
      Rep s' H' o ∧ Carves H r H' big b ∧
      Touches (insert (addr b) (freeStarts H')) s s' ∧
      LoopsTo s size r big b := by
  obtain ⟨k, hfind, hrk, hk, hempty, hne⟩ :=
    findOrder_eq h.lists loopBound (r := r)
      (by omega) (by rw [loopBound, maxBlockOrder]; omega)
  have hmin : ∀ t ∈ H.free, r ≤ t.order → k ≤ t.order := by
    intro t ht hrt
    by_contra hlt
    have hmem : addr t ∈ freeAddrs H t.order :=
      (mem_freeAddrs H).mpr ⟨t, ht, rfl, rfl⟩
    rw [hempty t.order hrt (by omega)] at hmem
    simp at hmem
  have hreq := getRequiredOrder_eq hr hfits
  rcases Nat.lt_or_ge maxBlockOrder k with hgt | hle
  · left
    refine ⟨?_, ?_⟩
    · intro t ht
      by_contra hge
      have := hmin t ht (by omega)
      have := H.order_le t (Tiling.mem_free.mp ht).1
      omega
    · simp only [splitBlockBuddy, hreq, hfind, Option.bind_eq_bind,
        Option.bind_some]
      rw [if_pos (by omega)]
  · right
    obtain ⟨hhead, hlow⟩ := h.lists.head_mem hle (hne hle)
    obtain ⟨big, hbig, hbigk, hbigaddr⟩ := (mem_freeAddrs H).mp hhead
    subst hbigk
    obtain ⟨s₁, H₁, b, hrounds, hrep₁, hsplits, horder, hhead₁, htouch₁⟩ :=
      exists_splitRounds hfits h hbig hrk hbigaddr.symm hmin
    have hfuel : big.order - r < loopBound := by
      rw [maxBlockOrder] at hle
      rw [loopBound]
      omega
    have hloop := hrounds.splitLoop_eq hle hfuel
    subst horder
    have hb := hsplits.mem_free hbig
    have hbt := (Tiling.mem_free.mp hb).1
    have hb0 := (hrep₁.slot hbt).ne_zero
    obtain ⟨m₂, heads₂, hrun₂, hrep₂, htouch₂⟩ := takeHead_eq hrep₁ hb hhead₁
    have hsub := freeStarts_subset_insert_take hbt
    refine ⟨_, _, big, b, ?_, hrep₂, ⟨hbig, hmin, ?_, ⟨H₁, hbt, hsplits, rfl⟩,
      rfl⟩, ?_, ⟨hfind, hbigaddr.symm, s₁, hrounds, hhead₁⟩⟩
    · simp only [splitBlockBuddy, hreq, hfind, Option.bind_eq_bind,
        Option.bind_some, hloop, hrun₂, deref, if_neg hb0]
      rw [if_neg (by omega)]
    · intro t ht hto
      rw [hbigaddr]
      exact hlow _ ((mem_freeAddrs H).mpr ⟨t, ht, hto, rfl⟩)
    · exact (htouch₁.mono hsub).trans (htouch₂.mono hsub)

/-- The same without the loops. -/
theorem splitBlockBuddy_eq {size r : ℕ} (hfits : Fits size r)
    (hr : r ≤ maxBlockOrder) (h : Rep s H o) :
    ((∀ t ∈ H.free, t.order < r) ∧ splitBlockBuddy s size = some (s, 0)) ∨
    ∃ s' H' big b, splitBlockBuddy s size =
        some (s', addr b + sizeofMetaData) ∧
      Rep s' H' o ∧ Carves H r H' big b ∧
      Touches (insert (addr b) (freeStarts H')) s s' := by
  rcases splitBlockBuddy_spec hfits hr h with
    hnone | ⟨s', H', big, b, hrun, hrep, hcarves, htouch, -⟩
  · exact Or.inl hnone
  · exact Or.inr ⟨s', H', big, b, hrun, hrep, hcarves, htouch⟩

end OsCoursework.Allocator
