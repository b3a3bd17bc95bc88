import OsCoursework.Allocator.FreeList
import OsCoursework.Allocator.Geometry

/-!
# The heap a state represents

`Rep s H o` relates an allocator state to an abstract buddy tiling `H`: every
tile has its header in memory, the free tiles of order `k` are exactly the
members of `freeBlocksList[k]`, and the three counters are those of the tiles
plus what `o` accounts for outside the heap.

The eleven lists are first treated on their own, as a family `F` of sets of
addresses, because the allocator passes through states in which a block has
left one list and not yet entered the next.
-/

namespace OsCoursework.Allocator

open OsCoursework.Bytes
open OsCoursework.Dyadic

/-! ## The family of free lists -/

/-- The list of each order `k` has exactly the members `F k`, and no address is
in two lists. -/
structure Lists (m : Mem) (heads : ℕ → ℕ) (F : ℕ → Finset ℕ) : Prop where
  list : ∀ k ≤ maxBlockOrder, ∃ l, FreeList m (heads k) l ∧ ∀ a, a ∈ l ↔ a ∈ F k
  disjoint : ∀ j ≤ maxBlockOrder, ∀ k ≤ maxBlockOrder, ∀ a,
    a ∈ F j → a ∈ F k → j = k

namespace Lists

variable {m m' : Mem} {heads : ℕ → ℕ} {F : ℕ → Finset ℕ}

theorem slot (h : Lists m heads F) {k a : ℕ} (hk : k ≤ maxBlockOrder)
    (ha : a ∈ F k) : Slot a := by
  obtain ⟨l, hl, hmem⟩ := h.list k hk
  exact hl.slot a ((hmem a).mpr ha)

theorem head_eq_zero_iff (h : Lists m heads F) {k : ℕ}
    (hk : k ≤ maxBlockOrder) : heads k = 0 ↔ F k = ∅ := by
  obtain ⟨l, hl, hmem⟩ := h.list k hk
  rw [hl.head_eq_zero_iff, Finset.eq_empty_iff_forall_notMem,
    List.eq_nil_iff_forall_not_mem]
  simp only [hmem]

/-- The head of a nonempty list is its least member. -/
theorem head_mem (h : Lists m heads F) {k : ℕ} (hk : k ≤ maxBlockOrder)
    (hne : heads k ≠ 0) :
    heads k ∈ F k ∧ ∀ a ∈ F k, heads k ≤ a := by
  obtain ⟨l, hl, hmem⟩ := h.list k hk
  cases l with
  | nil => exact absurd (hl.head_eq_zero_iff.mpr rfl) hne
  | cons a l =>
      have hhead : heads k = a := hl.head_eq
      rw [hhead]
      refine ⟨(hmem a).mp (by simp), ?_⟩
      intro c hc
      rcases List.mem_cons.mp ((hmem c).mpr hc) with rfl | hc
      · exact Nat.le_refl _
      · exact Nat.le_of_lt ((List.pairwise_cons.mp hl.sorted).1 c hc)

theorem congr (h : Lists m heads F)
    (hnext : ∀ k ≤ maxBlockOrder, ∀ a ∈ F k, getNext m' a = getNext m a)
    (hprev : ∀ k ≤ maxBlockOrder, ∀ a ∈ F k, getPrev m' a = getPrev m a) :
    Lists m' heads F := by
  refine ⟨?_, h.disjoint⟩
  intro k hk
  obtain ⟨l, hl, hmem⟩ := h.list k hk
  refine ⟨l, hl.congr ?_ ?_, hmem⟩
  · intro a ha
    exact hnext k hk a ((hmem a).mp ha)
  · intro a ha
    exact hprev k hk a ((hmem a).mp ha)

theorem setSize (h : Lists m heads F) {a : ℕ} (ha : 32 ∣ a) (v : ℕ) :
    Lists (setSize m a v) heads F := by
  refine h.congr ?_ ?_
  · intro k hk c hc
    exact getNext_setSize m ha (h.slot hk hc).dvd
  · intro k hk c hc
    exact getPrev_setSize m ha (h.slot hk hc).dvd

theorem setIsFree (h : Lists m heads F) {a : ℕ} (ha : 32 ∣ a) (f : Bool) :
    Lists (setIsFree m a f) heads F := by
  refine h.congr ?_ ?_
  · intro k hk c hc
    exact getNext_setIsFree m ha (h.slot hk hc).dvd f
  · intro k hk c hc
    exact getPrev_setIsFree m ha (h.slot hk hc).dvd f

theorem congr_sets {G : ℕ → Finset ℕ} (h : Lists m heads F)
    (hFG : ∀ k ≤ maxBlockOrder, F k = G k) : Lists m heads G := by
  refine ⟨?_, ?_⟩
  · intro k hk
    rw [← hFG k hk]
    exact h.list k hk
  · intro j hj k hk a ha ha'
    rw [← hFG j hj] at ha
    rw [← hFG k hk] at ha'
    exact h.disjoint j hj k hk a ha ha'

/-- Replacing one list, with only links of that list written. -/
theorem update (h : Lists m heads F) {k head : ℕ} (hk : k ≤ maxBlockOrder)
    {S : Finset ℕ} {l : List ℕ} {W : Set ℕ}
    (hlist : FreeList m' head l) (hmem : ∀ a, a ∈ l ↔ a ∈ S)
    (hlinks : Relinks W m m')
    (hW : ∀ j ≤ maxBlockOrder, j ≠ k → ∀ a ∈ F j, a ∉ W ∧ a ∉ S) :
    Lists m' (Function.update heads k head) (Function.update F k S) := by
  refine ⟨?_, ?_⟩
  · intro j hj
    by_cases hjk : j = k
    · subst hjk
      rw [Function.update_self, Function.update_self]
      exact ⟨l, hlist, hmem⟩
    · rw [Function.update_of_ne hjk, Function.update_of_ne hjk]
      obtain ⟨l', hl', hmem'⟩ := h.list j hj
      refine ⟨l', hl'.congr_of_agreeOff (hlinks.agreeOff_headers Set.Subset.rfl)
        hlinks.dvd ?_, hmem'⟩
      intro a ha
      exact (hW j hj hjk a ((hmem' a).mp ha)).1
  · intro i hi j hj a hai haj
    by_cases hik : i = k
    · by_cases hjk : j = k
      · rw [hik, hjk]
      · rw [hik, Function.update_self] at hai
        rw [Function.update_of_ne hjk] at haj
        exact absurd hai (hW j hj hjk a haj).2
    · rw [Function.update_of_ne hik] at hai
      by_cases hjk : j = k
      · rw [hjk, Function.update_self] at haj
        exact absurd haj (hW i hi hik a hai).2
      · rw [Function.update_of_ne hjk] at haj
        exact h.disjoint i hi j hj a hai haj

end Lists

theorem headAt_eq (s : State) {k : ℕ} (hk : k ≤ maxBlockOrder) :
    s.headAt (k : ℤ) = some (s.freeBlocksList k) := by
  simp [State.headAt, hk]

/-! ## The list operations on a state -/

section Operations

variable {s : State} {F : ℕ → Finset ℕ} {k a : ℕ}

theorem insertAt_eq (h : Lists s.mem s.freeBlocksList F)
    (hk : k ≤ maxBlockOrder) (ha : Slot a)
    (hnot : ∀ j ≤ maxBlockOrder, a ∉ F j) :
    ∃ m heads, s.insertAt (k : ℤ) a =
        some { s with mem := m, freeBlocksList := heads } ∧
      Lists m heads (Function.update F k (insert a (F k))) ∧
      Relinks (insert a (F k)) s.mem m := by
  obtain ⟨l, hl, hmem⟩ := h.list k hk
  have hal : a ∉ l := fun hal => hnot k hk ((hmem a).mp hal)
  obtain ⟨m, head, A, B, hAB, hrun, hlist, hagree⟩ := hl.insertBlock_eq ha hal
  have hset : {c | c = a ∨ c ∈ l} = (insert a (F k) : Set ℕ) := by
    ext c
    simp [hmem]
  rw [hset] at hagree
  have hlinks : Relinks (insert a (F k)) s.mem m := by
    refine ⟨hagree, ?_⟩
    rintro c (rfl | hc)
    · exact ha.dvd
    · exact (h.slot hk hc).dvd
  refine ⟨m, Function.update s.freeBlocksList k head, ?_,
    h.update hk hlist ?_ hlinks ?_, hlinks⟩
  · simp [State.insertAt, headAt_eq s hk, hrun, State.setList]
  · intro c
    have hc : c ∈ A ∨ c ∈ B ↔ c ∈ F k := by
      rw [← List.mem_append, ← hAB, hmem]
    simp only [List.mem_append, List.mem_cons, Finset.mem_insert, ← hc]
    tauto
  · intro j hj hjk c hc
    have hca : c ≠ a := fun heq => hnot j hj (heq ▸ hc)
    have hck : c ∉ F k := fun hck => hjk (h.disjoint j hj k hk c hc hck)
    constructor
    · rintro (heq | hmem)
      · exact hca heq
      · exact hck hmem
    · rw [Finset.mem_insert]
      tauto

theorem removeBlockAt_eq (h : Lists s.mem s.freeBlocksList F)
    (hk : k ≤ maxBlockOrder) (ha : a ∈ F k) :
    ∃ m heads, s.removeBlockAt (k : ℤ) a =
        some { s with mem := m, freeBlocksList := heads } ∧
      Lists m heads (Function.update F k ((F k).erase a)) ∧
      Relinks (F k) s.mem m := by
  obtain ⟨l, hl, hmem⟩ := h.list k hk
  obtain ⟨A, B, rfl⟩ := List.append_of_mem ((hmem a).mpr ha)
  obtain ⟨m, head, hrun, hlist, hagree⟩ := hl.removeBlock_eq
  have hset : {c | c ∈ A ++ a :: B} = (F k : Set ℕ) := by
    ext c
    exact hmem c
  rw [hset] at hagree
  have hlinks : Relinks (F k) s.mem m :=
    ⟨hagree, fun c hc => (h.slot hk hc).dvd⟩
  refine ⟨m, Function.update s.freeBlocksList k head, ?_,
    h.update hk hlist ?_ hlinks ?_, hlinks⟩
  · simp [State.removeBlockAt, headAt_eq s hk, hrun, State.setList]
  · intro c
    rw [Finset.mem_erase, ← hmem c]
    constructor
    · intro hc
      refine ⟨hl.ne_of_mem_around hc, ?_⟩
      simp only [List.mem_append, List.mem_cons] at hc ⊢
      tauto
    · rintro ⟨hca, hc⟩
      simp only [List.mem_append, List.mem_cons] at hc ⊢
      tauto
  · intro j hj hjk c hc
    have hck : c ∉ F k := fun hck => hjk (h.disjoint j hj k hk c hc hck)
    exact ⟨hck, fun hmem => hck (Finset.mem_of_mem_erase hmem)⟩

theorem removeFirstAt_eq (h : Lists s.mem s.freeBlocksList F)
    (hk : k ≤ maxBlockOrder) (hne : s.freeBlocksList k ≠ 0) :
    ∃ m heads, s.removeFirstAt (k : ℤ) =
        some ({ s with mem := m, freeBlocksList := heads },
          s.freeBlocksList k) ∧
      Lists m heads
        (Function.update F k ((F k).erase (s.freeBlocksList k))) ∧
      Relinks (F k) s.mem m := by
  have hmem := (h.head_mem hk hne).1
  obtain ⟨m, heads, hrun, hlists, hlinks⟩ := removeBlockAt_eq h hk hmem
  refine ⟨m, heads, ?_, hlists, hlinks⟩
  simp only [State.removeBlockAt, headAt_eq s hk, removeBlock, if_neg hne,
    if_true, Option.bind_eq_bind, Option.bind_some, Option.some.injEq] at hrun
  have hblock : (removeFirst s.mem (s.freeBlocksList k)).2.2 =
      s.freeBlocksList k := by
    simp [removeFirst, hne]
  simp only [State.removeFirstAt, headAt_eq s hk, Option.bind_eq_bind,
    Option.bind_some, hrun, hblock]

end Operations

/-! ## What a step of the allocator may touch -/

/-- From `s` to `s'` at most the bytes in `W`, the list heads and the counters
have changed. -/
structure Changes (W : Set ℕ) (s s' : State) : Prop where
  agree : AgreeOff W s.mem s'.mem
  initialized : s'.initialized = s.initialized
  heapBaseAligned : s'.heapBaseAligned = s.heapBaseAligned
  brk : s'.brk = s.brk
  mapped : s'.mapped = s.mapped

namespace Changes

variable {V W : Set ℕ} {s s₁ s₂ s₃ : State}

theorem refl (W : Set ℕ) (s : State) : Changes W s s :=
  ⟨AgreeOff.refl _ _, rfl, rfl, rfl, rfl⟩

theorem mono (h : Changes V s₁ s₂) (hVW : V ⊆ W) : Changes W s₁ s₂ :=
  { h with agree := h.agree.mono hVW }

theorem trans (h : Changes W s₁ s₂) (h' : Changes W s₂ s₃) :
    Changes W s₁ s₃ :=
  ⟨h.agree.trans h'.agree, h'.initialized.trans h.initialized,
    h'.heapBaseAligned.trans h.heapBaseAligned, h'.brk.trans h.brk,
    h'.mapped.trans h.mapped⟩

end Changes

/-- From `s` to `s'` at most the headers at the addresses `S`, the list heads
and the counters have changed. -/
abbrev Touches (S : Set ℕ) (s s' : State) : Prop :=
  Changes (headerBytes S) s s'

namespace Touches

variable {S T : Set ℕ} {s s₁ s₂ : State}

theorem refl (S : Set ℕ) (s : State) : Touches S s s :=
  Changes.refl _ s

theorem mono (h : Touches S s₁ s₂) (hST : S ⊆ T) : Touches T s₁ s₂ :=
  Changes.mono h (headerBytes_mono hST)

end Touches

/-! ## The representation relation -/

/-- Blocks and bytes the counters hold besides those of the heap's tiles. -/
structure Outside where
  blocks : UInt64
  bytes : UInt64

variable {root : Block}

/-- The state holds the tiling `H` of the heap at `root`. -/
structure Rep (s : State) (H : Tiling root maxBlockOrder) (o : Outside) :
    Prop where
  heapRoot : HeapRoot root
  base_eq : s.heapBaseAligned = addr root
  size_eq : ∀ b ∈ H.tiles, getSize s.mem (addr b) = usable b.order
  isFree_eq : ∀ b ∈ H.tiles, isFree s.mem (addr b) = decide (b ∉ H.used)
  lists : Lists s.mem s.freeBlocksList (freeAddrs H)
  blocks_eq : s.allocatedBlocks = o.blocks + UInt64.ofNat H.tiles.card
  bytes_eq : s.allocatedBytes =
    o.bytes + UInt64.ofNat (∑ b ∈ H.tiles, usable b.order)
  meta_eq : s.metadataBytes = 32 * s.allocatedBlocks

namespace Rep

variable {s : State} {H : Tiling root maxBlockOrder} {o : Outside}

theorem slot (h : Rep s H o) {b : Block} (hb : b ∈ H.tiles) : Slot (addr b) :=
  tile_slot H h.heapRoot hb

theorem isFree_of_free (h : Rep s H o) {b : Block} (hb : b ∈ H.free) :
    isFree s.mem (addr b) = true := by
  obtain ⟨htile, hnot⟩ := Tiling.mem_free.mp hb
  rw [h.isFree_eq b htile]
  exact decide_eq_true hnot

theorem isFree_of_used (h : Rep s H o) {b : Block} (hb : b ∈ H.used) :
    isFree s.mem (addr b) = false := by
  rw [h.isFree_eq b (H.used_subset hb)]
  exact decide_eq_false (not_not.mpr hb)

theorem getBlockOrder_eq (h : Rep s H o) {b : Block} (hb : b ∈ H.tiles) :
    getBlockOrder s.mem (addr b) = b.order :=
  Allocator.getBlockOrder_eq (H.order_le b hb) (h.size_eq b hb)

/-- Setting the flag of a block keeps its order. -/
theorem getBlockOrder_setIsFree (h : Rep s H o) {b : Block} (hb : b ∈ H.tiles)
    (f : Bool) : getBlockOrder (setIsFree s.mem (addr b) f) (addr b) = b.order := by
  apply Allocator.getBlockOrder_eq (H.order_le b hb)
  rw [getSize_setIsFree _ (addr_dvd b) (addr_dvd b), h.size_eq b hb]

theorem findBuddy_eq (h : Rep s H o) {b : Block} (hb : b ∈ H.tiles) :
    findBuddy s.mem (addr b) = addr b.buddy :=
  Allocator.findBuddy_eq (H.order_le b hb) (h.size_eq b hb)

/-- The header at the buddy of a block around a tile tells whether that buddy
is a free tile. -/
theorem header_at_buddy_iff (h : Rep s H o) {b d : Block} (hb : b ∈ H.tiles)
    (hbd : b.Within d) (horder : d.order < maxBlockOrder) :
    (getSize s.mem (addr d.buddy) = usable d.order ∧
        isFree s.mem (addr d.buddy) = true) ↔ d.buddy ∈ H.free := by
  obtain ⟨c, hc, hfirst, hle⟩ := H.exists_tile_at_buddy hb hbd horder
  have haddr : addr d.buddy = addr c := by rw [addr, addr, hfirst]
  rw [haddr, h.size_eq c hc, h.isFree_eq c hc]
  constructor
  · rintro ⟨hsize, hfree⟩
    have heq : c = d.buddy :=
      Block.eq_of_order_of_contains (usable_injective hsize)
        c.contains_first (hfirst ▸ d.buddy.contains_first)
    rw [← heq]
    exact Tiling.mem_free.mpr ⟨hc, of_decide_eq_true hfree⟩
  · intro hmem
    obtain ⟨htile, hnot⟩ := Tiling.mem_free.mp hmem
    obtain rfl := H.eq_of_first hc htile hfirst
    exact ⟨by rw [Block.buddy_order], decide_eq_true hnot⟩

/-- The test the code makes on a buddy's header decides whether the buddy is a
free tile of the same order. -/
theorem buddy_test_iff (h : Rep s H o) {b : Block} (hb : b ∈ H.tiles)
    (horder : b.order < maxBlockOrder) :
    (isFree s.mem (addr b.buddy) = true ∧
        getSize s.mem (addr b) = getSize s.mem (addr b.buddy)) ↔
      b.buddy ∈ H.free := by
  rw [← h.header_at_buddy_iff hb (Block.Within.refl b) horder, h.size_eq b hb,
    and_comm, eq_comm]

theorem buddy_ne_zero (h : Rep s H o) {b : Block} (hb : b ∈ H.tiles)
    (horder : b.order < maxBlockOrder) : addr b.buddy ≠ 0 := by
  obtain ⟨c, hc, hfirst, -⟩ :=
    H.exists_tile_at_buddy hb (Block.Within.refl b) horder
  have haddr : addr b.buddy = addr c := by rw [addr, addr, hfirst]
  rw [haddr]
  exact (h.slot hc).ne_zero

end Rep

/-! ## The tiling without the counters -/

/-- The state holds the tiling `H`, whatever its counters are. -/
structure Heap (s : State) (H : Tiling root maxBlockOrder) : Prop where
  heapRoot : HeapRoot root
  base_eq : s.heapBaseAligned = addr root
  size_eq : ∀ b ∈ H.tiles, getSize s.mem (addr b) = usable b.order
  isFree_eq : ∀ b ∈ H.tiles, isFree s.mem (addr b) = decide (b ∉ H.used)
  lists : Lists s.mem s.freeBlocksList (freeAddrs H)

section Heap

variable {s : State} {H : Tiling root maxBlockOrder} {o : Outside}

theorem Rep.heap (h : Rep s H o) : Heap s H :=
  ⟨h.heapRoot, h.base_eq, h.size_eq, h.isFree_eq, h.lists⟩

/-- What memory holds does not depend on the counters: they may be set to what the
tiles account for. -/
theorem Heap.rep (h : Heap s H) :
    Rep { s with metadataBytes := 32 * s.allocatedBlocks } H
      ⟨s.allocatedBlocks - UInt64.ofNat H.tiles.card,
        s.allocatedBytes - UInt64.ofNat (∑ b ∈ H.tiles, usable b.order)⟩ := by
  refine ⟨h.heapRoot, h.base_eq, h.size_eq, h.isFree_eq, h.lists, ?_, ?_, rfl⟩
  · change s.allocatedBlocks = _
    grind
  · change s.allocatedBytes = _
    grind

end Heap

/-! ## Taking and releasing a tile -/

section TakeRelease

variable {s : State} {H : Tiling root maxBlockOrder} {o : Outside} {b : Block}

theorem freeAddrs_take (hb : b ∈ H.tiles) (k : ℕ) :
    freeAddrs (H.take b hb) k =
      if k = b.order then (freeAddrs H k).erase (addr b)
      else freeAddrs H k := by
  rw [freeAddrs_eq, Tiling.free_take, addrsOf_erase]
  rfl

theorem freeAddrs_release (hb : b ∈ H.used) (k : ℕ) :
    freeAddrs (H.release b) k =
      if k = b.order then insert (addr b) (freeAddrs H k)
      else freeAddrs H k := by
  rw [freeAddrs_eq, Tiling.free_release H hb, addrsOf_insert]
  rfl

/-- A free tile becomes used once it has left its list and its flag is
cleared. -/
theorem Rep.take (h : Rep s H o) (hb : b ∈ H.tiles) {m : Mem} {heads : ℕ → ℕ}
    (hlists : Lists m heads (Function.update (freeAddrs H) b.order
      ((freeAddrs H b.order).erase (addr b))))
    (hsize : ∀ t : Block, getSize m (addr t) = getSize s.mem (addr t))
    (hfree : ∀ t : Block, isFree m (addr t) =
      if addr t = addr b then false else isFree s.mem (addr t)) :
    Rep { s with mem := m, freeBlocksList := heads } (H.take b hb) o := by
  refine ⟨h.heapRoot, h.base_eq, ?_, ?_, hlists.congr_sets ?_, h.blocks_eq,
    h.bytes_eq, h.meta_eq⟩
  · intro t ht
    exact (hsize t).trans (h.size_eq t ht)
  · intro t ht
    change isFree m (addr t) = _
    rw [hfree, Tiling.take_used]
    by_cases htb : t = b
    · simp [htb]
    · have hne : addr t ≠ addr b := fun heq => htb (tile_addr_inj H ht hb heq)
      rw [if_neg hne, h.isFree_eq t ht]
      simp [htb]
  · intro k _
    rw [freeAddrs_take]
    split
    · next hk => rw [hk, Function.update_self]
    · next hk => rw [Function.update_of_ne hk]

/-- A used tile becomes free once its flag is set and it is in its list. -/
theorem Rep.release (h : Rep s H o) (hb : b ∈ H.used) {m : Mem}
    {heads : ℕ → ℕ}
    (hlists : Lists m heads (Function.update (freeAddrs H) b.order
      (insert (addr b) (freeAddrs H b.order))))
    (hsize : ∀ t : Block, getSize m (addr t) = getSize s.mem (addr t))
    (hfree : ∀ t : Block, isFree m (addr t) =
      if addr t = addr b then true else isFree s.mem (addr t)) :
    Rep { s with mem := m, freeBlocksList := heads } (H.release b) o := by
  refine ⟨h.heapRoot, h.base_eq, ?_, ?_, hlists.congr_sets ?_, h.blocks_eq,
    h.bytes_eq, h.meta_eq⟩
  · intro t ht
    exact (hsize t).trans (h.size_eq t ht)
  · intro t ht
    change isFree m (addr t) = _
    rw [hfree, Tiling.release_used]
    by_cases htb : t = b
    · simp [htb]
    · have hne : addr t ≠ addr b := fun heq =>
        htb (tile_addr_inj H ht (H.used_subset hb) heq)
      rw [if_neg hne, h.isFree_eq t ht]
      simp [htb]
  · intro k _
    rw [freeAddrs_release hb]
    split
    · next hk => rw [hk, Function.update_self]
    · next hk => rw [Function.update_of_ne hk]

end TakeRelease

end OsCoursework.Allocator
