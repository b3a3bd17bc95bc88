import OsCoursework.FirstFit.BlockList

/-!
# The interface functions

What `addNewBlock`, `smalloc` and `sfree` do to the block list and to the
counters.  `smalloc` fails, takes the lowest block that fits, or appends one new
block; `sfree` sets one flag.
-/

namespace OsCoursework.FirstFit

open OsCoursework.Bytes
open OsCoursework.LinkedList
open OsCoursework.Allocator (getSize isFree getNext getPrev setSize setIsFree
  setNext setPrev add64 mul64 sizeofMetaData maxAllocationSize loopBound
  addressLimit addressLimit_pos blockBytes payloadBytes headed headed_zero headed_of_ne
  storedLinks Headers add64_of_le_max)

/-! ## Counting -/

section Counting

variable {m m' : Mem} {l : List ℕ} {a : ℕ}

theorem freeOf_congr (h : ∀ b ∈ l, isFree m' b = isFree m b) :
    freeOf m' l = freeOf m l := by
  apply List.filter_congr
  intro b hb
  rw [h b hb]

theorem sizes_congr (h : ∀ b ∈ l, getSize m' b = getSize m b) :
    l.map (getSize m') = l.map (getSize m) :=
  List.map_congr_left h

/-- One more free block counts for one and for its size. -/
theorem freeOf_set (hnodup : l.Nodup) (ha : a ∈ l) (hused : isFree m a = false)
    (hfree : isFree m' a = true)
    (hrest : ∀ b ∈ l, b ≠ a → isFree m' b = isFree m b)
    (hsize : ∀ b ∈ l, getSize m' b = getSize m b) :
    (freeOf m' l).length = (freeOf m l).length + 1 ∧
      ((freeOf m' l).map (getSize m')).sum =
        ((freeOf m l).map (getSize m)).sum + getSize m a := by
  obtain ⟨A, B, rfl⟩ := List.append_of_mem ha
  obtain ⟨-, hB, hAB⟩ := List.nodup_append'.mp hnodup
  have hne {b : ℕ} (hb : b ∈ A ∨ b ∈ B) : b ≠ a := by
    rintro rfl
    rcases hb with hb | hb
    · exact hAB hb (by simp)
    · exact (List.nodup_cons.mp hB).1 hb
  have hA : freeOf m' A = freeOf m A :=
    freeOf_congr fun b hb => hrest b (by simp [hb]) (hne (Or.inl hb))
  have hB' : freeOf m' B = freeOf m B :=
    freeOf_congr fun b hb => hrest b (by simp [hb]) (hne (Or.inr hb))
  have hold : freeOf m (A ++ a :: B) = freeOf m A ++ freeOf m B := by
    rw [freeOf, List.filter_append, List.filter_cons_of_neg (by simp [hused])]
    rfl
  have hnew : freeOf m' (A ++ a :: B) = freeOf m A ++ a :: freeOf m B := by
    rw [freeOf, List.filter_append, List.filter_cons_of_pos (by simp [hfree])]
    exact congrArg₂ (fun C D => C ++ a :: D) hA hB'
  have hmap : (freeOf m A ++ a :: freeOf m B).map (getSize m') =
      (freeOf m A ++ a :: freeOf m B).map (getSize m) := by
    apply sizes_congr
    intro b hb
    refine hsize b ?_
    rw [← hnew] at hb
    exact (List.mem_filter.mp hb).1
  rw [hold, hnew, hmap]
  constructor
  · simp only [List.length_append, List.length_cons]
    omega
  · simp only [List.map_append, List.map_cons, List.sum_append, List.sum_cons]
    omega

end Counting

/-! ## `addNewBlock` -/

/-- The links that `addNewBlock` writes between the last block and the new one. -/
def linkBehind (m : Mem) (last a : ℕ) : Mem :=
  setNext (setPrev (setNext m last a) a last) a 0

section AddNewBlock

variable {s : State} {l : List ℕ} {a : ℕ}

/-- Clearing the `next` link of a new block, which has none, changes nothing. -/
theorem holds_linkBehind {S : Set ℕ} {m : Mem} {last : ℕ} (head : ℕ) (hS : Headers S)
    (hlast : last ∈ S) (ha : a ∈ S) (hne : a ≠ last) (hnext : getNext m a = 0) :
    Allocator.Holds S m (linkBehind m last a) head
      (((storedLinks m head).setPrev a last).setNext last a) := by
  have hholds := (((Allocator.Holds.stored hS m head).setNext hS hlast
    (hS.lt ha)).setPrev hS ha (hS.lt hlast)).setNext hS ha addressLimit_pos
  have hend : (((storedLinks m head).setNext last a).setPrev a last).next a = 0 := by
    rw [Links.setPrev_next, Links.setNext_next, Function.update_of_ne hne]
    exact (headed_of_ne _ _ (hS.ne_zero ha)).trans hnext
  rwa [Links.setNext_eq_self _ hend] at hholds

/-- The last block and the new one lead to each other. -/
theorem addNewBlock_holds
    (hlinked : Linked 0 (headed s.mem s.head) (getPrev s.mem) 0 l)
    (hlength : l.length < loopBound) (hS : Headers {b | b ∈ l ++ [a]}) (hnot : a ∉ l)
    (hnext : getNext s.mem a = 0) (hprev : getPrev s.mem a = 0) :
    ∃ m head, addNewBlock s a = some { s with mem := m, head := head } ∧
      Allocator.Holds {b | b ∈ l ++ [a]} s.mem m head
        (((storedLinks s.mem s.head).setPrev a (endOf 0 l)).setNext (endOf 0 l) a) := by
  have hself : a ∈ l ++ [a] := by simp
  have hhead : s.head = l.headD 0 := by
    rw [← hlinked.next_eq, headed_zero]
  cases l with
  | nil =>
      have hclear : (storedLinks s.mem s.head).setPrev a 0 = storedLinks s.mem s.head :=
        Links.setPrev_eq_self _ hprev
      rw [List.headD_nil] at hhead
      refine ⟨s.mem, a, ?_, ?_⟩
      · rw [addNewBlock, if_pos hhead]
      · rw [endOf_nil, hclear]
        exact (Allocator.Holds.stored hS s.mem s.head).setHead hS a
  | cons y l =>
      rw [List.headD_cons] at hhead
      have hmem {b : ℕ} (hb : b ∈ y :: l) : b ∈ y :: l ++ [a] :=
        List.mem_append_left [a] hb
      have hy0 := hS.ne_zero (hmem (List.mem_cons_self ..))
      have hlast : endOf y l ∈ y :: l := endOf_mem y l
      have hpos : ∀ b ∈ l, 0 < b := fun b hb =>
        hS.pos b (hmem (List.mem_cons_of_mem y hb))
      refine ⟨linkBehind s.mem (endOf y l) a, s.head, ?_, holds_linkBehind s.head hS
        (hmem hlast) hself (ne_of_mem_of_not_mem hlast hnot).symm hnext⟩
      rw [addNewBlock, hhead, if_neg hy0,
        lastBlock_eq hlinked.2.2 hy0 hpos (Nat.lt_of_succ_lt hlength)]
      rfl

/-- The list gains one block at its end; sizes and flags stay. -/
theorem addNewBlock_eq
    (hlinked : Linked 0 (headed s.mem s.head) (getPrev s.mem) 0 l)
    (hlength : l.length < loopBound) (hS : Headers {b | b ∈ l ++ [a]})
    (hnodup : (l ++ [a]).Nodup) (hnext : getNext s.mem a = 0)
    (hprev : getPrev s.mem a = 0) :
    ∃ m head, addNewBlock s a = some { s with mem := m, head := head } ∧
      Linked 0 (headed m head) (getPrev m) 0 (l ++ [a]) ∧
      SameBlocks s.mem m (l ++ [a]) := by
  have hself : a ∈ l ++ [a] := by simp
  have ha0 := hS.ne_zero hself
  have h0 : 0 ∉ l := fun h0 => hS.zero_not_mem (List.mem_append_left [a] h0)
  have hnot : a ∉ l := by
    intro ha
    exact (List.nodup_append'.mp hnodup).2.2 ha (List.mem_singleton_self a)
  obtain ⟨m, head, hrun, hholds⟩ := addNewBlock_holds hlinked hlength hS hnot hnext hprev
  have hclear : (storedLinks s.mem s.head).setNext a 0 = storedLinks s.mem s.head :=
    Links.setNext_eq_self _ ((headed_of_ne _ _ ha0).trans hnext)
  have hlinked' := (storedLinks s.mem s.head).linked_linkIn_end hlinked
    (List.nodup_cons.mpr ⟨h0, (List.nodup_append'.mp hnodup).1⟩) h0
    (by
      rw [List.mem_cons]
      exact not_or.mpr ⟨ha0, hnot⟩) ha0
  rw [Links.linkIn, hclear] at hlinked'
  have hholds' := hholds.updatePrevNull hS a
  exact ⟨m, head, hrun, hholds'.linked hS hlinked' fun b hb => hb,
    fun b hb => hholds.size_isFree_eq hS hb⟩

end AddNewBlock

/-! ## `smalloc` -/

/-- List and counters of a state. -/
structure Holds (s : State) (l : List ℕ) : Prop extends Blocks s l, Counted s l

/-- The state `smalloc` leaves when it reuses the block at `a`. -/
def reuseBlock (s : State) (a : ℕ) : State :=
  { s with
    mem := setIsFree s.mem a false
    freeBlocks := s.freeBlocks - 1
    freeBytes := s.freeBytes - UInt64.ofNat (getSize s.mem a) }

/-- What appending a block of the given size at `a` does. -/
structure Appended (s : State) (l : List ℕ) (a size : ℕ) (s' : State) :
    Prop where
  holds : Holds s' (l ++ [a])
  same : SameBlocks s.mem s'.mem l
  size_eq : getSize s'.mem a = size
  used : isFree s'.mem a = false

section Smalloc

variable {s : State} {l : List ℕ} {a size : ℕ} {env : Env}

/-- Counters of a list that gained a used block. -/
theorem Counted.append {m : Mem} {head : ℕ} {regions : List (ℕ × ℕ)}
    (h : Counted s l) (hsame : SameBlocks s.mem m l) (hsize : getSize m a = size)
    (hused : isFree m a = false) :
    Counted { s with
      mem := m
      head := head
      regions := regions
      totalBlocks := s.totalBlocks + 1
      totalBytes := s.totalBytes + UInt64.ofNat size
      metaDataBytes := s.metaDataBytes + UInt64.ofNat sizeofMetaData }
      (l ++ [a]) := by
  have hfree : freeOf m (l ++ [a]) = freeOf s.mem l := by
    rw [freeOf, List.filter_append, List.filter_cons_of_neg (by simp [hused]),
      List.filter_nil, List.append_nil]
    exact freeOf_congr fun b hb => (hsame b hb).2
  have hsizes := sizes_congr fun b hb => (hsame b hb).1
  have hfreeSizes : (freeOf s.mem l).map (getSize m) =
      (freeOf s.mem l).map (getSize s.mem) :=
    sizes_congr fun b hb => (hsame b (List.mem_filter.mp hb).1).1
  refine ⟨?_, ?_, ?_, ?_, ?_⟩
  · change s.freeBlocks = UInt64.ofNat (freeOf m (l ++ [a])).length
    rw [hfree, h.freeBlocks]
  · change s.freeBytes =
      UInt64.ofNat ((freeOf m (l ++ [a])).map (getSize m)).sum
    rw [hfree, hfreeSizes, h.freeBytes]
  · change s.totalBlocks + 1 = UInt64.ofNat (l ++ [a]).length
    rw [h.totalBlocks, List.length_append, UInt64.ofNat_add]
    rfl
  · change s.totalBytes + UInt64.ofNat size =
      UInt64.ofNat ((l ++ [a]).map (getSize m)).sum
    rw [h.totalBytes, List.map_append, List.sum_append, hsizes, UInt64.ofNat_add,
      List.map_singleton, List.sum_singleton, hsize]
  · change s.metaDataBytes + UInt64.ofNat sizeofMetaData =
      UInt64.ofNat (sizeofMetaData * (l ++ [a]).length)
    rw [h.metaDataBytes, List.length_append, Nat.mul_add, UInt64.ofNat_add]
    rfl

/-- Reusing a free block keeps list and counters. -/
theorem Holds.reuse (h : Holds s l) (ha : a ∈ l) (hfree : isFree s.mem a = true) :
    Holds (reuseBlock s a) l := by
  have hblocks : Blocks (reuseBlock s a) l :=
    h.toBlocks.setIsFree ha false rfl rfl rfl
  have hsize {b : ℕ} (hb : b ∈ l) :
      getSize (reuseBlock s a).mem b = getSize s.mem b := by
    by_cases hba : b = a
    · subst hba
      exact (fields_setIsFree_self s.mem b false).1
    · exact (fields_of_apart (agreeOff_setIsFree s.mem a false)
        (h.headers_apart ha hb (Ne.symm hba))).1
  have hsizes := sizes_congr fun b hb => hsize (b := b) hb
  obtain ⟨hcount, hbytes⟩ := freeOf_set (m := (reuseBlock s a).mem)
    (List.nodup_cons.mp h.nodup).2 ha (isFree_setIsFree_self s.mem a false) hfree
    (fun b hb hne => (fields_of_apart (agreeOff_setIsFree s.mem a false)
      (h.headers_apart ha hb (Ne.symm hne))).2.1.symm)
    (fun b hb => (hsize hb).symm)
  rw [hsize ha] at hbytes
  refine ⟨hblocks, ⟨?_, ?_, h.totalBlocks, ?_, h.metaDataBytes⟩⟩
  · change s.freeBlocks - 1 = _
    rw [h.freeBlocks, hcount, UInt64.ofNat_add]
    grind
  · change s.freeBytes - UInt64.ofNat (getSize s.mem a) = _
    rw [h.freeBytes, hbytes, UInt64.ofNat_add]
    grind
  · rw [hsizes]
    exact h.totalBytes

/-- Blocks of a list that gained a block behind all regions. -/
theorem Blocks.append (h : Blocks s l) {s' : State} (ha : 0 < a)
    (hbelow : ∀ b ∈ l, b + extent s.mem b ≤ a)
    (hlinked : Linked 0 (headed s'.mem s'.head) (getPrev s'.mem) 0 (l ++ [a]))
    (hsame : SameBlocks s.mem s'.mem l) (hsize : getSize s'.mem a = size)
    (hregions : s'.regions = s.regions ++ [(a, size + sizeofMetaData)])
    (hlimit : a + (size + sizeofMetaData) ≤ addressLimit) : Blocks s' (l ++ [a]) := by
  have hextent {b : ℕ} (hb : b ∈ l) : extent s'.mem b = extent s.mem b := by
    rw [extent, extent, (hsame b hb).1]
  refine ⟨hlinked, ?_, ?_, ?_, ?_⟩
  · intro b hb
    rcases List.mem_append.mp hb with hb | hb
    · exact h.pos b hb
    · rwa [List.mem_singleton.mp hb]
  · refine List.pairwise_append.mpr ⟨?_, List.pairwise_singleton _ _, ?_⟩
    · apply h.apart.imp_of_mem
      intro b c hb _ hbc
      rwa [hextent hb]
    · intro b hb c hc
      obtain rfl := List.mem_singleton.mp hc
      rw [hextent hb]
      exact hbelow b hb
  · intro b hb
    rcases List.mem_append.mp hb with hb | hb
    · rw [hextent hb]
      exact h.le b hb
    · obtain rfl := List.mem_singleton.mp hb
      rwa [extent, hsize]
  · rw [hregions, List.map_append, List.map_singleton, extent, hsize, h.regions_eq]
    apply congrArg (· ++ _)
    apply List.map_congr_left
    intro b hb
    rw [hextent hb]

/-- A new block behind all others has a header of its own. -/
theorem Blocks.headers_append (h : Blocks s l) (ha : 0 < a)
    (hbefore : ∀ b ∈ l, b + 32 ≤ a) (hlimit : a + 32 ≤ addressLimit) :
    Headers {b | b ∈ l ++ [a]} ∧ (l ++ [a]).Nodup := by
  have happart : (l ++ [a]).Pairwise fun b c => b + 32 ≤ c := by
    refine List.pairwise_append.mpr ⟨h.apart.imp ?_, List.pairwise_singleton _ _, ?_⟩
    · intro b c hbc
      rw [extent, sizeofMetaData] at hbc
      omega
    · intro b hb c hc
      obtain rfl := List.mem_singleton.mp hc
      exact hbefore b hb
  have hpos : ∀ b ∈ l ++ [a], 0 < b := by
    intro b hb
    rcases List.mem_append.mp hb with hb | hb
    · exact h.pos b hb
    · rwa [List.mem_singleton.mp hb]
  have hle : ∀ b ∈ l ++ [a], b + 32 ≤ addressLimit := by
    intro b hb
    rcases List.mem_append.mp hb with hb | hb
    · have hba := hbefore b hb
      omega
    · rwa [List.mem_singleton.mp hb]
  exact ⟨Headers.of_pairwise hpos hle happart, happart.imp fun hbc heq => by omega⟩

/-- A header written behind all blocks leaves the list alone. -/
theorem Blocks.linked_newHeader (h : Blocks s l) (hbefore : ∀ b ∈ l, b + 32 ≤ a)
    (size : ℕ) :
    Linked 0 (headed (newHeader s.mem a size) s.head) (getPrev (newHeader s.mem a size))
      0 l := by
  have hheader {b : ℕ} (hb : b ∈ l) :=
    fields_of_apart (agreeOff_newHeader s.mem a size) (Or.inr (hbefore b hb))
  apply h.linked.congr _ fun b hb => (hheader hb).2.2.2
  intro b hb
  rcases List.mem_cons.mp hb with rfl | hb
  · rw [headed_zero, headed_zero]
  · have hb0 := Nat.ne_of_gt (h.pos b hb)
    rw [headed_of_ne _ _ hb0, headed_of_ne _ _ hb0, (hheader hb).2.2.1]

/-- The branch of `smalloc` that raises the break. -/
theorem Holds.append (h : Holds s l) (ha : 0 < a)
    (hregions : ∀ r ∈ s.regions, r.1 + r.2 ≤ a)
    (hlimit : a + (size + sizeofMetaData) ≤ addressLimit) :
    ∃ m head,
      addNewBlock { s with
          mem := newHeader s.mem a size
          regions := s.regions ++ [(a, size + sizeofMetaData)] } a =
        some { s with
          mem := m
          head := head
          regions := s.regions ++ [(a, size + sizeofMetaData)] } ∧
      Appended s l a size { s with
        mem := m
        head := head
        regions := s.regions ++ [(a, size + sizeofMetaData)]
        totalBlocks := s.totalBlocks + 1
        totalBytes := s.totalBytes + UInt64.ofNat size
        metaDataBytes := s.metaDataBytes + UInt64.ofNat sizeofMetaData } := by
  have hbounds : a + 32 ≤ addressLimit ∧ size < addressLimit := by
    rw [sizeofMetaData] at hlimit
    omega
  obtain ⟨hsize, hfree, hnext, hprev⟩ := newHeader_fields s.mem a hbounds.2
  have hbelow : ∀ b ∈ l, b + extent s.mem b ≤ a := by
    intro b hb
    apply hregions (b, extent s.mem b)
    rw [h.regions_eq]
    exact List.mem_map_of_mem hb
  have hbefore : ∀ b ∈ l, b + 32 ≤ a := by
    intro b hb
    have hle := hbelow b hb
    rw [extent, sizeofMetaData] at hle
    omega
  obtain ⟨hheaders, hnodup⟩ := h.headers_append ha hbefore hbounds.1
  obtain ⟨m, head, hrun, hlinked, hsame'⟩ :=
    addNewBlock_eq (s := { s with
      mem := newHeader s.mem a size
      regions := s.regions ++ [(a, size + sizeofMetaData)] })
      (h.linked_newHeader hbefore size) h.length_lt_loopBound hheaders hnodup hnext hprev
  have hsame : SameBlocks s.mem m l := by
    intro b hb
    obtain ⟨hbsize, hbfree⟩ := hsame' b (List.mem_append_left [a] hb)
    obtain ⟨hbsize', hbfree', -⟩ :=
      fields_of_apart (agreeOff_newHeader s.mem a size) (Or.inr (hbefore b hb))
    exact ⟨hbsize.trans hbsize', hbfree.trans hbfree'⟩
  obtain ⟨hsize', hfree'⟩ := hsame' a (by simp)
  have hsize₂ : getSize m a = size := hsize'.trans hsize
  have hused : isFree m a = false := hfree'.trans hfree
  exact ⟨m, head, hrun,
    ⟨h.toBlocks.append ha hbelow hlinked hsame hsize₂ rfl hlimit,
      h.toCounted.append hsame hsize₂ hused⟩, hsame, hsize₂, hused⟩

/-- `smalloc` fails, reuses the lowest block that fits, or appends a block when
none fits. -/
theorem Holds.smalloc_cases (h : Holds s l) (hvalid : env.Valid s) (size : ℕ) :
    smalloc env s size = some (s, 0) ∨
    (∃ a ∈ l, Fit s.mem size a ∧ (∀ b ∈ l, Fit s.mem size b → a ≤ b) ∧
      smalloc env s size = some (reuseBlock s a, a + sizeofMetaData)) ∨
    ((∀ b ∈ l, ¬ Fit s.mem size b) ∧ ∃ s' a, a ∉ l ∧
      smalloc env s size = some (s', a + sizeofMetaData) ∧
      Appended s l a size s') := by
  by_cases hinvalid : size = 0 ∨ maxAllocationSize < size
  · left
    rw [smalloc, if_pos hinvalid]
  have hmax : size ≤ maxAllocationSize := by omega
  have hhead : s.head = l.headD 0 := by
    rw [← h.linked.next_eq, headed_zero]
  have hfind := findFree_eq size h.linked h.pos h.length_lt_loopBound
  rw [← hhead] at hfind
  rcases hfind with ⟨A, a, B, rfl, hA, ha, hrun⟩ | ⟨hnone, hrun⟩
  · right
    left
    have hmem : a ∈ A ++ a :: B := by simp
    have ha0 := Nat.ne_of_gt (h.pos a hmem)
    refine ⟨a, hmem, ha, ?_, ?_⟩
    · intro b hb hfit
      simp only [List.mem_append, List.mem_cons] at hb
      rcases hb with hb | rfl | hb
      · exact absurd hfit (hA b hb)
      · exact Nat.le_refl b
      · obtain ⟨-, hrest, -⟩ := List.pairwise_append.mp h.ascending
        exact Nat.le_of_lt ((List.pairwise_cons.mp hrest).1 b hb)
    · simp only [smalloc, if_neg hinvalid, hrun, Option.bind_eq_bind,
        Option.bind_some, if_pos ha0, (fields_setIsFree_self s.mem a false).1]
      rfl
  · cases hsbrk : env.sbrk (size + sizeofMetaData) with
    | none =>
        left
        simp only [smalloc, if_neg hinvalid, hrun, Option.bind_eq_bind,
          Option.bind_some, ne_eq, not_true, if_false, add64_of_le_max hmax, hsbrk]
    | some a =>
        right
        right
        obtain ⟨ha, hregions, hlimit⟩ := hvalid _ _ hsbrk
        obtain ⟨m, head, hadd, happended⟩ := h.append ha hregions hlimit
        refine ⟨hnone, _, a, ?_, ?_, happended⟩
        · intro hmem
          have hbelow := hregions (a, extent s.mem a) (by
            rw [h.regions_eq]
            exact List.mem_map_of_mem hmem)
          rw [extent, sizeofMetaData] at hbelow
          omega
        · rw [newHeader] at hadd
          simp only [smalloc, if_neg hinvalid, hrun, Option.bind_eq_bind,
            Option.bind_some, ne_eq, not_true, if_false, add64_of_le_max hmax,
            hsbrk, hadd]

end Smalloc

/-! ## `sfree` -/

section Sfree

variable {s : State} {l : List ℕ} {a : ℕ}

theorem sfree_zero (s : State) : sfree s 0 = s := by
  rw [sfree, if_pos rfl]

theorem sfree_of_free (h : isFree s.mem a = true) :
    sfree s (a + sizeofMetaData) = s := by
  simp only [sfree, Nat.add_sub_cancel, h, if_true, ite_self]

/-- Freeing a used block keeps list and counters and sets its flag. -/
theorem Holds.sfree (h : Holds s l) (ha : a ∈ l) (hused : isFree s.mem a = false) :
    Holds (sfree s (a + sizeofMetaData)) l ∧
      (sfree s (a + sizeofMetaData)).mem = setIsFree s.mem a true := by
  have hsize {b : ℕ} (hb : b ∈ l) :
      getSize (setIsFree s.mem a true) b = getSize s.mem b := by
    by_cases hba : b = a
    · subst hba
      exact (fields_setIsFree_self s.mem b true).1
    · exact (fields_of_apart (agreeOff_setIsFree s.mem a true)
        (h.headers_apart ha hb (Ne.symm hba))).1
  have hrun : FirstFit.sfree s (a + sizeofMetaData) = { s with
      mem := setIsFree s.mem a true
      freeBlocks := s.freeBlocks + 1
      freeBytes := s.freeBytes + UInt64.ofNat (getSize s.mem a) } := by
    have hne : a + sizeofMetaData ≠ 0 := by
      rw [sizeofMetaData]
      omega
    simp only [FirstFit.sfree, if_neg hne, Nat.add_sub_cancel, hused,
      Bool.false_eq_true, if_false, hsize ha]
  have hfree := isFree_setIsFree_self s.mem a true
  obtain ⟨hcount, hbytes⟩ := freeOf_set (List.nodup_cons.mp h.nodup).2 ha hused
    hfree
    (fun b hb hne => (fields_of_apart (agreeOff_setIsFree s.mem a true)
      (h.headers_apart ha hb (Ne.symm hne))).2.1)
    (fun b hb => hsize hb)
  rw [hrun]
  refine ⟨⟨h.toBlocks.setIsFree ha true rfl rfl rfl,
    ⟨?_, ?_, h.totalBlocks, ?_, h.metaDataBytes⟩⟩, rfl⟩
  · change s.freeBlocks + 1 = _
    rw [hcount, UInt64.ofNat_add, h.freeBlocks]
    rfl
  · change s.freeBytes + UInt64.ofNat (getSize s.mem a) = _
    rw [hbytes, UInt64.ofNat_add, h.freeBytes]
  · rw [h.totalBytes, ← sizes_congr fun b hb => hsize (b := b) hb]

end Sfree

end OsCoursework.FirstFit
