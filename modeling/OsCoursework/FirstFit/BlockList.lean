import OsCoursework.FirstFit.Machine

/-!
# The block list

`Blocks s l` says that the list of blocks is `l`: its links agree, its blocks
ascend without overlapping, and they are the regions that `sbrk` has returned.
`Counted s l` says that the five counters are those of the blocks of `l`.  Each
function of the interface gets one specification over them.
-/

namespace OsCoursework.FirstFit

open OsCoursework.Bytes
open OsCoursework.LinkedList
open OsCoursework.Allocator (getSize isFree getNext getPrev setSize setIsFree
  setNext setPrev add64 mul64 sizeofMetaData maxAllocationSize loopBound
  addressLimit blockBytes payloadBytes headed headed_zero headed_of_ne
  fields_eq_of_agreeOff readLE_writeLE_of_disjoint readLE_writeLE_word
  isFree_writeLE_of_disjoint)

/-! ## Headers anywhere -/

section Headers

variable {m m' : Mem} {a b v : ℕ}

/-- Writing in one header leaves the fields of a header apart from it alone. -/
theorem fields_of_apart (h : AgreeOff (range a 32) m m')
    (hab : a + 32 ≤ b ∨ b + 32 ≤ a) :
    getSize m' b = getSize m b ∧ isFree m' b = isFree m b ∧
      getNext m' b = getNext m b ∧ getPrev m' b = getPrev m b := by
  apply fields_eq_of_agreeOff h
  intro x hx hx'
  rw [mem_range]
  omega

theorem agreeOff_setSize (m : Mem) (a v : ℕ) :
    AgreeOff (range a 32) m (setSize m a v) := by
  apply (agreeOff_writeLE m a 8 v).mono
  rintro x ⟨hx, hx'⟩
  exact ⟨hx, by omega⟩

theorem agreeOff_setIsFree (m : Mem) (a : ℕ) (f : Bool) :
    AgreeOff (range a 32) m (setIsFree m a f) := by
  apply (agreeOff_writeLE m (a + 8) 1 f.toNat).mono
  rintro x ⟨hx, hx'⟩
  exact ⟨by omega, by omega⟩

theorem agreeOff_setNext (m : Mem) (a v : ℕ) :
    AgreeOff (range a 32) m (setNext m a v) := by
  apply (agreeOff_writeLE m (a + 16) 8 v).mono
  rintro x ⟨hx, hx'⟩
  exact ⟨by omega, by omega⟩

theorem agreeOff_setPrev (m : Mem) (a v : ℕ) :
    AgreeOff (range a 32) m (setPrev m a v) := by
  apply (agreeOff_writeLE m (a + 24) 8 v).mono
  rintro x ⟨hx, hx'⟩
  exact ⟨by omega, by omega⟩

theorem isFree_setIsFree_self (m : Mem) (a : ℕ) (f : Bool) :
    isFree (setIsFree m a f) a = f := by
  simp only [isFree, setIsFree, writeLE]
  rw [if_pos (by omega)]
  cases f <;> simp

/-- Changing the flag of a header keeps its other fields. -/
theorem fields_setIsFree_self (m : Mem) (a : ℕ) (f : Bool) :
    getSize (setIsFree m a f) a = getSize m a ∧
      getNext (setIsFree m a f) a = getNext m a ∧
      getPrev (setIsFree m a f) a = getPrev m a :=
  ⟨readLE_writeLE_of_disjoint m (by omega),
    readLE_writeLE_of_disjoint m (by omega),
    readLE_writeLE_of_disjoint m (by omega)⟩

/-- Changing the next link of a header keeps its other fields. -/
theorem fields_setNext_self (m : Mem) (a v : ℕ) :
    getSize (setNext m a v) a = getSize m a ∧
      isFree (setNext m a v) a = isFree m a ∧
      getPrev (setNext m a v) a = getPrev m a :=
  ⟨readLE_writeLE_of_disjoint m (by omega),
    isFree_writeLE_of_disjoint m (by omega),
    readLE_writeLE_of_disjoint m (by omega)⟩

/-- Changing the previous link of a header keeps its other fields. -/
theorem fields_setPrev_self (m : Mem) (a v : ℕ) :
    getSize (setPrev m a v) a = getSize m a ∧
      isFree (setPrev m a v) a = isFree m a ∧
      getNext (setPrev m a v) a = getNext m a :=
  ⟨readLE_writeLE_of_disjoint m (by omega),
    isFree_writeLE_of_disjoint m (by omega),
    readLE_writeLE_of_disjoint m (by omega)⟩

/-- The header `smalloc` writes for a new block. -/
def newHeader (m : Mem) (a size : ℕ) : Mem :=
  setNext (setPrev (setIsFree (setSize m a size) a false) a 0) a 0

theorem agreeOff_newHeader (m : Mem) (a size : ℕ) :
    AgreeOff (range a 32) m (newHeader m a size) :=
  (((agreeOff_setSize m a size).trans (agreeOff_setIsFree _ a false)).trans
    (agreeOff_setPrev _ a 0)).trans (agreeOff_setNext _ a 0)

theorem newHeader_fields (m : Mem) (a : ℕ) {size : ℕ} (h : size < addressLimit) :
    getSize (newHeader m a size) a = size ∧
      isFree (newHeader m a size) a = false ∧
      getNext (newHeader m a size) a = 0 ∧
      getPrev (newHeader m a size) a = 0 := by
  let m₂ := setIsFree (setSize m a size) a false
  obtain ⟨hsize, hfree, hprev⟩ := fields_setNext_self (setPrev m₂ a 0) a 0
  obtain ⟨hsize', hfree', -⟩ := fields_setPrev_self m₂ a 0
  refine ⟨?_, ?_, readLE_writeLE_word _ (Nat.two_pow_pos 64), ?_⟩
  · rw [newHeader, hsize, hsize', (fields_setIsFree_self _ a false).1]
    exact readLE_writeLE_word m h
  · rw [newHeader, hfree, hfree']
    exact isFree_setIsFree_self _ a false
  · rw [newHeader, hprev]
    exact readLE_writeLE_word _ (Nat.two_pow_pos 64)

end Headers

/-! ## The list -/

/-- The bytes a block takes, its header included. -/
def extent (m : Mem) (a : ℕ) : ℕ :=
  getSize m a + sizeofMetaData

/-- The list of blocks is `l`. -/
structure Blocks (s : State) (l : List ℕ) : Prop where
  linked : Linked 0 (headed s.mem s.head) (getPrev s.mem) 0 l
  pos : ∀ a ∈ l, 0 < a
  apart : l.Pairwise fun a b => a + extent s.mem a ≤ b
  le : ∀ a ∈ l, a + extent s.mem a ≤ addressLimit
  regions_eq : s.regions = l.map fun a => (a, extent s.mem a)

/-- The free blocks among `l`. -/
def freeOf (m : Mem) (l : List ℕ) : List ℕ :=
  l.filter fun a => isFree m a

/-- The counters are those of the blocks of `l`. -/
structure Counted (s : State) (l : List ℕ) : Prop where
  freeBlocks : s.freeBlocks = UInt64.ofNat (freeOf s.mem l).length
  freeBytes : s.freeBytes =
    UInt64.ofNat ((freeOf s.mem l).map (getSize s.mem)).sum
  totalBlocks : s.totalBlocks = UInt64.ofNat l.length
  totalBytes : s.totalBytes = UInt64.ofNat (l.map (getSize s.mem)).sum
  metaDataBytes : s.metaDataBytes = UInt64.ofNat (sizeofMetaData * l.length)

/-- A free block that is large enough for the request. -/
def Fit (m : Mem) (size a : ℕ) : Prop :=
  isFree m a = true ∧ size ≤ getSize m a

instance (m : Mem) (size a : ℕ) : Decidable (Fit m size a) :=
  inferInstanceAs (Decidable (_ ∧ _))

/-- The sizes and flags of the blocks of `l` are the same in both memories. -/
def SameBlocks (m m' : Mem) (l : List ℕ) : Prop :=
  ∀ a ∈ l, getSize m' a = getSize m a ∧ isFree m' a = isFree m a

namespace Blocks

variable {s : State} {l : List ℕ} {a b : ℕ}

theorem ascending (h : Blocks s l) : l.Pairwise (· < ·) := by
  refine h.apart.imp ?_
  intro a b hab
  rw [extent, sizeofMetaData] at hab
  omega

theorem nodup (h : Blocks s l) : (0 :: l).Nodup := by
  refine List.nodup_cons.mpr ⟨?_, h.ascending.imp fun hlt => Nat.ne_of_lt hlt⟩
  intro h0
  exact absurd (h.pos 0 h0) (Nat.lt_irrefl 0)

theorem length_lt_loopBound (h : Blocks s l) : l.length < loopBound := by
  have hle : l.length ≤ addressLimit - 31 := by
    refine length_le_of_pairwise_lt h.ascending ?_
    intro a ha
    have hle := h.le a ha
    rw [extent, sizeofMetaData] at hle
    omega
  have hbound : addressLimit = loopBound := rfl
  have hpos := Allocator.addressLimit_pos
  omega

/-- Of two blocks one lies wholly before the other. -/
theorem apart_of_ne (h : Blocks s l) (ha : a ∈ l) (hb : b ∈ l) (hne : a ≠ b) :
    a + extent s.mem a ≤ b ∨ b + extent s.mem b ≤ a :=
  related_of_pairwise h.apart ha hb hne

/-- The blocks have no byte in common. -/
theorem disjoint (h : Blocks s l) (ha : a ∈ l) (hb : b ∈ l) (hne : a ≠ b) :
    Disjoint (blockBytes s.mem a) (blockBytes s.mem b) := by
  have hapart := h.apart_of_ne ha hb hne
  refine Set.disjoint_left.mpr ?_
  rintro x ⟨hx, hx'⟩ ⟨hy, hy'⟩
  rw [extent, extent] at hapart
  omega

/-- The headers of two blocks do not overlap. -/
theorem headers_apart (h : Blocks s l) (ha : a ∈ l) (hb : b ∈ l) (hne : a ≠ b) :
    a + 32 ≤ b ∨ b + 32 ≤ a := by
  have hapart := h.apart_of_ne ha hb hne
  rw [extent, extent, sizeofMetaData] at hapart
  omega

/-- The list survives changes that keep sizes and links. -/
theorem congr {s' : State} (h : Blocks s l) (hhead : s'.head = s.head)
    (hregions : s'.regions = s.regions)
    (hkeep : ∀ a ∈ l, getSize s'.mem a = getSize s.mem a ∧
      getNext s'.mem a = getNext s.mem a ∧
      getPrev s'.mem a = getPrev s.mem a) : Blocks s' l := by
  have hextent {a : ℕ} (ha : a ∈ l) : extent s'.mem a = extent s.mem a := by
    rw [extent, extent, (hkeep a ha).1]
  refine ⟨?_, h.pos, ?_, ?_, ?_⟩
  · refine h.linked.congr ?_ fun y hy => (hkeep y hy).2.2
    intro y hy
    rcases List.mem_cons.mp hy with rfl | hy
    · rw [headed_zero, headed_zero, hhead]
    · have hne := Nat.ne_of_gt (h.pos y hy)
      rw [headed_of_ne _ _ hne, headed_of_ne _ _ hne, (hkeep y hy).2.1]
  · refine h.apart.imp_of_mem ?_
    intro a b ha _ hab
    rwa [hextent ha]
  · intro a ha
    rw [hextent ha]
    exact h.le a ha
  · rw [hregions, h.regions_eq]
    refine List.map_congr_left ?_
    intro a ha
    rw [hextent ha]

/-- Changing the flag of one block keeps the list. -/
theorem setIsFree (h : Blocks s l) (ha : a ∈ l) {s' : State} (f : Bool)
    (hmem : s'.mem = Allocator.setIsFree s.mem a f) (hhead : s'.head = s.head)
    (hregions : s'.regions = s.regions) : Blocks s' l := by
  refine h.congr hhead hregions ?_
  intro b hb
  rw [hmem]
  by_cases hba : b = a
  · subst hba
    exact fields_setIsFree_self s.mem b f
  · obtain ⟨hsize, -, hnext, hprev⟩ := fields_of_apart
      (agreeOff_setIsFree s.mem a f) (h.headers_apart ha hb (Ne.symm hba))
    exact ⟨hsize, hnext, hprev⟩

/-- Writing inside a payload keeps the list, the sizes and the flags. -/
theorem write (h : Blocks s l) (ha : a ∈ l) {s' : State}
    (hagree : AgreeOff (payloadBytes s.mem (a + sizeofMetaData)) s.mem s'.mem)
    (hhead : s'.head = s.head) (hregions : s'.regions = s.regions) :
    Blocks s' l ∧ SameBlocks s.mem s'.mem l := by
  have hfields {b : ℕ} (hb : b ∈ l) := fields_eq_of_agreeOff (a := b) hagree (by
    rintro x hx hx' ⟨hlow, hhigh⟩
    rw [Nat.add_sub_cancel] at hhigh
    rw [sizeofMetaData] at hlow hhigh
    by_cases hba : b = a
    · omega
    · have hapart := h.apart_of_ne ha hb (Ne.symm hba)
      rw [extent, extent, sizeofMetaData] at hapart
      omega)
  constructor
  · refine h.congr hhead hregions ?_
    intro b hb
    exact ⟨(hfields hb).1, (hfields hb).2.2⟩
  · intro b hb
    exact ⟨(hfields hb).1, (hfields hb).2.1⟩

end Blocks

/-! ## The loops -/

section Loops

variable {m : Mem} {head x : ℕ} {l : List ℕ} {fuel : ℕ}

/-- The search stops at the first block that fits, or at the end. -/
theorem findFree_eq (size : ℕ)
    (hlinked : Linked 0 (headed m head) (getPrev m) x l)
    (hpos : ∀ a ∈ l, 0 < a) (hfuel : l.length < fuel) :
    (∃ A a B, l = A ++ a :: B ∧ (∀ b ∈ A, ¬ Fit m size b) ∧ Fit m size a ∧
      findFree m size fuel (l.headD 0) = some a) ∨
    ((∀ b ∈ l, ¬ Fit m size b) ∧
      findFree m size fuel (l.headD 0) = some 0) := by
  induction l generalizing x fuel with
  | nil =>
      obtain ⟨fuel, rfl⟩ : ∃ n, fuel = n + 1 := ⟨fuel - 1, by omega⟩
      exact Or.inr ⟨by simp, by simp [findFree]⟩
  | cons y l ih =>
      obtain ⟨fuel, rfl⟩ : ∃ n, fuel = n + 1 := ⟨fuel - 1, by omega⟩
      have hy : y ≠ 0 := Nat.ne_of_gt (hpos y (by simp))
      rw [List.headD_cons, findFree, if_neg hy]
      by_cases hfit : Fit m size y
      · exact Or.inl ⟨[], y, l, rfl, by simp, hfit, if_pos hfit⟩
      · have hnext : getNext m y = l.headD 0 := by
          rw [← headed_of_ne m head hy]
          exact hlinked.2.2.next_eq
        have hmiss : ¬ (isFree m y = true ∧ size ≤ getSize m y) := hfit
        rw [if_neg hmiss, hnext]
        rcases ih hlinked.2.2 (fun a ha => hpos a (List.mem_cons_of_mem y ha))
          (Nat.lt_of_succ_lt_succ hfuel) with
          ⟨A, a, B, rfl, hA, ha, hrun⟩ | ⟨hnone, hrun⟩
        · refine Or.inl ⟨y :: A, a, B, rfl, ?_, ha, hrun⟩
          intro b hb
          rcases List.mem_cons.mp hb with rfl | hb
          · exact hfit
          · exact hA b hb
        · refine Or.inr ⟨?_, hrun⟩
          intro b hb
          rcases List.mem_cons.mp hb with rfl | hb
          · exact hfit
          · exact hnone b hb

/-- The walk of `addNewBlock` ends at the last block. -/
theorem lastBlock_eq {y : ℕ}
    (hlinked : Linked 0 (headed m head) (getPrev m) y l)
    (hy : y ≠ 0) (hpos : ∀ a ∈ l, 0 < a) (hfuel : l.length < fuel) :
    lastBlock m fuel y = some (endOf y l) := by
  induction l generalizing y fuel with
  | nil =>
      obtain ⟨fuel, rfl⟩ : ∃ n, fuel = n + 1 := ⟨fuel - 1, by omega⟩
      have hnext : getNext m y = 0 := by
        rw [← headed_of_ne m head hy]
        exact hlinked
      rw [lastBlock, if_neg (not_not.mpr hnext), endOf_nil]
  | cons z l ih =>
      obtain ⟨fuel, rfl⟩ : ∃ n, fuel = n + 1 := ⟨fuel - 1, by omega⟩
      have hz : z ≠ 0 := Nat.ne_of_gt (hpos z (by simp))
      have hnext : getNext m y = z := by
        rw [← headed_of_ne m head hy]
        exact hlinked.1
      rw [lastBlock, hnext, if_pos hz, endOf_cons]
      exact ih hlinked.2.2 hz (fun a ha => hpos a (List.mem_cons_of_mem z ha))
        (Nat.lt_of_succ_lt_succ hfuel)

end Loops

end OsCoursework.FirstFit
