import OsCoursework.Allocator.BlockOrderList

/-!
# Free lists

The allocator's blocks start at multiples of 32, so their headers never overlap and the
fields of different headers can be told apart by their addresses alone.  `FreeList` is a
`BlockOrderList` with all its headers at such addresses.  Each operation gets one
specification: what the list becomes, and which bytes are written.
-/

namespace OsCoursework.Allocator

open OsCoursework.Bytes
open OsCoursework.LinkedList

/-- The free list at `head` is `l`. -/
structure FreeList (m : Mem) (head : ℕ) (l : List ℕ) : Prop where
  linked : Linked 0 (headed m head) (getPrev m) 0 l
  sorted : l.Pairwise (· < ·)
  slot : ∀ a ∈ l, Slot a

theorem BlockOrderList.freeList {m : Mem} {head : ℕ} {l : List ℕ}
    (h : BlockOrderList m head l) (hslot : ∀ a ∈ l, Slot a) : FreeList m head l :=
  ⟨h.linked, h.sorted, hslot⟩

namespace FreeList

variable {m m' : Mem} {head block : ℕ} {l A B : List ℕ}

theorem nil (m : Mem) : FreeList m 0 [] :=
  ⟨rfl, List.Pairwise.nil, by simp⟩

theorem blockOrderList (h : FreeList m head l) : BlockOrderList m head l :=
  ⟨h.linked, h.sorted, Headers.of_slot h.slot⟩

theorem head_eq (h : FreeList m head l) : head = l.headD 0 :=
  h.blockOrderList.head_eq

theorem head_eq_zero_iff (h : FreeList m head l) : head = 0 ↔ l = [] :=
  h.blockOrderList.head_eq_zero_iff

theorem length_lt_loopBound (h : FreeList m head l) : l.length < loopBound :=
  h.blockOrderList.length_lt_loopBound

/-- A list is read off its head. -/
theorem unique {l' : List ℕ}
    (h : FreeList m head l) (h' : FreeList m head l') : l = l' :=
  h.linked.unique h'.linked h.blockOrderList.headers.zero_not_mem
    h'.blockOrderList.headers.zero_not_mem

/-- A list survives changes that keep the links of its members. -/
theorem congr (h : FreeList m head l)
    (hnext : ∀ a ∈ l, getNext m' a = getNext m a)
    (hprev : ∀ a ∈ l, getPrev m' a = getPrev m a) :
    FreeList m' head l := by
  refine ⟨h.linked.congr ?_ hprev, h.sorted, h.slot⟩
  intro y hy
  rcases List.mem_cons.mp hy with rfl | hy
  · rw [headed_zero, headed_zero]
  · have hne := (h.slot y hy).ne_zero
    rw [headed_of_ne _ _ hne, headed_of_ne _ _ hne, hnext y hy]

theorem congr_of_agreeOff {S : Set ℕ} (h : FreeList m head l)
    (hagree : AgreeOff (headerBytes S) m m')
    (hS : ∀ a ∈ S, 32 ∣ a) (hdisj : ∀ a ∈ l, a ∉ S) :
    FreeList m' head l := by
  refine h.congr ?_ ?_
  · intro a ha
    exact (fields_eq_of_agreeOff_headers hagree hS (h.slot a ha).dvd
      (hdisj a ha)).2.2.1
  · intro a ha
    exact (fields_eq_of_agreeOff_headers hagree hS (h.slot a ha).dvd
      (hdisj a ha)).2.2.2

/-- Members of a list other than the one between `A` and `B`. -/
theorem ne_of_mem_around {z : ℕ} (h : FreeList m head (A ++ block :: B))
    (hz : z ∈ A ++ B) : z ≠ block := by
  rintro rfl
  have hnodup := (List.nodup_cons.mp h.blockOrderList.nodup).2
  exact (List.nodup_middle.mp hnodup |> List.nodup_cons.mp).1 hz

/-! ## The operations -/

theorem headers_insert (h : FreeList m head l) (hb : Slot block) :
    Headers (insert block {a | a ∈ l}) := by
  apply Headers.of_slot
  rintro a (rfl | ha)
  · exact hb
  · exact h.slot a ha

/-- The list around a new block at a slot. -/
theorem of_insert (h : FreeList m head (A ++ B)) (hb : Slot block) {head' : ℕ}
    (hlist : BlockOrderList m' head' (A ++ block :: B)) :
    FreeList m' head' (A ++ block :: B) := by
  apply hlist.freeList
  intro a ha
  rcases List.mem_cons.mp (List.perm_middle.mem_iff.mp ha) with rfl | ha
  · exact hb
  · exact h.slot a ha

/-- `insertBlock` links a new block in at its place and writes only links of
the list and of the block. -/
theorem insertBlock_eq (h : FreeList m head l) (hb : Slot block) (hnot : block ∉ l) :
    ∃ m' head' A B, l = A ++ B ∧
      insertBlock m head block = some (m', head') ∧
      FreeList m' head' (A ++ block :: B) ∧
      AgreeOff (linkBytes {a | a = block ∨ a ∈ l}) m m' := by
  obtain ⟨m', head', A, B, rfl, hrun, hlist, hframe⟩ :=
    h.blockOrderList.insertBlock_eq (h.headers_insert hb) hnot
  exact ⟨m', head', A, B, rfl, hrun, h.of_insert hb hlist, hframe⟩

/-- The one-element list. -/
theorem link_empty (m : Mem) (hb : Slot block) :
    FreeList (clearLinks m block) block [block] := by
  obtain ⟨m', head', A, B, hAB, hrun, hlist, -⟩ :=
    (nil m).insertBlock_eq hb (List.not_mem_nil)
  obtain ⟨rfl, rfl⟩ := List.append_eq_nil_iff.mp hAB.symm
  have hempty : insertBlock m 0 block = some (clearLinks m block, block) := by
    simp [insertBlock, hb.ne_zero]
  rw [hempty, Option.some.injEq, Prod.mk.injEq] at hrun
  obtain ⟨rfl, rfl⟩ := hrun
  exact hlist

/-- Linking in after the last member. -/
theorem link_end (h : FreeList m head A) (hb : Slot block) (hnot : block ∉ A)
    (hA : ∀ a ∈ A, a < block) (hend : endOf 0 A ∈ A) :
    FreeList (setNext (setPrev (setNext m block 0) block (endOf 0 A))
      (endOf 0 A) block) head (A ++ [block]) := by
  rw [← List.append_nil A] at h hnot
  have hS := h.headers_insert hb
  have hmem : block ∈ insert block {a | a ∈ A ++ []} := Set.mem_insert _ _
  have hp : endOf 0 A ∈ insert block {a | a ∈ A ++ []} :=
    Or.inr (List.mem_append_left _ hend)
  have hholds := ((((Holds.stored hS m head).setNext hS hmem addressLimit_pos).setPrev hS
    hmem (hS.lt hp)).setNext hS hp hb.lt).updatePrevNull hS block
  exact h.of_insert hb (h.blockOrderList.insert_holds hS hnot hA (by simp) hholds)

/-- `removeBlock` takes a member out and writes only links of the list. -/
theorem removeBlock_eq (h : FreeList m head (A ++ block :: B)) :
    ∃ m' head', removeBlock m head block = (m', head', block) ∧
      FreeList m' head' (A ++ B) ∧
      AgreeOff (linkBytes {a | a ∈ A ++ block :: B}) m m' := by
  obtain ⟨m', head', hrun, ⟨hlist, -⟩, hframe⟩ := h.blockOrderList.removeBlock_eq
  refine ⟨m', head', hrun, hlist.freeList fun a ha => h.slot a ?_, hframe⟩
  exact List.perm_middle.mem_iff.mpr (List.mem_cons_of_mem block ha)

end FreeList

end OsCoursework.Allocator
