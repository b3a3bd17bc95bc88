import OsCoursework.Allocator.Header
import OsCoursework.Support.LinkedList

/-!
# `BlockOrderList`

`BlockOrderList m head l` says that the list starting at `head` is `l`: its `next` and
`prev` links agree, it ends in `NULL` at both ends, and it is strictly ascending by
address.  All that is asked of the addresses is that they hold headers that do not
overlap.  The operations write links one by one; with the head pointer read as the link
out of `NULL`, each of them is one edit of the two successor functions, whichever branch
it takes.
-/

namespace OsCoursework.Allocator

open OsCoursework.Bytes
open OsCoursework.LinkedList

/-! ## Headers that do not overlap -/

/-- The addresses in `S` hold headers that do not overlap. -/
structure Headers (S : Set ℕ) : Prop where
  pos : ∀ a ∈ S, 0 < a
  le : ∀ a ∈ S, a + 32 ≤ addressLimit
  apart : ∀ a ∈ S, ∀ b ∈ S, a ≠ b → a + 32 ≤ b ∨ b + 32 ≤ a

namespace Headers

variable {S T : Set ℕ} {a : ℕ}

theorem zero_not_mem (h : Headers S) : 0 ∉ S :=
  fun h0 => Nat.lt_irrefl 0 (h.pos 0 h0)

theorem ne_zero (h : Headers S) (ha : a ∈ S) : a ≠ 0 :=
  Nat.ne_of_gt (h.pos a ha)

theorem lt (h : Headers S) (ha : a ∈ S) : a < addressLimit := by
  have := h.le a ha
  omega

/-- A pointer to a header in `S` or `NULL`. -/
theorem lt_of_imp (h : Headers S) (ha : a ≠ 0 → a ∈ S) : a < addressLimit := by
  by_cases hzero : a = 0
  · rw [hzero]
    exact addressLimit_pos
  · exact h.lt (ha hzero)

theorem mono (h : Headers S) (hTS : T ⊆ S) : Headers T :=
  ⟨fun a ha => h.pos a (hTS ha), fun a ha => h.le a (hTS ha),
    fun a ha b hb => h.apart a (hTS ha) b (hTS hb)⟩

theorem of_pairwise {l : List ℕ} (hpos : ∀ a ∈ l, 0 < a)
    (hle : ∀ a ∈ l, a + 32 ≤ addressLimit) (hl : l.Pairwise fun a b => a + 32 ≤ b) :
    Headers {a | a ∈ l} :=
  ⟨hpos, hle, fun _ ha _ hb hne => related_of_pairwise hl ha hb hne⟩

/-- Headers at multiples of 32 do not overlap. -/
theorem of_slot (h : ∀ a ∈ S, Slot a) : Headers S := by
  refine ⟨fun a ha => (h a ha).pos, fun a ha => (h a ha).le, ?_⟩
  intro a ha b hb hne
  have had := (h a ha).dvd
  have hbd := (h b hb).dvd
  omega

end Headers

/-! ## The links in memory -/

/-- The `next` links, with the head pointer as the link out of `NULL`. -/
def headed (m : Mem) (head x : ℕ) : ℕ :=
  if x = 0 then head else getNext m x

@[simp] theorem headed_zero (m : Mem) (head : ℕ) : headed m head 0 = head :=
  if_pos rfl

theorem headed_of_ne (m : Mem) (head : ℕ) {x : ℕ} (h : x ≠ 0) :
    headed m head x = getNext m x :=
  if_neg h

/-- The links stored in memory and in the head pointer. -/
def storedLinks (m : Mem) (head : ℕ) : Links ℕ :=
  ⟨headed m head, getPrev m⟩

/-- Since `m₀` only links of `S` have been written, and with the head pointer `head` they
are now those of `k`. -/
structure Holds (S : Set ℕ) (m₀ m : Mem) (head : ℕ) (k : Links ℕ) : Prop where
  head_eq : head = k.next 0
  next_eq : ∀ a ∈ S, getNext m a = k.next a
  prev_eq : ∀ a ∈ S, getPrev m a = k.prev a
  frame : AgreeOff (linkBytes S) m₀ m

namespace Holds

variable {S : Set ℕ} {m₀ m : Mem} {head a v : ℕ} {k : Links ℕ}

theorem stored (hS : Headers S) (m : Mem) (head : ℕ) :
    Holds S m m head (storedLinks m head) := by
  refine ⟨(headed_zero m head).symm, ?_, fun _ _ => rfl, AgreeOff.refl _ m⟩
  intro a ha
  exact (headed_of_ne m head (hS.ne_zero ha)).symm

theorem setNext (h : Holds S m₀ m head k) (hS : Headers S) (ha : a ∈ S)
    (hv : v < addressLimit) :
    Holds S m₀ (setNext m a v) head (k.setNext a v) := by
  refine ⟨?_, ?_, ?_, h.frame.trans (agreeOff_setNext m ha)⟩
  · rw [Links.setNext_next, Function.update_of_ne (hS.ne_zero ha).symm]
    exact h.head_eq
  · intro c hc
    by_cases hca : c = a
    · rw [hca, Links.setNext_next, Function.update_self]
      exact readLE_writeLE_word m hv
    · have happart := hS.apart c hc a ha hca
      rw [Links.setNext_next, Function.update_of_ne hca, ← h.next_eq c hc]
      exact readLE_writeLE_of_disjoint m (by omega)
  · intro c hc
    have happart := hS.apart c hc a ha
    rw [Links.setNext_prev, ← h.prev_eq c hc]
    exact readLE_writeLE_of_disjoint m (by omega)

theorem setPrev (h : Holds S m₀ m head k) (hS : Headers S) (ha : a ∈ S)
    (hv : v < addressLimit) :
    Holds S m₀ (setPrev m a v) head (k.setPrev a v) := by
  refine ⟨h.head_eq, ?_, ?_, h.frame.trans (agreeOff_setPrev m ha)⟩
  · intro c hc
    have happart := hS.apart c hc a ha
    rw [Links.setPrev_next, ← h.next_eq c hc]
    exact readLE_writeLE_of_disjoint m (by omega)
  · intro c hc
    by_cases hca : c = a
    · rw [hca, Links.setPrev_prev, Function.update_self]
      exact readLE_writeLE_word m hv
    · have happart := hS.apart c hc a ha hca
      rw [Links.setPrev_prev, Function.update_of_ne hca, ← h.prev_eq c hc]
      exact readLE_writeLE_of_disjoint m (by omega)

theorem setHead (h : Holds S m₀ m head k) (hS : Headers S) (v : ℕ) :
    Holds S m₀ m v (k.setNext 0 v) := by
  refine ⟨?_, ?_, h.prev_eq, h.frame⟩
  · rw [Links.setNext_next, Function.update_self]
  intro a ha
  rw [Links.setNext_next, Function.update_of_ne (hS.ne_zero ha)]
  exact h.next_eq a ha

theorem clearLinks (h : Holds S m₀ m head k) (hS : Headers S) (ha : a ∈ S) :
    Holds S m₀ (clearLinks m a) head ((k.setNext a 0).setPrev a 0) :=
  (h.setNext hS ha addressLimit_pos).setPrev hS ha addressLimit_pos

/-- What `prev` says about `NULL` is stored nowhere. -/
theorem updatePrevNull (h : Holds S m₀ m head k) (hS : Headers S) (v : ℕ) :
    Holds S m₀ m head (k.setPrev 0 v) := by
  refine ⟨h.head_eq, h.next_eq, ?_, h.frame⟩
  intro a ha
  rw [Links.setPrev_prev, Function.update_of_ne (hS.ne_zero ha)]
  exact h.prev_eq a ha

/-- `if (iter) iter->prev = block`. -/
theorem setPrevOfNe (h : Holds S m₀ m head k) (hS : Headers S) (ha : a ≠ 0 → a ∈ S)
    (hv : v < addressLimit) :
    Holds S m₀ (if a ≠ 0 then Allocator.setPrev m a v else m) head (k.setPrev a v) := by
  split
  · next hne => exact h.setPrev hS (ha hne) hv
  · next hzero =>
    obtain rfl := not_not.mp hzero
    exact h.updatePrevNull hS v

/-- Sizes and flags have stayed. -/
theorem size_isFree_eq (h : Holds S m₀ m head k) (hS : Headers S) (ha : a ∈ S) :
    getSize m a = getSize m₀ a ∧ isFree m a = isFree m₀ a := by
  have hout (x : ℕ) (hx : a ≤ x) (hxn : x < a + 16) : x ∉ linkBytes S := by
    rintro ⟨b, hb, hbx, hbx'⟩
    have happart := hS.apart a ha b hb
    omega
  refine ⟨h.frame.readLE_eq fun x hx hxn => hout x hx (by omega), ?_⟩
  rw [isFree, isFree, h.frame _ (hout _ (by omega) (by omega))]

/-- The links of a list are found in memory. -/
theorem linked (h : Holds S m₀ m head k) (hS : Headers S) {l : List ℕ}
    (hk : Linked 0 k.next k.prev 0 l) (hl : ∀ a ∈ l, a ∈ S) :
    Linked 0 (headed m head) (getPrev m) 0 l := by
  refine hk.congr ?_ fun a ha => h.prev_eq a (hl a ha)
  intro a ha
  rcases List.mem_cons.mp ha with rfl | ha
  · rw [headed_zero, h.head_eq]
  · rw [headed_of_ne m head (hS.ne_zero (hl a ha)), h.next_eq a (hl a ha)]

end Holds

/-! ## Lists -/

/-- The list at `head` is `l`. -/
structure BlockOrderList (m : Mem) (head : ℕ) (l : List ℕ) : Prop where
  linked : Linked 0 (headed m head) (getPrev m) 0 l
  sorted : l.Pairwise (· < ·)
  headers : Headers {a | a ∈ l}

namespace BlockOrderList

variable {m m' : Mem} {head head' block : ℕ} {l A B : List ℕ}

theorem ne_zero (h : BlockOrderList m head l) {a : ℕ} (ha : a ∈ l) : a ≠ 0 :=
  h.headers.ne_zero ha

theorem head_eq (h : BlockOrderList m head l) : head = l.headD 0 := by
  have hnext := h.linked.next_eq
  rwa [headed_zero] at hnext

theorem head_eq_zero_iff (h : BlockOrderList m head l) : head = 0 ↔ l = [] := by
  rw [h.head_eq]
  cases l with
  | nil => simp
  | cons a l =>
      have ha := h.ne_zero (List.mem_cons_self ..)
      simp [ha]

theorem nodup (h : BlockOrderList m head l) : (0 :: l).Nodup :=
  List.nodup_cons.mpr
    ⟨h.headers.zero_not_mem, h.sorted.imp fun hlt => Nat.ne_of_lt hlt⟩

theorem length_lt_loopBound (h : BlockOrderList m head l) : l.length < loopBound := by
  have hle : l.length ≤ addressLimit - 31 :=
    length_le_of_pairwise_lt h.sorted fun x hx => by
      have := h.headers.le x hx
      omega
  have hbound : addressLimit = loopBound := rfl
  have hpos := addressLimit_pos
  omega

/-- Two memories in which a list is the same have the same links in it. -/
theorem links_eq (h : BlockOrderList m head l) (h' : BlockOrderList m' head' l) :
    head' = head ∧ ∀ a ∈ l, getNext m' a = getNext m a ∧ getPrev m' a = getPrev m a := by
  refine ⟨by rw [h.head_eq, h'.head_eq], ?_⟩
  intro a ha
  obtain ⟨A, B, rfl⟩ := List.append_of_mem ha
  have hne := h.ne_zero ha
  obtain ⟨hprev, hnext⟩ := h.linked.neighbours
  obtain ⟨hprev', hnext'⟩ := h'.linked.neighbours
  rw [headed_of_ne _ _ hne] at hnext hnext'
  exact ⟨hnext'.trans hnext.symm, hprev'.trans hprev.symm⟩

/-! ## `insertBlock` -/

/-- The search loop stops between the members below `block` and the rest. -/
theorem seek_eq (block : ℕ) {x : ℕ} {l : List ℕ} {fuel : ℕ}
    (hlinked : Linked 0 (headed m head) (getPrev m) x l)
    (hpos : ∀ a ∈ l, a ≠ 0) (hfuel : l.length < fuel) :
    ∃ A B, l = A ++ B ∧ (∀ a ∈ A, a < block) ∧
      (∀ a, B.head? = some a → block ≤ a) ∧
      seek m block fuel x (l.headD 0) = some (endOf x A, B.headD 0) := by
  induction l generalizing x fuel with
  | nil =>
      obtain ⟨fuel, rfl⟩ := Nat.exists_eq_add_of_lt hfuel
      exact ⟨[], [], rfl, by simp, by simp, by simp [seek]⟩
  | cons y l ih =>
      obtain ⟨fuel, rfl⟩ : ∃ n, fuel = n + 1 := ⟨fuel - 1, by omega⟩
      have hy : y ≠ 0 := hpos y (by simp)
      by_cases hlt : y < block
      · obtain ⟨A, B, hl, hA, hB, hseek⟩ := ih hlinked.2.2
          (fun a ha => hpos a (List.mem_cons_of_mem y ha))
          (Nat.lt_of_succ_lt_succ hfuel)
        have hnext : getNext m y = l.headD 0 := by
          rw [← headed_of_ne m head hy]
          exact hlinked.2.2.next_eq
        refine ⟨y :: A, B, by rw [hl]; rfl, ?_, hB, ?_⟩
        · intro a ha
          rcases List.mem_cons.mp ha with rfl | ha
          · exact hlt
          · exact hA a ha
        · rw [List.headD_cons, seek, if_pos ⟨hy, hlt⟩, hnext, hseek, endOf_cons]
      · refine ⟨[], y :: l, rfl, by simp, ?_, ?_⟩
        · intro a ha
          have hya : y = a := Option.some.inj ha
          omega
        · rw [List.headD_cons, seek, if_neg (fun h => hlt h.2), endOf_nil]

/-- Around an address not in the list, a sorted list splits into the members
below and the members above. -/
theorem sorted_insert {A B : List ℕ} {b : ℕ}
    (hsorted : (A ++ B).Pairwise (· < ·)) (hb : b ∉ A ++ B)
    (hA : ∀ a ∈ A, a < b) (hB : ∀ a, B.head? = some a → b ≤ a) :
    (A ++ b :: B).Pairwise (· < ·) := by
  rw [List.pairwise_append] at hsorted ⊢
  obtain ⟨hsA, hsB, hAB⟩ := hsorted
  have hbB : ∀ a ∈ B, b < a := by
    cases B with
    | nil => simp
    | cons y B =>
        have hby : b < y := by
          have hle := hB y rfl
          have hne : b ≠ y := by
            rintro rfl
            exact hb (by simp)
          omega
        intro a ha
        rcases List.mem_cons.mp ha with rfl | ha
        · exact hby
        · exact Nat.lt_trans hby ((List.pairwise_cons.mp hsB).1 a ha)
  refine ⟨hsA, List.pairwise_cons.mpr ⟨hbB, hsB⟩, ?_⟩
  intro a ha c hc
  rcases List.mem_cons.mp hc with rfl | hc
  · exact hA a ha
  · exact hAB a ha c hc

/-- The memory holds the links of the list with `block` in it. -/
theorem insert_holds (h : BlockOrderList m head (A ++ B))
    (hS : Headers (insert block {a | a ∈ A ++ B})) (hnot : block ∉ A ++ B)
    (hA : ∀ a ∈ A, a < block) (hB : ∀ a, B.head? = some a → block ≤ a)
    (hholds : Holds (insert block {a | a ∈ A ++ B}) m m' head'
      ((storedLinks m head).linkIn (endOf 0 A) block (B.headD 0))) :
    BlockOrderList m' head' (A ++ block :: B) := by
  have hne : block ≠ 0 := hS.ne_zero (Set.mem_insert _ _)
  have hmem : ∀ a ∈ A ++ block :: B, a ∈ insert block {a | a ∈ A ++ B} := by
    intro a ha
    exact List.mem_cons.mp (List.perm_middle.mem_iff.mp ha)
  have hout : block ∉ 0 :: (A ++ B) := by
    rw [List.mem_cons]
    exact not_or.mpr ⟨hne, hnot⟩
  have hlinked := (storedLinks m head).linked_linkIn h.linked h.nodup
    h.headers.zero_not_mem hout hne
  exact ⟨hholds.linked hS hlinked hmem, sorted_insert h.sorted hnot hA hB,
    hS.mono hmem⟩

/-- `insertBlock` puts a new block in its place. -/
theorem insertBlock_eq (h : BlockOrderList m head l)
    (hS : Headers (insert block {a | a ∈ l})) (hnot : block ∉ l) :
    ∃ m' head' A B, l = A ++ B ∧ insertBlock m head block = some (m', head') ∧
      BlockOrderList m' head' (A ++ block :: B) ∧
      AgreeOff (linkBytes (insert block {a | a ∈ l})) m m' := by
  have hb : block ∈ insert block {a | a ∈ l} := Set.mem_insert _ _
  have hb0 := hS.ne_zero hb
  have hstored := Holds.stored hS m head
  by_cases hhead : head = 0
  · obtain rfl : l = [] := h.head_eq_zero_iff.mp hhead
    have hholds := ((hstored.clearLinks hS hb).setHead hS block).updatePrevNull hS block
    refine ⟨clearLinks m block, block, [], [], rfl, ?_, ?_, hholds.frame⟩
    · simp [insertBlock, hb0, hhead]
    · exact h.insert_holds (A := []) (B := []) hS hnot (by simp) (by simp) hholds
  obtain ⟨A, B, rfl, hA, hB, hseek⟩ := seek_eq block h.linked
    (fun a ha => h.ne_zero ha) h.length_lt_loopBound
  rw [← h.head_eq] at hseek
  cases A with
  | nil =>
      have hheadD : head = B.headD 0 := h.head_eq
      have hmem : head ∈ insert block {a | a ∈ [] ++ B} := by
        rw [hheadD] at hhead ⊢
        exact Or.inr (headD_mem hhead)
      have hne : block ≠ head := by
        rw [hheadD]
        exact ne_headD_of_not_mem hnot hb0
      have hholds := (((hstored.setNext hS hb (hS.lt hmem)).setPrev hS hmem
        (hS.lt hb)).setPrev hS hb addressLimit_pos).setHead hS block
      rw [Links.setPrev_comm _ hne] at hholds
      refine ⟨_, block, [], B, rfl, ?_, ?_, hholds.frame⟩
      · simp only [insertBlock, if_neg hb0, if_neg hhead, hseek, endOf_nil, if_true]
      · apply h.insert_holds hS hnot hA hB
        rw [← hheadD]
        exact hholds
  | cons a A =>
      have hend : endOf 0 (a :: A) ∈ a :: A := endOf_mem a A
      have hp : endOf 0 (a :: A) ∈ insert block {c | c ∈ a :: A ++ B} :=
        Or.inr (List.mem_append_left B hend)
      have hq (hne : B.headD 0 ≠ 0) :
          B.headD 0 ∈ insert block {c | c ∈ a :: A ++ B} :=
        Or.inr (List.mem_append_right _ (headD_mem hne))
      have hholds := (((hstored.setNext hS hb (hS.lt_of_imp hq)).setPrev hS hb
        (hS.lt hp)).setNext hS hp (hS.lt hb)).setPrevOfNe hS hq (hS.lt hb)
      refine ⟨_, head, a :: A, B, rfl, ?_, h.insert_holds hS hnot hA hB hholds,
        hholds.frame⟩
      simp only [insertBlock, if_neg hb0, if_neg hhead, hseek, if_neg (hS.ne_zero hp)]

/-! ## `removeFirst` and `removeBlock` -/

/-- The memory holds the links of the list without `block`. -/
theorem remove_holds (h : BlockOrderList m head (A ++ block :: B))
    (hholds : Holds {a | a ∈ A ++ block :: B} m m' head'
      ((storedLinks m head).linkOut 0 (endOf 0 A) block (B.headD 0))) :
    BlockOrderList m' head' (A ++ B) ∧ getNext m' block = 0 ∧ getPrev m' block = 0 := by
  have hblock : block ∈ A ++ block :: B := by simp
  have hsub : (A ++ B).Sublist (A ++ block :: B) :=
    List.Sublist.append_left (List.sublist_cons_self block B) A
  have hnot : block ∉ A ++ B :=
    (List.nodup_cons.mp (List.nodup_middle.mp (List.nodup_cons.mp h.nodup).2)).1
  have hout : block ∉ 0 :: (A ++ B) := by
    rw [List.mem_cons]
    exact not_or.mpr ⟨h.ne_zero hblock, hnot⟩
  have hlinked := (storedLinks m head).linked_linkOut h.linked
    (h.nodup.sublist (hsub.cons_cons 0)) (fun h0 => h.ne_zero (hsub.subset h0) rfl) hout
  refine ⟨⟨?_, h.sorted.sublist hsub, ?_⟩, ?_, ?_⟩
  · exact hholds.linked h.headers hlinked fun a ha => hsub.subset ha
  · exact h.headers.mono fun a ha => hsub.subset ha
  · rw [hholds.next_eq block hblock, Links.linkOut_next, Function.update_self]
  · rw [hholds.prev_eq block hblock, Links.linkOut_prev, Function.update_self]

/-- `removeFirst` takes the first member off and clears its links. -/
theorem removeFirst_eq (h : BlockOrderList m head (block :: B)) :
    ∃ m', removeFirst m head = (m', B.headD 0, block) ∧
      (BlockOrderList m' (B.headD 0) B ∧ getNext m' block = 0 ∧ getPrev m' block = 0) ∧
      AgreeOff (linkBytes {a | a ∈ block :: B}) m m' := by
  obtain rfl : head = block := h.head_eq
  have hmem : head ∈ head :: B := List.mem_cons_self ..
  have hb0 := h.ne_zero hmem
  have hnext : getNext m head = B.headD 0 := by
    rw [← headed_of_ne m head hb0]
    exact h.linked.2.2.next_eq
  have hq (hne : B.headD 0 ≠ 0) : B.headD 0 ∈ {a | a ∈ head :: B} :=
    List.mem_cons_of_mem _ (headD_mem hne)
  have hS := h.headers
  have hholds := (((Holds.stored hS m head).setHead hS (B.headD 0)).setPrevOfNe hS hq
    addressLimit_pos).clearLinks hS hmem
  refine ⟨_, ?_, remove_holds (A := []) h hholds, hholds.frame⟩
  simp only [removeFirst, if_neg hb0, hnext]

/-- `removeBlock` takes a member out and clears its links. -/
theorem removeBlock_eq (h : BlockOrderList m head (A ++ block :: B)) :
    ∃ m' head', removeBlock m head block = (m', head', block) ∧
      (BlockOrderList m' head' (A ++ B) ∧ getNext m' block = 0 ∧ getPrev m' block = 0) ∧
      AgreeOff (linkBytes {a | a ∈ A ++ block :: B}) m m' := by
  have hmem : block ∈ A ++ block :: B := by simp
  have hb0 := h.ne_zero hmem
  cases A with
  | nil =>
      obtain ⟨m', hrun, hlist, hframe⟩ := h.removeFirst_eq
      obtain rfl : head = block := h.head_eq
      refine ⟨m', B.headD 0, ?_, hlist, hframe⟩
      rw [removeBlock, if_neg hb0, if_pos rfl, hrun]
  | cons a A =>
      have hp : endOf 0 (a :: A) ∈ a :: A ++ block :: B :=
        List.mem_append_left _ (endOf_mem a A)
      have hp0 := h.ne_zero hp
      have hhead : block ≠ head := by
        rintro rfl
        obtain rfl : block = a := h.head_eq
        have hnodup := (List.nodup_cons.mp h.nodup).2
        exact (List.nodup_cons.mp hnodup).1
          (List.mem_append_right A (List.mem_cons_self ..))
      obtain ⟨hprev, hnext⟩ := h.linked.neighbours
      rw [headed_of_ne _ _ hb0] at hnext
      have hq (hne : B.headD 0 ≠ 0) : B.headD 0 ∈ {c | c ∈ a :: A ++ block :: B} :=
        List.mem_append_right _ (List.mem_cons_of_mem _ (headD_mem hne))
      have hS := h.headers
      have hholds := (((Holds.stored hS m head).setNext hS hp
        (hS.lt_of_imp hq)).setPrevOfNe hS hq (hS.lt hp)).clearLinks hS hmem
      refine ⟨_, head, ?_, h.remove_holds hholds, hholds.frame⟩
      simp only [removeBlock, if_neg hb0, if_neg hhead, hprev, hnext, ne_eq, hp0,
        not_false_eq_true, if_true]

/-- Taking out the block that has just been put in restores all other bytes. -/
theorem removeBlock_of_inserted (h : BlockOrderList m head (A ++ B))
    (h' : BlockOrderList m' head' (A ++ block :: B))
    (hframe : AgreeOff (linkBytes (insert block {a | a ∈ A ++ B})) m m') :
    ∃ m'', removeBlock m' head' block = (m'', head, block) ∧
      BlockOrderList m'' head (A ++ B) ∧ AgreeOff (linkBytes {block}) m m'' := by
  obtain ⟨m'', head'', hrun, ⟨hlist, -⟩, hframe'⟩ := h'.removeBlock_eq
  obtain ⟨rfl, hlinks⟩ := h.links_eq hlist
  refine ⟨m'', hrun, hlist, ?_⟩
  have hmem {a : ℕ} : a ∈ A ++ block :: B ↔ a = block ∨ a ∈ A ++ B := by
    rw [List.perm_middle.mem_iff, List.mem_cons]
  intro x hx
  by_cases hin : x ∈ linkBytes {a | a ∈ A ++ B}
  · obtain ⟨a, ha, hlo, hhi⟩ := hin
    obtain ⟨hnext, hprev⟩ := hlinks a ha
    by_cases hlt : x < a + 24
    · exact byte_eq_of_readLE_eq hnext hlo (by omega)
    · exact byte_eq_of_readLE_eq hprev (by omega) (by omega)
  · have hout : x ∉ linkBytes (insert block {a | a ∈ A ++ B}) := by
      rintro ⟨a, rfl | ha, hax⟩
      · exact hx ⟨a, rfl, hax⟩
      · exact hin ⟨a, ha, hax⟩
    have hout' : x ∉ linkBytes {a | a ∈ A ++ block :: B} := by
      rintro ⟨a, ha, hax⟩
      exact hout ⟨a, hmem.mp ha, hax⟩
    rw [hframe' x hout', hframe x hout]

end BlockOrderList

/-! ## The operations on any list -/

/-- The members of `l` and `block` are now the list at `head'`, and only their links have
been written. -/
structure Inserted (m : Mem) (l : List ℕ) (block : ℕ) (m' : Mem) (head' : ℕ) : Prop where
  list : ∃ l', BlockOrderList m' head' l' ∧ ∀ a, a ∈ l' ↔ a = block ∨ a ∈ l
  frame : AgreeOff (linkBytes (insert block {a | a ∈ l})) m m'

/-- The members of `l` other than `block` are now the list at `head'`, the links of
`block` are cleared, and only links of `l` have been written. -/
structure Removed (m : Mem) (l : List ℕ) (block : ℕ) (m' : Mem) (head' : ℕ) : Prop where
  list : ∃ l', BlockOrderList m' head' l' ∧ ∀ a, a ∈ l' ↔ a ≠ block ∧ a ∈ l
  next_eq : getNext m' block = 0
  prev_eq : getPrev m' block = 0
  frame : AgreeOff (linkBytes {a | a ∈ l}) m m'

/-- Membership around a member, which occurs once. -/
theorem BlockOrderList.mem_around_iff {m : Mem} {head block : ℕ} {A B : List ℕ}
    (h : BlockOrderList m head (A ++ block :: B)) (a : ℕ) :
    a ∈ A ++ B ↔ a ≠ block ∧ a ∈ A ++ block :: B := by
  have hnodup := (List.nodup_cons.mp h.nodup).2
  have hnot := (List.nodup_cons.mp (List.nodup_middle.mp hnodup)).1
  rw [List.perm_middle.mem_iff, List.mem_cons]
  constructor
  · intro ha
    exact ⟨ne_of_mem_of_not_mem ha hnot, Or.inr ha⟩
  · rintro ⟨hne, rfl | ha⟩
    · exact absurd rfl hne
    · exact ha

/-- What `insertBlock`, `removeBlock` and `removeFirst` do to a list of any length. -/
theorem blockOrderList_operations {m : Mem} {head : ℕ} {l : List ℕ}
    (h : BlockOrderList m head l) :
    (∀ block, Headers (insert block {a | a ∈ l}) → block ∉ l →
      ∃ m' head' m'', insertBlock m head block = some (m', head') ∧
        Inserted m l block m' head' ∧
        removeBlock m' head' block = (m'', head, block) ∧
        BlockOrderList m'' head l ∧ AgreeOff (linkBytes {block}) m m'') ∧
    (∀ block ∈ l, ∃ m' head', removeBlock m head block = (m', head', block) ∧
      Removed m l block m' head') ∧
    (l = [] → removeFirst m head = (m, head, 0)) ∧
    (l ≠ [] → head ∈ l ∧ (∀ a ∈ l, head ≤ a) ∧
      ∃ m' head', removeFirst m head = (m', head', head) ∧
        Removed m l head m' head') := by
  refine ⟨?_, ?_, ?_, ?_⟩
  · intro block hS hnot
    obtain ⟨m', head', A, B, rfl, hrun, hlist, hframe⟩ := h.insertBlock_eq hS hnot
    obtain ⟨m'', hrun', hlist', hframe'⟩ := h.removeBlock_of_inserted hlist hframe
    refine ⟨m', head', m'', hrun, ⟨⟨_, hlist, ?_⟩, hframe⟩, hrun', hlist', hframe'⟩
    intro a
    rw [List.perm_middle.mem_iff, List.mem_cons]
  · intro block hmem
    obtain ⟨A, B, rfl⟩ := List.append_of_mem hmem
    obtain ⟨m', head', hrun, ⟨hlist, hnext, hprev⟩, hframe⟩ := h.removeBlock_eq
    exact ⟨m', head', hrun, ⟨_, hlist, h.mem_around_iff⟩, hnext, hprev, hframe⟩
  · intro hnil
    have hhead := h.head_eq_zero_iff.mpr hnil
    rw [removeFirst, if_pos hhead]
  · intro hne
    obtain ⟨a, B, rfl⟩ := List.exists_cons_of_ne_nil hne
    obtain ⟨m', hrun, ⟨hlist, hnext, hprev⟩, hframe⟩ := h.removeFirst_eq
    obtain rfl : head = a := h.head_eq
    have hleast : ∀ c ∈ head :: B, head ≤ c := by
      intro c hc
      rcases List.mem_cons.mp hc with rfl | hc
      · exact Nat.le_refl _
      · exact Nat.le_of_lt ((List.pairwise_cons.mp h.sorted).1 c hc)
    refine ⟨List.mem_cons_self .., hleast, m', B.headD 0, hrun, ?_⟩
    exact ⟨⟨B, hlist, BlockOrderList.mem_around_iff (A := []) h⟩, hnext, hprev, hframe⟩

/-- Two blocks with room for one between them. -/
theorem blockOrderList_operations_pair :
    ∃ m, BlockOrderList m 4096 [4096, 4352] ∧
      (∃ m' head' m'', insertBlock m 4096 4224 = some (m', head') ∧
        Inserted m [4096, 4352] 4224 m' head' ∧
        removeBlock m' head' 4224 = (m'', 4096, 4224) ∧
        BlockOrderList m'' 4096 [4096, 4352] ∧ AgreeOff (linkBytes {4224}) m m'') ∧
      (∃ m' head', removeBlock m 4096 4352 = (m', head', 4352) ∧
        Removed m [4096, 4352] 4352 m' head') ∧
      ∃ m' head', removeFirst m 4096 = (m', head', 4096) ∧
        Removed m [4096, 4352] 4096 m' head' := by
  have hS : Headers (insert 4224 {a | a ∈ [4096, 4352]}) := by
    have hslots : ∀ a ∈ [4224, 4096, 4352],
        0 < a ∧ 32 ∣ a ∧ a + 32 ≤ addressLimit := by
      decide
    apply Headers.of_slot
    intro a ha
    obtain ⟨hpos, hdvd, hle⟩ := hslots a (List.mem_cons.mpr ha)
    exact ⟨hpos, hdvd, hle⟩
  have h : BlockOrderList (setPrev (setNext (fun _ => 0) 4096 4352) 4352 4096) 4096
      [4096, 4352] := by
    refine ⟨⟨rfl, ?_, ?_, ?_, ?_⟩, by decide, hS.mono (Set.subset_insert _ _)⟩
    · decide +kernel
    · decide +kernel
    · decide +kernel
    · change headed _ _ 4352 = 0
      decide +kernel
  obtain ⟨hinsert, hremove, -, hfirst⟩ := blockOrderList_operations h
  obtain ⟨-, -, hrun⟩ := hfirst (by simp)
  exact ⟨_, h, hinsert 4224 hS (by decide), hremove 4352 (by decide), hrun⟩

end OsCoursework.Allocator
