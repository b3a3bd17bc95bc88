import OsCoursework.Allocator.Machine

/-!
# Header fields

Reading and writing the four fields of a block header.  Headers sit at
multiples of 32, so the fields of two headers never overlap unless the headers
are the same; `Slot` is the condition under which this reasoning applies.
-/

namespace OsCoursework.Allocator

open OsCoursework.Bytes

/-- The number of addresses, and of values of a pointer or a `size_t`. -/
def addressLimit : ℕ := 2 ^ 64

@[simp] theorem addressLimit_pos : 0 < addressLimit := Nat.two_pow_pos 64

/-- No request that is served makes the total size wrap around. -/
theorem add64_of_le_max {size : ℕ} (h : size ≤ maxAllocationSize) :
    add64 size sizeofMetaData = size + sizeofMetaData := by
  rw [add64]
  apply Nat.mod_eq_of_lt
  rw [maxAllocationSize] at h
  rw [sizeofMetaData]
  omega

/-- An address at which a block header may sit. -/
structure Slot (a : ℕ) : Prop where
  pos : 0 < a
  dvd : 32 ∣ a
  le : a + 32 ≤ addressLimit

theorem Slot.ne_zero {a : ℕ} (h : Slot a) : a ≠ 0 :=
  Nat.ne_of_gt h.pos

theorem Slot.lt {a : ℕ} (h : Slot a) : a < addressLimit := by
  have := h.le
  omega

/-! ## Writes followed by reads -/

section Fields

variable (m : Mem) {a b v : ℕ}

theorem readLE_writeLE_of_disjoint {n k : ℕ}
    (h : a + n ≤ b ∨ b + k ≤ a) :
    readLE (writeLE m b k v) a n = readLE m a n := by
  apply (agreeOff_writeLE m b k v).readLE_eq
  intro x hx hxn
  rw [mem_range]
  omega

theorem readLE_writeLE_word (h : v < addressLimit) :
    readLE (writeLE m a 8 v) a 8 = v := by
  rw [readLE_writeLE_self]
  exact Nat.mod_eq_of_lt h

theorem getSize_setSize (ha : 32 ∣ a) (hb : 32 ∣ b) (hv : v < addressLimit) :
    getSize (setSize m a v) b = if b = a then v else getSize m b := by
  split
  · next h => exact h ▸ readLE_writeLE_word m hv
  · exact readLE_writeLE_of_disjoint m (by omega)

theorem getSize_setIsFree (ha : 32 ∣ a) (hb : 32 ∣ b) (f : Bool) :
    getSize (setIsFree m a f) b = getSize m b :=
  readLE_writeLE_of_disjoint m (by omega)

theorem getSize_setNext (ha : 32 ∣ a) (hb : 32 ∣ b) :
    getSize (setNext m a v) b = getSize m b :=
  readLE_writeLE_of_disjoint m (by omega)

theorem getSize_setPrev (ha : 32 ∣ a) (hb : 32 ∣ b) :
    getSize (setPrev m a v) b = getSize m b :=
  readLE_writeLE_of_disjoint m (by omega)

theorem getNext_setSize (ha : 32 ∣ a) (hb : 32 ∣ b) :
    getNext (setSize m a v) b = getNext m b :=
  readLE_writeLE_of_disjoint m (by omega)

theorem getNext_setIsFree (ha : 32 ∣ a) (hb : 32 ∣ b) (f : Bool) :
    getNext (setIsFree m a f) b = getNext m b :=
  readLE_writeLE_of_disjoint m (by omega)

theorem getPrev_setSize (ha : 32 ∣ a) (hb : 32 ∣ b) :
    getPrev (setSize m a v) b = getPrev m b :=
  readLE_writeLE_of_disjoint m (by omega)

theorem getPrev_setIsFree (ha : 32 ∣ a) (hb : 32 ∣ b) (f : Bool) :
    getPrev (setIsFree m a f) b = getPrev m b :=
  readLE_writeLE_of_disjoint m (by omega)

theorem isFree_writeLE_of_disjoint {k : ℕ}
    (h : a + 8 < b ∨ b + k ≤ a + 8) :
    isFree (writeLE m b k v) a = isFree m a := by
  have hbyte : writeLE m b k v (a + 8) = m (a + 8) :=
    agreeOff_writeLE m b k v (a + 8) (by rw [mem_range]; omega)
  rw [isFree, isFree, hbyte]

theorem isFree_setSize (ha : 32 ∣ a) (hb : 32 ∣ b) :
    isFree (setSize m a v) b = isFree m b :=
  isFree_writeLE_of_disjoint m (by omega)

theorem isFree_setNext (ha : 32 ∣ a) (hb : 32 ∣ b) :
    isFree (setNext m a v) b = isFree m b :=
  isFree_writeLE_of_disjoint m (by omega)

theorem isFree_setPrev (ha : 32 ∣ a) (hb : 32 ∣ b) :
    isFree (setPrev m a v) b = isFree m b :=
  isFree_writeLE_of_disjoint m (by omega)

theorem isFree_setIsFree (ha : 32 ∣ a) (hb : 32 ∣ b) (f : Bool) :
    isFree (setIsFree m a f) b = if b = a then f else isFree m b := by
  split
  · next h =>
    subst h
    simp only [isFree, setIsFree, writeLE]
    rw [if_pos (by omega)]
    cases f <;> simp
  · exact isFree_writeLE_of_disjoint m (by omega)

end Fields

/-! ## Frames -/

/-- The link words of the headers at the addresses of `S`. -/
def linkBytes (S : Set ℕ) : Set ℕ :=
  {x | ∃ a ∈ S, a + 16 ≤ x ∧ x < a + 32}

/-- The bytes of the headers at the addresses of `S`. -/
def headerBytes (S : Set ℕ) : Set ℕ :=
  {x | ∃ a ∈ S, a ≤ x ∧ x < a + 32}

theorem linkBytes_mono {S T : Set ℕ} (h : S ⊆ T) : linkBytes S ⊆ linkBytes T := by
  rintro x ⟨a, ha, hx⟩
  exact ⟨a, h ha, hx⟩

theorem headerBytes_mono {S T : Set ℕ} (h : S ⊆ T) :
    headerBytes S ⊆ headerBytes T := by
  rintro x ⟨a, ha, hx⟩
  exact ⟨a, h ha, hx⟩

theorem linkBytes_subset_headerBytes (S : Set ℕ) :
    linkBytes S ⊆ headerBytes S := by
  rintro x ⟨a, ha, hx, hx'⟩
  exact ⟨a, ha, by omega, hx'⟩

section Frames

variable {m m' : Mem} {W S : Set ℕ} {a : ℕ}

/-- The four fields of a header whose bytes are not touched. -/
theorem fields_eq_of_agreeOff (h : AgreeOff W m m')
    (hW : ∀ x, a ≤ x → x < a + 32 → x ∉ W) :
    getSize m' a = getSize m a ∧ isFree m' a = isFree m a ∧
      getNext m' a = getNext m a ∧ getPrev m' a = getPrev m a := by
  refine ⟨?_, ?_, ?_, ?_⟩
  · exact h.readLE_eq fun x hx hxn => hW x hx (by omega)
  · rw [isFree, isFree, h _ (hW _ (by omega) (by omega))]
  · exact h.readLE_eq fun x hx hxn => hW x (by omega) (by omega)
  · exact h.readLE_eq fun x hx hxn => hW x (by omega) (by omega)

/-- A header outside `S` keeps its fields when only headers of `S` change. -/
theorem fields_eq_of_agreeOff_headers (h : AgreeOff (headerBytes S) m m')
    (hS : ∀ b ∈ S, 32 ∣ b) (ha : 32 ∣ a) (hnot : a ∉ S) :
    getSize m' a = getSize m a ∧ isFree m' a = isFree m a ∧
      getNext m' a = getNext m a ∧ getPrev m' a = getPrev m a := by
  apply fields_eq_of_agreeOff h
  rintro x hx hxn ⟨b, hb, hbx, hbx'⟩
  have hdvd := hS b hb
  have heq : a = b := by omega
  exact hnot (heq ▸ hb)

/-- Only links of the headers in `S`, all of them at multiples of 32, have been
written. -/
structure Relinks (S : Set ℕ) (m m' : Mem) : Prop where
  agree : AgreeOff (linkBytes S) m m'
  dvd : ∀ b ∈ S, 32 ∣ b

namespace Relinks

variable {T : Set ℕ} {m'' : Mem}

theorem mono (h : Relinks S m m') (hST : S ⊆ T) (hT : ∀ b ∈ T, 32 ∣ b) : Relinks T m m' :=
  ⟨h.agree.mono (linkBytes_mono hST), hT⟩

theorem trans (h : Relinks S m m') (h' : Relinks S m' m'') : Relinks S m m'' :=
  ⟨h.agree.trans h'.agree, h.dvd⟩

/-- Rewriting links leaves sizes and flags alone. -/
theorem size_isFree_eq (h : Relinks S m m') (ha : 32 ∣ a) :
    getSize m' a = getSize m a ∧ isFree m' a = isFree m a := by
  have hW (x : ℕ) (hx : a ≤ x) (hxn : x < a + 16) : x ∉ linkBytes S := by
    rintro ⟨b, hb, hbx, hbx'⟩
    have hdvd := h.dvd b hb
    omega
  refine ⟨h.agree.readLE_eq fun x hx hxn => hW x hx (by omega), ?_⟩
  rw [isFree, isFree, h.agree _ (hW _ (by omega) (by omega))]

theorem agreeOff_headers (h : Relinks S m m') (hST : S ⊆ T) :
    AgreeOff (headerBytes T) m m' :=
  h.agree.mono ((linkBytes_subset_headerBytes S).trans (headerBytes_mono hST))

end Relinks

end Frames

/-! ## What each setter writes -/

theorem agreeOff_setNext (m : Mem) {a v : ℕ} {S : Set ℕ} (ha : a ∈ S) :
    AgreeOff (linkBytes S) m (setNext m a v) := by
  apply (agreeOff_writeLE m (a + 16) 8 v).mono
  rintro x ⟨hx, hx'⟩
  exact ⟨a, ha, hx, by omega⟩

theorem agreeOff_setPrev (m : Mem) {a v : ℕ} {S : Set ℕ} (ha : a ∈ S) :
    AgreeOff (linkBytes S) m (setPrev m a v) := by
  apply (agreeOff_writeLE m (a + 24) 8 v).mono
  rintro x ⟨hx, hx'⟩
  exact ⟨a, ha, by omega, by omega⟩

theorem agreeOff_clearLinks (m : Mem) {a : ℕ} {S : Set ℕ} (ha : a ∈ S) :
    AgreeOff (linkBytes S) m (clearLinks m a) :=
  (agreeOff_setNext m ha).trans (agreeOff_setPrev _ ha)

theorem agreeOff_setSize (m : Mem) {a v : ℕ} {S : Set ℕ} (ha : a ∈ S) :
    AgreeOff (headerBytes S) m (setSize m a v) := by
  apply (agreeOff_writeLE m a 8 v).mono
  rintro x ⟨hx, hx'⟩
  exact ⟨a, ha, hx, by omega⟩

theorem agreeOff_setIsFree (m : Mem) {a : ℕ} {S : Set ℕ} (ha : a ∈ S)
    (f : Bool) : AgreeOff (headerBytes S) m (setIsFree m a f) := by
  apply (agreeOff_writeLE m (a + 8) 1 f.toNat).mono
  rintro x ⟨hx, hx'⟩
  exact ⟨a, ha, by omega, by omega⟩

end OsCoursework.Allocator
