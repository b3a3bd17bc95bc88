import Mathlib.Algebra.BigOperators.Group.Finset.Basic
import Mathlib.Data.Set.Basic
import Mathlib.Data.Nat.Digits.Defs
import Mathlib.Order.CompletePartialOrder
import Mathlib.Order.Interval.Finset.Nat
import Mathlib.Tactic.Ring

/-!
# Byte-addressed memory

A memory is a total map from addresses to bytes.  Multi-byte integers are read
and written little-endian.  Besides the two accessors this module holds the
frame vocabulary of the developments above it: `AgreeOff W m m'` says that `m`
and `m'` differ at most on the set `W` of addresses.
-/

namespace OsCoursework.Bytes

/-- A byte-addressed memory. -/
abbrev Mem := ℕ → UInt8

/-- The little-endian value of the `n` bytes starting at an address. -/
def readLE (m : Mem) : ℕ → ℕ → ℕ
  | _, 0 => 0
  | a, n + 1 => (m a).toNat + 256 * readLE m (a + 1) n

/-- Store the low `n` bytes of `v`, little-endian, starting at `a`. -/
def writeLE (m : Mem) (a n v : ℕ) : Mem :=
  fun x => if a ≤ x ∧ x < a + n then UInt8.ofNat (v / 256 ^ (x - a)) else m x

/-- Set `n` bytes starting at `a` to the same value. -/
def fill (m : Mem) (a : ℕ) (v : UInt8) (n : ℕ) : Mem :=
  fun x => if a ≤ x ∧ x < a + n then v else m x

/-- Copy `n` bytes from `src` to `dst`; overlapping ranges are read before any
byte is written. -/
def copy (m : Mem) (dst src n : ℕ) : Mem :=
  fun x => if dst ≤ x ∧ x < dst + n then m (src + (x - dst)) else m x

/-! ## Reading back -/

/-- Reading depends only on the bytes read. -/
theorem readLE_congr
    {m m' : Mem} {a n : ℕ}
    (h : ∀ x, a ≤ x → x < a + n → m' x = m x) :
    readLE m' a n = readLE m a n := by
  induction n generalizing a with
  | zero => rfl
  | succ n ih =>
      have hhead : m' a = m a := h a (Nat.le_refl a) (by omega)
      have htail : readLE m' (a + 1) n = readLE m (a + 1) n := by
        apply ih
        intro x hx hxn
        exact h x (by omega) (by omega)
      simp only [readLE, hhead, htail]

/-- A range that holds the little-endian digits of `v` reads as `v`, reduced
to the width of the range. -/
theorem readLE_of_digits
    {m : Mem} {a n v : ℕ}
    (h : ∀ i, i < n → m (a + i) = UInt8.ofNat (v / 256 ^ i)) :
    readLE m a n = v % 256 ^ n := by
  induction n generalizing a v with
  | zero => simp [readLE, Nat.mod_one]
  | succ n ih =>
      have hhead : (m a).toNat = v % 256 := by
        have h0 := h 0 (Nat.succ_pos n)
        simp only [Nat.add_zero, pow_zero, Nat.div_one] at h0
        rw [h0, UInt8.toNat_ofNat']
      have htail : readLE m (a + 1) n = (v / 256) % 256 ^ n := by
        apply ih
        intro i hi
        have hi' := h (i + 1) (by omega)
        rw [Nat.div_div_eq_div_mul, ← pow_succ']
        rw [show a + 1 + i = a + (i + 1) by omega, hi']
      rw [readLE, hhead, htail, pow_succ', Nat.mod_mul]

/-- Reading a range just written returns the value, reduced to the width of
the range. -/
theorem readLE_writeLE_self (m : Mem) (a n v : ℕ) :
    readLE (writeLE m a n v) a n = v % 256 ^ n := by
  apply readLE_of_digits
  intro i hi
  simp only [writeLE]
  rw [if_pos (by omega), Nat.add_sub_cancel_left]

/-- The bytes of a range are the digits of its value. -/
theorem ofNat_readLE_div (m : Mem) (a : ℕ) {n i : ℕ} (hi : i < n) :
    UInt8.ofNat (readLE m a n / 256 ^ i) = m (a + i) := by
  induction n generalizing a i with
  | zero => omega
  | succ n ih =>
      have hbyte : (m a).toNat < 256 := (m a).toNat_lt
      cases i with
      | zero =>
          apply UInt8.toNat_inj.mp
          change _ = (m a).toNat
          rw [readLE, pow_zero, Nat.div_one, UInt8.toNat_ofNat']
          omega
      | succ i =>
          have htail : readLE m a (n + 1) / 256 = readLE m (a + 1) n := by
            rw [readLE]
            omega
          rw [pow_succ', ← Nat.div_div_eq_div_mul, htail, ih _ (by omega)]
          congr 1
          omega

/-- Equal words have equal bytes. -/
theorem byte_eq_of_readLE_eq {m m' : Mem} {a n x : ℕ} (h : readLE m' a n = readLE m a n)
    (hx : a ≤ x) (hxn : x < a + n) : m' x = m x := by
  have hi : x - a < n := by omega
  have hbyte := ofNat_readLE_div m' a hi
  rw [h, ofNat_readLE_div m a hi, Nat.add_sub_cancel' hx] at hbyte
  exact hbyte.symm

/-! ## Frames -/

/-- The two memories agree at every address outside `W`. -/
def AgreeOff (W : Set ℕ) (m m' : Mem) : Prop :=
  ∀ x, x ∉ W → m' x = m x

theorem AgreeOff.refl (W : Set ℕ) (m : Mem) : AgreeOff W m m :=
  fun _ _ => rfl

theorem AgreeOff.mono
    {V W : Set ℕ} {m m' : Mem}
    (h : AgreeOff V m m') (hVW : V ⊆ W) : AgreeOff W m m' :=
  fun x hx => h x (fun hV => hx (hVW hV))

theorem AgreeOff.trans
    {W : Set ℕ} {m₁ m₂ m₃ : Mem}
    (h₁₂ : AgreeOff W m₁ m₂) (h₂₃ : AgreeOff W m₂ m₃) :
    AgreeOff W m₁ m₃ := by
  intro x hx
  rw [h₂₃ x hx, h₁₂ x hx]

/-- A read is unaffected by changes outside the bytes read. -/
theorem AgreeOff.readLE_eq
    {W : Set ℕ} {m m' : Mem} {a n : ℕ}
    (h : AgreeOff W m m')
    (hW : ∀ x, a ≤ x → x < a + n → x ∉ W) :
    readLE m' a n = readLE m a n :=
  readLE_congr fun x hx hxn => h x (hW x hx hxn)

/-- The addresses `a, ..., a + n - 1`. -/
def range (a n : ℕ) : Set ℕ :=
  {x | a ≤ x ∧ x < a + n}

@[simp] theorem mem_range {a n x : ℕ} :
    x ∈ range a n ↔ a ≤ x ∧ x < a + n :=
  Iff.rfl

/-- Disjoint ranges inside one range have at most its length in total. -/
theorem sum_length_le {ι : Type*} {S : Finset ι} {a len : ι → ℕ} (lo n : ℕ)
    (hdisjoint : ∀ i ∈ S, ∀ j ∈ S, i ≠ j →
      Disjoint (range (a i) (len i)) (range (a j) (len j)))
    (hsub : ∀ i ∈ S, range (a i) (len i) ⊆ range lo n) :
    ∑ i ∈ S, len i ≤ n := by
  classical
  have hmem (i : ι) (x : ℕ) :
      x ∈ Finset.Ico (a i) (a i + len i) ↔ x ∈ range (a i) (len i) :=
    Finset.mem_Ico
  have hpairwise : (S : Set ι).PairwiseDisjoint
      fun i => Finset.Ico (a i) (a i + len i) := by
    intro i hi j hj hne
    refine Finset.disjoint_left.mpr fun x hx hx' => ?_
    exact Set.disjoint_left.mp (hdisjoint i hi j hj hne)
      ((hmem i x).mp hx) ((hmem j x).mp hx')
  have hunion : (S.biUnion fun i => Finset.Ico (a i) (a i + len i)) ⊆
      Finset.Ico lo (lo + n) := by
    intro x hx
    obtain ⟨i, hi, hxi⟩ := Finset.mem_biUnion.mp hx
    exact Finset.mem_Ico.mpr (hsub i hi ((hmem i x).mp hxi))
  calc ∑ i ∈ S, len i
      = ∑ i ∈ S, (Finset.Ico (a i) (a i + len i)).card := by
        simp only [Nat.card_Ico, Nat.add_sub_cancel_left]
    _ = (S.biUnion fun i => Finset.Ico (a i) (a i + len i)).card :=
        (Finset.card_biUnion hpairwise).symm
    _ ≤ (Finset.Ico lo (lo + n)).card := Finset.card_le_card hunion
    _ = n := by rw [Nat.card_Ico, Nat.add_sub_cancel_left]

theorem agreeOff_writeLE (m : Mem) (a n v : ℕ) :
    AgreeOff (range a n) m (writeLE m a n v) := by
  intro x hx
  simp only [writeLE]
  exact if_neg hx

theorem agreeOff_fill (m : Mem) (a : ℕ) (v : UInt8) (n : ℕ) :
    AgreeOff (range a n) m (fill m a v n) := by
  intro x hx
  simp only [fill]
  exact if_neg hx

theorem agreeOff_copy (m : Mem) (dst src n : ℕ) :
    AgreeOff (range dst n) m (copy m dst src n) := by
  intro x hx
  simp only [copy]
  exact if_neg hx

theorem fill_apply (m : Mem) {a n i : ℕ} (v : UInt8) (hi : i < n) :
    fill m a v n (a + i) = v := by
  simp only [fill]
  exact if_pos ⟨Nat.le_add_right a i, by omega⟩

/-- A copy takes the bytes from where they were before it. -/
theorem copy_apply (m : Mem) {dst src n i : ℕ} (hi : i < n) :
    copy m dst src n (dst + i) = m (src + i) := by
  simp only [copy]
  rw [if_pos ⟨Nat.le_add_right dst i, by omega⟩, Nat.add_sub_cancel_left]

end OsCoursework.Bytes
