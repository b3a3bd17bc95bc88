import Mathlib.Data.Nat.Bitwise
import Mathlib.Tactic.Ring

/-!
# Dyadic blocks

A dyadic block of order `k` is one of the aligned intervals of length `2 ^ k`
of the natural numbers.  It is stored as its order and its index among the
intervals of that order, so a block that is not aligned to its own length
cannot be written down.  Two blocks are either nested or disjoint, every block
below the top has a buddy, and the two buddies make up their parent.
-/

namespace OsCoursework.Dyadic

/-- The interval `[index * 2 ^ order, (index + 1) * 2 ^ order)`. -/
structure Block where
  order : ℕ
  index : ℕ
deriving DecidableEq, Repr

namespace Block

/-- The first point of a block. -/
def first (b : Block) : ℕ :=
  b.index * 2 ^ b.order

/-- `x` is a point of `b`. -/
def Contains (b : Block) (x : ℕ) : Prop :=
  x / 2 ^ b.order = b.index

instance (b : Block) (x : ℕ) : Decidable (b.Contains x) :=
  inferInstanceAs (Decidable (_ = _))

/-- The lower half of a block of positive order. -/
def left (b : Block) : Block :=
  ⟨b.order - 1, 2 * b.index⟩

/-- The upper half of a block of positive order. -/
def right (b : Block) : Block :=
  ⟨b.order - 1, 2 * b.index + 1⟩

/-- The other half of the block one order up. -/
def buddy (b : Block) : Block :=
  ⟨b.order, if b.index % 2 = 0 then b.index + 1 else b.index - 1⟩

/-- The upper half of the block of order `k + 1` at the start of `b`. -/
def rightAt (b : Block) (k : ℕ) : Block :=
  ⟨k, b.index * 2 ^ (b.order - k) + 1⟩

/-- The block of order `k` around `b`. -/
def ancestor (b : Block) (k : ℕ) : Block :=
  ⟨k, b.index / 2 ^ (k - b.order)⟩

/-- The block one order up around `b`. -/
def parent (b : Block) : Block :=
  ⟨b.order + 1, b.index / 2⟩

/-- `b` is a part of `c`. -/
def Within (b c : Block) : Prop :=
  b.order ≤ c.order ∧ b.index / 2 ^ (c.order - b.order) = c.index

instance (b c : Block) : Decidable (b.Within c) :=
  inferInstanceAs (Decidable (_ ∧ _))

@[simp] theorem buddy_order (b : Block) : b.buddy.order = b.order := rfl
@[simp] theorem parent_order (b : Block) : b.parent.order = b.order + 1 := rfl
@[simp] theorem ancestor_order (b : Block) (k : ℕ) :
    (b.ancestor k).order = k := rfl
@[simp] theorem left_order (b : Block) : b.left.order = b.order - 1 := rfl
@[simp] theorem right_order (b : Block) : b.right.order = b.order - 1 := rfl

/-! ## Points -/

theorem contains_iff {b : Block} {x : ℕ} :
    b.Contains x ↔ b.first ≤ x ∧ x < b.first + 2 ^ b.order := by
  have hpos : 0 < 2 ^ b.order := Nat.two_pow_pos _
  rw [Contains, first, Nat.div_eq_iff hpos]
  have hsucc : (b.index + 1) * 2 ^ b.order =
      b.index * 2 ^ b.order + 2 ^ b.order := Nat.succ_mul _ _
  omega

theorem contains_first (b : Block) : b.Contains b.first :=
  Nat.mul_div_cancel _ (Nat.two_pow_pos _)

theorem eq_of_order_of_contains
    {b c : Block} {x : ℕ}
    (horder : b.order = c.order)
    (hb : b.Contains x) (hc : c.Contains x) : b = c := by
  obtain ⟨k, i⟩ := b
  obtain ⟨l, j⟩ := c
  simp only [Contains] at *
  subst horder
  rw [← hb, ← hc]

/-! ## Nesting -/

theorem Within.refl (b : Block) : b.Within b :=
  ⟨Nat.le_refl _, by simp⟩

theorem Within.contains
    {b c : Block} {x : ℕ}
    (h : b.Within c) (hx : b.Contains x) : c.Contains x := by
  obtain ⟨hle, hidx⟩ := h
  rw [Contains] at hx ⊢
  rw [← hidx, ← hx, Nat.div_div_eq_div_mul, ← pow_add]
  rw [Nat.add_sub_cancel' hle]

/-- Two blocks with a common point are nested, the lower order inside. -/
theorem within_of_contains
    {b c : Block} {x : ℕ}
    (horder : b.order ≤ c.order)
    (hb : b.Contains x) (hc : c.Contains x) : b.Within c := by
  refine ⟨horder, ?_⟩
  rw [Contains] at hb hc
  rw [← hb, ← hc, Nat.div_div_eq_div_mul, ← pow_add]
  rw [Nat.add_sub_cancel' horder]

theorem within_of_contains_first
    {b c : Block} (horder : b.order ≤ c.order)
    (hc : c.Contains b.first) : b.Within c :=
  within_of_contains horder b.contains_first hc

theorem Within.trans
    {b c d : Block}
    (hbc : b.Within c) (hcd : c.Within d) : b.Within d :=
  within_of_contains_first (Nat.le_trans hbc.1 hcd.1)
    (hcd.contains (hbc.contains b.contains_first))

theorem Within.eq_of_order
    {b c : Block} (h : b.Within c)
    (horder : c.order ≤ b.order) : b = c :=
  eq_of_order_of_contains (Nat.le_antisymm h.1 horder)
    b.contains_first (h.contains b.contains_first)

/-- The first point of a nested block of an order at most that of `b` is `b`'s
own first point when it falls into `b` from outside. -/
theorem first_eq_of_contains
    {b c : Block} (horder : b.order ≤ c.order)
    (h : b.Contains c.first) : b.first = c.first := by
  have hpow : 2 ^ c.order = 2 ^ (c.order - b.order) * 2 ^ b.order := by
    rw [← pow_add, Nat.sub_add_cancel horder]
  rw [Contains, first, hpow, ← Nat.mul_assoc,
    Nat.mul_div_cancel _ (Nat.two_pow_pos _)] at h
  rw [first, first, ← h, hpow, Nat.mul_assoc]

/-! ## Parents, halves and buddies -/

theorem within_parent (b : Block) : b.Within b.parent := by
  refine ⟨Nat.le_succ _, ?_⟩
  simp [parent]

theorem buddy_ne (b : Block) : b.buddy ≠ b := by
  intro h
  have hidx := congrArg Block.index h
  simp only [buddy] at hidx
  split at hidx <;> omega

@[simp] theorem buddy_buddy (b : Block) : b.buddy.buddy = b := by
  obtain ⟨k, i⟩ := b
  simp only [buddy, mk.injEq, true_and]
  split <;> split <;> omega

@[simp] theorem parent_buddy (b : Block) : b.buddy.parent = b.parent := by
  obtain ⟨k, i⟩ := b
  simp only [buddy, parent, mk.injEq, true_and]
  split <;> omega

theorem buddy_within_parent (b : Block) : b.buddy.Within b.parent := by
  have h := within_parent b.buddy
  rwa [parent_buddy] at h

theorem eq_or_eq_buddy_of_parent_eq
    {b c : Block} (h : b.parent = c.parent) : b = c ∨ b = c.buddy := by
  obtain ⟨k, i⟩ := b
  obtain ⟨l, j⟩ := c
  simp only [parent, buddy, mk.injEq] at *
  obtain ⟨hkl, hij⟩ := h
  split <;> omega

/-- A block of lower order inside the parent of `b` lies in `b` or in its
buddy. -/
theorem within_or_within_buddy
    {b c : Block} (h : c.Within b.parent) (horder : c.order ≤ b.order) :
    c.Within b ∨ c.Within b.buddy := by
  have hanc : (c.ancestor b.order).parent = b.parent := by
    have hidx := h.2
    simp only [parent, ancestor, mk.injEq, true_and] at hidx ⊢
    rw [← hidx, Nat.div_div_eq_div_mul, ← pow_succ]
    congr 2
    omega
  rcases eq_or_eq_buddy_of_parent_eq hanc with heq | heq
  · exact Or.inl ⟨horder, congrArg Block.index heq⟩
  · exact Or.inr ⟨horder, congrArg Block.index heq⟩

theorem contains_parent_iff {b : Block} {x : ℕ} :
    b.parent.Contains x ↔ b.Contains x ∨ b.buddy.Contains x := by
  constructor
  · intro h
    let c : Block := ⟨b.order, x / 2 ^ b.order⟩
    have hcx : c.Contains x := rfl
    have hc : c.Within b.parent :=
      within_of_contains (Nat.le_succ _) hcx h
    rcases within_or_within_buddy hc (Nat.le_refl _) with hw | hw
    · exact Or.inl (hw.contains hcx)
    · exact Or.inr (hw.contains hcx)
  · rintro (h | h)
    · exact (within_parent b).contains h
    · exact (buddy_within_parent b).contains h

/-- Buddies have no common point. -/
theorem not_contains_buddy
    {b : Block} {x : ℕ} (h : b.Contains x) : ¬ b.buddy.Contains x := by
  intro h'
  exact buddy_ne b (eq_of_order_of_contains rfl h' h)

@[simp] theorem left_parent {b : Block} (h : 0 < b.order) :
    b.left.parent = b := by
  obtain ⟨k, i⟩ := b
  simp only [left, parent, mk.injEq] at *
  omega

@[simp] theorem left_buddy (b : Block) : b.left.buddy = b.right := by
  have heven : b.left.index % 2 = 0 := by simp [left]
  rw [buddy, if_pos heven]
  rfl

@[simp] theorem right_buddy (b : Block) : b.right.buddy = b.left := by
  rw [← left_buddy, buddy_buddy]

theorem left_within {b : Block} (h : 0 < b.order) : b.left.Within b := by
  have hw := within_parent b.left
  rwa [left_parent h] at hw

theorem right_within {b : Block} (h : 0 < b.order) : b.right.Within b := by
  have hw := buddy_within_parent b.left
  rwa [left_parent h, left_buddy] at hw

theorem left_ne_right (b : Block) : b.left ≠ b.right := by
  rw [← left_buddy]
  exact (buddy_ne b.left).symm

theorem contains_iff_left_or_right {b : Block} {x : ℕ} (h : 0 < b.order) :
    b.Contains x ↔ b.left.Contains x ∨ b.right.Contains x := by
  have hp := contains_parent_iff (b := b.left) (x := x)
  rwa [left_parent h, left_buddy] at hp

theorem left_first {b : Block} (h : 0 < b.order) : b.left.first = b.first := by
  obtain ⟨k, i⟩ := b
  obtain ⟨k, rfl⟩ : ∃ j, k = j + 1 := ⟨k - 1, by simp only at h; omega⟩
  simp only [left, first, Nat.add_sub_cancel, pow_succ]
  ring

theorem right_first {b : Block} (h : 0 < b.order) :
    b.right.first = b.first + 2 ^ (b.order - 1) := by
  obtain ⟨k, i⟩ := b
  obtain ⟨k, rfl⟩ : ∃ j, k = j + 1 := ⟨k - 1, by simp only at h; omega⟩
  simp only [right, first, Nat.add_sub_cancel, pow_succ]
  ring

theorem rightAt_first {b : Block} {k : ℕ} (h : k ≤ b.order) :
    (b.rightAt k).first = b.first + 2 ^ k := by
  have hpow : 2 ^ b.order = 2 ^ (b.order - k) * 2 ^ k := by
    rw [← pow_add, Nat.sub_add_cancel h]
  rw [rightAt, first, first, hpow]
  ring

theorem rightAt_pred {b : Block} (h : 0 < b.order) :
    b.rightAt (b.order - 1) = b.right := by
  have hone : b.order - (b.order - 1) = 1 := by omega
  rw [rightAt, right, hone, pow_one, Nat.mul_comm]

/-- The lower half starts where the block does. -/
theorem rightAt_left {b : Block} {k : ℕ} (h : k < b.order) :
    b.left.rightAt k = b.rightAt k := by
  have hpow : 2 ^ (b.order - k) = 2 * 2 ^ (b.order - 1 - k) := by
    rw [← pow_succ']
    congr 1
    omega
  simp only [rightAt, left, hpow, mk.injEq, true_and]
  ring

/-- The parent starts where the lower of the two buddies starts. -/
theorem parent_first (b : Block) :
    b.parent.first = min b.first b.buddy.first := by
  obtain ⟨k, i⟩ := b
  simp only [parent, buddy, first]
  have hpos : 0 < 2 ^ k := Nat.two_pow_pos k
  have hhalf : i / 2 * 2 ^ (k + 1) = (i - i % 2) * 2 ^ k := by
    rw [pow_succ', ← Nat.mul_assoc]
    congr 1
    omega
  rw [hhalf]
  split
  · next h =>
    rw [h, Nat.sub_zero]
    exact (Nat.min_eq_left (Nat.mul_le_mul_right _ (Nat.le_succ i))).symm
  · next h =>
    rw [show i % 2 = 1 by omega]
    exact (Nat.min_eq_right (Nat.mul_le_mul_right _ (Nat.sub_le i 1))).symm

/-! ## Ancestors -/

@[simp] theorem ancestor_self (b : Block) : b.ancestor b.order = b := by
  simp [ancestor]

theorem within_ancestor {b : Block} {k : ℕ} (h : b.order ≤ k) :
    b.Within (b.ancestor k) :=
  ⟨h, rfl⟩

theorem ancestor_succ {b : Block} {k : ℕ} (h : b.order ≤ k) :
    b.ancestor (k + 1) = (b.ancestor k).parent := by
  simp only [ancestor, parent, mk.injEq, true_and]
  rw [Nat.succ_sub h, pow_succ, Nat.div_div_eq_div_mul]

theorem ancestor_parent {b : Block} {k : ℕ} (h : b.order < k) :
    b.parent.ancestor k = b.ancestor k := by
  simp only [ancestor, parent, mk.injEq, true_and]
  rw [Nat.div_div_eq_div_mul, ← pow_succ']
  congr 2
  omega

/-- The block of order `k` around a part of `c` is `c`. -/
theorem Within.ancestor_eq {b c : Block} (h : b.Within c) :
    b.ancestor c.order = c := by
  obtain ⟨k, i⟩ := c
  simp only [ancestor, mk.injEq, true_and]
  exact h.2

/-! ## Buddies by exclusive or -/

theorem xor_one_eq (n : ℕ) :
    n ^^^ 1 = if n % 2 = 0 then n + 1 else n - 1 := by
  split
  · next h => exact Nat.xor_one_of_even (Nat.even_iff.mpr h)
  · next h => exact Nat.xor_one_of_odd (Nat.odd_iff.mpr (by omega))

/-- With a unit of `2 ^ u`, toggling the bit of a block's own length in its
start address gives the start address of its buddy. -/
theorem first_xor_eq (b : Block) (u : ℕ) :
    (2 ^ u * b.first) ^^^ (2 ^ u * 2 ^ b.order) = 2 ^ u * b.buddy.first := by
  have hshift (i : ℕ) : 2 ^ u * (i * 2 ^ b.order) = i <<< (u + b.order) := by
    rw [Nat.shiftLeft_eq, pow_add]
    ring
  have hone : 2 ^ u * 2 ^ b.order = 1 <<< (u + b.order) := by
    rw [← hshift 1, Nat.one_mul]
  rw [hone, first, hshift, ← Nat.shiftLeft_xor_distrib, xor_one_eq]
  rw [first, buddy_order, hshift, buddy]

end Block

end OsCoursework.Dyadic
