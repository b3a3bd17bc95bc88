import Mathlib.Algebra.BigOperators.Group.Finset.Basic
import Mathlib.Data.Finset.Sort
import Mathlib.Tactic.Abel
import OsCoursework.Support.Dyadic

/-!
# Buddy tilings

A buddy tiling cuts a root block into smaller dyadic blocks of bounded order
and marks some of them as used.  The four moves of a buddy system are taking a
free tile, releasing a used one, splitting a free tile into its halves and
merging two free buddies into their parent; each is again a tiling.
-/

namespace OsCoursework.Dyadic

/-- A partition of `root` into blocks of order at most `maxOrder`, some of
which are used. -/
@[ext] structure Tiling (root : Block) (maxOrder : ℕ) where
  tiles : Finset Block
  used : Finset Block
  used_subset : used ⊆ tiles
  le_root : maxOrder ≤ root.order
  order_le : ∀ b ∈ tiles, b.order ≤ maxOrder
  within_root : ∀ b ∈ tiles, b.Within root
  exists_tile : ∀ x, root.Contains x → ∃ b ∈ tiles, b.Contains x
  tile_unique : ∀ b ∈ tiles, ∀ c ∈ tiles, ∀ x,
    b.Contains x → c.Contains x → b = c

namespace Tiling

variable {root : Block} {maxOrder : ℕ}

/-- The tiles that are not used. -/
def free (H : Tiling root maxOrder) : Finset Block :=
  H.tiles \ H.used

@[simp] theorem mem_free {H : Tiling root maxOrder} {b : Block} :
    b ∈ H.free ↔ b ∈ H.tiles ∧ b ∉ H.used :=
  Finset.mem_sdiff

theorem eq_of_within
    (H : Tiling root maxOrder) {b c : Block}
    (hb : b ∈ H.tiles) (hc : c ∈ H.tiles) (h : b.Within c) : b = c :=
  H.tile_unique b hb c hc b.first b.contains_first
    (h.contains b.contains_first)

theorem eq_of_first
    (H : Tiling root maxOrder) {b c : Block}
    (hb : b ∈ H.tiles) (hc : c ∈ H.tiles) (h : b.first = c.first) : b = c :=
  H.tile_unique b hb c hc b.first b.contains_first (h ▸ c.contains_first)

/-- A proper part of a tile is not a tile. -/
theorem not_mem_of_within_of_order_lt
    (H : Tiling root maxOrder) {b c : Block}
    (hc : c ∈ H.tiles) (h : b.Within c) (horder : b.order < c.order) :
    b ∉ H.tiles := by
  intro hb
  have heq := H.eq_of_within hb hc h
  rw [heq] at horder
  exact Nat.lt_irrefl _ horder

theorem left_not_mem
    (H : Tiling root maxOrder) {b : Block}
    (hb : b ∈ H.tiles) (h0 : 0 < b.order) : b.left ∉ H.tiles :=
  H.not_mem_of_within_of_order_lt hb (Block.left_within h0)
    (Nat.sub_lt h0 Nat.one_pos)

theorem right_not_mem
    (H : Tiling root maxOrder) {b : Block}
    (hb : b ∈ H.tiles) (h0 : 0 < b.order) : b.right ∉ H.tiles :=
  H.not_mem_of_within_of_order_lt hb (Block.right_within h0)
    (Nat.sub_lt h0 Nat.one_pos)

theorem parent_not_mem
    (H : Tiling root maxOrder) {b : Block}
    (hb : b ∈ H.tiles) : b.parent ∉ H.tiles := by
  intro hp
  exact H.not_mem_of_within_of_order_lt hp b.within_parent
    (Nat.lt_succ_self _) hb

/-- The buddy of a block of mergeable order around a tile starts a tile of at
most that order. -/
theorem exists_tile_at_buddy
    (H : Tiling root maxOrder) {b d : Block}
    (hb : b ∈ H.tiles) (hbd : b.Within d) (horder : d.order < maxOrder) :
    ∃ c ∈ H.tiles, c.first = d.buddy.first ∧ c.order ≤ d.order := by
  have hdb := hbd.contains b.contains_first
  have hroot : d.parent.Within root := by
    refine Block.within_of_contains (Nat.le_trans horder H.le_root)
      (d.within_parent.contains hdb)
      ((H.within_root b hb).contains b.contains_first)
  have hpoint : root.Contains d.buddy.first :=
    hroot.contains (d.buddy_within_parent.contains d.buddy.contains_first)
  obtain ⟨c, hc, hcx⟩ := H.exists_tile _ hpoint
  have hle : c.order ≤ d.order := by
    by_contra hlt
    have hparent : d.parent.Within c := by
      refine Block.within_of_contains (by simp; omega)
        (d.buddy_within_parent.contains d.buddy.contains_first) hcx
    have heq := H.eq_of_within hb hc
      ((hbd.trans d.within_parent).trans hparent)
    rw [← heq] at hlt
    exact hlt hbd.1
  exact ⟨c, hc, Block.first_eq_of_contains hle hcx, hle⟩

/-! ## The four moves -/

/-- Mark a free tile as used. -/
def take (H : Tiling root maxOrder) (b : Block) (hb : b ∈ H.tiles) :
    Tiling root maxOrder :=
  { H with
    used := insert b H.used
    used_subset := Finset.insert_subset hb H.used_subset }

/-- Mark a used tile as free. -/
def release (H : Tiling root maxOrder) (b : Block) : Tiling root maxOrder :=
  { H with
    used := H.used.erase b
    used_subset := (Finset.erase_subset b H.used).trans H.used_subset }

/-- Replace a free tile by its two halves. -/
def split (H : Tiling root maxOrder) (b : Block)
    (hb : b ∈ H.free) (h0 : 0 < b.order) : Tiling root maxOrder where
  tiles := insert b.left (insert b.right (H.tiles.erase b))
  used := H.used
  used_subset := by
    intro c hc
    have hne : c ≠ b := by
      rintro rfl
      exact (mem_free.mp hb).2 hc
    simp [hne, H.used_subset hc]
  le_root := H.le_root
  order_le := by
    intro c hc
    have hb' := H.order_le b (mem_free.mp hb).1
    simp only [Finset.mem_insert, Finset.mem_erase] at hc
    rcases hc with rfl | rfl | ⟨-, hc⟩
    · simp only [Block.left_order]
      omega
    · simp only [Block.right_order]
      omega
    · exact H.order_le c hc
  within_root := by
    intro c hc
    have hb' := H.within_root b (mem_free.mp hb).1
    simp only [Finset.mem_insert, Finset.mem_erase] at hc
    rcases hc with rfl | rfl | ⟨-, hc⟩
    · exact (Block.left_within h0).trans hb'
    · exact (Block.right_within h0).trans hb'
    · exact H.within_root c hc
  exists_tile := by
    intro x hx
    obtain ⟨c, hc, hcx⟩ := H.exists_tile x hx
    by_cases hcb : c = b
    · subst hcb
      rcases (Block.contains_iff_left_or_right h0).mp hcx with h | h
      · exact ⟨c.left, by simp, h⟩
      · exact ⟨c.right, by simp, h⟩
    · exact ⟨c, by simp [hcb, hc], hcx⟩
  tile_unique := by
    have hbt := (mem_free.mp hb).1
    have hout (c : Block) (hc : c ∈ H.tiles) (hcb : c ≠ b)
        (x : ℕ) (hcx : c.Contains x) : ¬ b.Contains x :=
      fun hbx => hcb (H.tile_unique c hc b hbt x hcx hbx)
    have hsides (x : ℕ) (hl : b.left.Contains x) : ¬ b.right.Contains x := by
      rw [← Block.left_buddy]
      exact Block.not_contains_buddy hl
    intro c hc d hd x hcx hdx
    simp only [Finset.mem_insert, Finset.mem_erase] at hc hd
    rcases hc with rfl | rfl | ⟨hcb, hc⟩
    · rcases hd with rfl | rfl | ⟨hdb, hd⟩
      · rfl
      · exact absurd hdx (hsides x hcx)
      · exact absurd ((Block.left_within h0).contains hcx)
          (hout d hd hdb x hdx)
    · rcases hd with rfl | rfl | ⟨hdb, hd⟩
      · exact absurd hcx (hsides x hdx)
      · rfl
      · exact absurd ((Block.right_within h0).contains hcx)
          (hout d hd hdb x hdx)
    · rcases hd with rfl | rfl | ⟨hdb, hd⟩
      · exact absurd ((Block.left_within h0).contains hdx)
          (hout c hc hcb x hcx)
      · exact absurd ((Block.right_within h0).contains hdx)
          (hout c hc hcb x hcx)
      · exact H.tile_unique c hc d hd x hcx hdx

/-- Replace a free tile and its free buddy by their parent. -/
def merge (H : Tiling root maxOrder) (b : Block)
    (hb : b ∈ H.free) (hbuddy : b.buddy ∈ H.free)
    (horder : b.order < maxOrder) : Tiling root maxOrder where
  tiles := insert b.parent ((H.tiles.erase b).erase b.buddy)
  used := H.used
  used_subset := by
    intro c hc
    have hne : c ≠ b := by
      rintro rfl
      exact (mem_free.mp hb).2 hc
    have hne' : c ≠ b.buddy := by
      rintro rfl
      exact (mem_free.mp hbuddy).2 hc
    simp [hne, hne', H.used_subset hc]
  le_root := H.le_root
  order_le := by
    intro c hc
    simp only [Finset.mem_insert, Finset.mem_erase] at hc
    rcases hc with rfl | ⟨-, -, hc⟩
    · exact horder
    · exact H.order_le c hc
  within_root := by
    intro c hc
    simp only [Finset.mem_insert, Finset.mem_erase] at hc
    rcases hc with rfl | ⟨-, -, hc⟩
    · refine Block.within_of_contains (Nat.le_trans horder H.le_root)
        (b.within_parent.contains b.contains_first)
        ((H.within_root b (mem_free.mp hb).1).contains b.contains_first)
    · exact H.within_root c hc
  exists_tile := by
    intro x hx
    obtain ⟨c, hc, hcx⟩ := H.exists_tile x hx
    by_cases hcb : c = b
    · exact ⟨b.parent, by simp, Block.contains_parent_iff.mpr
        (Or.inl (hcb ▸ hcx))⟩
    · by_cases hcb' : c = b.buddy
      · exact ⟨b.parent, by simp, Block.contains_parent_iff.mpr
          (Or.inr (hcb' ▸ hcx))⟩
      · exact ⟨c, by simp [hcb, hcb', hc], hcx⟩
  tile_unique := by
    have hout (c : Block) (hc : c ∈ H.tiles) (hcb : c ≠ b)
        (hcb' : c ≠ b.buddy) (x : ℕ) (hcx : c.Contains x) :
        ¬ b.parent.Contains x := by
      intro hx
      rcases Block.contains_parent_iff.mp hx with h | h
      · exact hcb (H.tile_unique c hc b (mem_free.mp hb).1 x hcx h)
      · exact hcb' (H.tile_unique c hc _ (mem_free.mp hbuddy).1 x hcx h)
    intro c hc d hd x hcx hdx
    simp only [Finset.mem_insert, Finset.mem_erase] at hc hd
    rcases hc with rfl | ⟨hcb', hcb, hc⟩
    · rcases hd with rfl | ⟨hdb', hdb, hd⟩
      · rfl
      · exact absurd hcx (hout d hd hdb hdb' x hdx)
    · rcases hd with rfl | ⟨hdb', hdb, hd⟩
      · exact absurd hdx (hout c hc hcb hcb' x hcx)
      · exact H.tile_unique c hc d hd x hcx hdx

section Moves

variable (H : Tiling root maxOrder) {b : Block}

@[simp] theorem take_tiles (hb : b ∈ H.tiles) :
    (H.take b hb).tiles = H.tiles := rfl
@[simp] theorem take_used (hb : b ∈ H.tiles) :
    (H.take b hb).used = insert b H.used := rfl
@[simp] theorem release_tiles : (H.release b).tiles = H.tiles := rfl
@[simp] theorem release_used : (H.release b).used = H.used.erase b := rfl
@[simp] theorem split_used (hb : b ∈ H.free) (h0 : 0 < b.order) :
    (H.split b hb h0).used = H.used := rfl
@[simp] theorem split_tiles (hb : b ∈ H.free) (h0 : 0 < b.order) :
    (H.split b hb h0).tiles =
      insert b.left (insert b.right (H.tiles.erase b)) := rfl
@[simp] theorem merge_used (hb : b ∈ H.free) (hbuddy : b.buddy ∈ H.free)
    (horder : b.order < maxOrder) :
    (H.merge b hb hbuddy horder).used = H.used := rfl
@[simp] theorem merge_tiles (hb : b ∈ H.free) (hbuddy : b.buddy ∈ H.free)
    (horder : b.order < maxOrder) :
    (H.merge b hb hbuddy horder).tiles =
      insert b.parent ((H.tiles.erase b).erase b.buddy) := rfl

theorem free_take (hb : b ∈ H.tiles) :
    (H.take b hb).free = H.free.erase b := by
  ext c
  simp only [mem_free, take_tiles, take_used, Finset.mem_insert,
    Finset.mem_erase]
  tauto

theorem free_release (hb : b ∈ H.used) :
    (H.release b).free = insert b H.free := by
  ext c
  have hbt := H.used_subset hb
  simp only [mem_free, release_tiles, release_used, Finset.mem_insert,
    Finset.mem_erase]
  by_cases hcb : c = b
  · simp [hcb, hbt]
  · simp [hcb]

theorem mem_free_release (hb : b ∈ H.used) : b ∈ (H.release b).free := by
  rw [free_release H hb]
  exact Finset.mem_insert_self _ _

theorem free_subset_release (hb : b ∈ H.used) :
    H.free ⊆ (H.release b).free := by
  rw [free_release H hb]
  exact Finset.subset_insert _ _

theorem free_split (hb : b ∈ H.free) (h0 : 0 < b.order) :
    (H.split b hb h0).free = insert b.left (insert b.right (H.free.erase b)) := by
  have hbt := (mem_free.mp hb).1
  have hl : b.left ∉ H.used := fun h => H.left_not_mem hbt h0 (H.used_subset h)
  have hr : b.right ∉ H.used := fun h => H.right_not_mem hbt h0 (H.used_subset h)
  ext c
  simp only [mem_free, split_tiles, split_used, Finset.mem_insert,
    Finset.mem_erase]
  constructor
  · tauto
  · rintro (rfl | rfl | h)
    · exact ⟨Or.inl rfl, hl⟩
    · exact ⟨Or.inr (Or.inl rfl), hr⟩
    · exact ⟨Or.inr (Or.inr ⟨h.1, h.2.1⟩), h.2.2⟩

theorem free_merge (hb : b ∈ H.free) (hbuddy : b.buddy ∈ H.free)
    (horder : b.order < maxOrder) :
    (H.merge b hb hbuddy horder).free =
      insert b.parent ((H.free.erase b).erase b.buddy) := by
  have hp : b.parent ∉ H.used := fun h =>
    H.parent_not_mem (mem_free.mp hb).1 (H.used_subset h)
  ext c
  simp only [mem_free, merge_tiles, merge_used, Finset.mem_insert,
    Finset.mem_erase]
  constructor
  · tauto
  · rintro (rfl | h)
    · exact ⟨Or.inl rfl, hp⟩
    · exact ⟨Or.inr ⟨h.1, h.2.1, h.2.2.1⟩, h.2.2.2⟩

/-- Splitting trades the weight of a tile for the weights of its halves. -/
theorem sum_split {M : Type*} [AddCommMonoid M] (f : Block → M)
    (hb : b ∈ H.free) (h0 : 0 < b.order) :
    ∑ c ∈ (H.split b hb h0).tiles, f c + f b =
      ∑ c ∈ H.tiles, f c + (f b.left + f b.right) := by
  have hbt := (mem_free.mp hb).1
  have hr : b.right ∉ H.tiles.erase b := fun h =>
    H.right_not_mem hbt h0 (Finset.mem_of_mem_erase h)
  have hl : b.left ∉ insert b.right (H.tiles.erase b) := by
    rw [Finset.mem_insert, not_or]
    exact ⟨b.left_ne_right, fun h =>
      H.left_not_mem hbt h0 (Finset.mem_of_mem_erase h)⟩
  rw [split_tiles, Finset.sum_insert hl, Finset.sum_insert hr,
    ← Finset.sum_erase_add H.tiles f hbt]
  abel

/-- Merging trades the weights of two buddies for the weight of the parent. -/
theorem sum_merge {M : Type*} [AddCommMonoid M] (f : Block → M)
    (hb : b ∈ H.free) (hbuddy : b.buddy ∈ H.free)
    (horder : b.order < maxOrder) :
    ∑ c ∈ (H.merge b hb hbuddy horder).tiles, f c + (f b + f b.buddy) =
      ∑ c ∈ H.tiles, f c + f b.parent := by
  have hbt := (mem_free.mp hb).1
  have hbuddyt : b.buddy ∈ H.tiles.erase b :=
    Finset.mem_erase.mpr ⟨b.buddy_ne, (mem_free.mp hbuddy).1⟩
  have hp : b.parent ∉ (H.tiles.erase b).erase b.buddy := fun h =>
    H.parent_not_mem hbt (Finset.mem_of_mem_erase (Finset.mem_of_mem_erase h))
  rw [merge_tiles, Finset.sum_insert hp, ← Finset.sum_erase_add H.tiles f hbt,
    ← Finset.sum_erase_add (H.tiles.erase b) f hbuddyt]
  abel

end Moves

end Tiling

end OsCoursework.Dyadic
