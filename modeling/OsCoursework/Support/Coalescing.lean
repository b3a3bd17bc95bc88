import Mathlib.Order.Interval.Finset.Nat
import OsCoursework.Support.BuddyTiling

/-!
# Coalesced buddy tilings

A tiling is coalesced when no tile of mergeable order is free together with
its buddy.  While a buddy system works on one tile, coalescing may fail at that
tile and nowhere else; `CoalescedExcept` is that weaker statement, and every
move of the tile being worked on preserves it.

`SplitsTo` and `MergesTo` are the two multi-step moves of a buddy system: going
down from a free tile along its lower halves, and going up from a free tile
through free buddies.

Two results rest on coalescing: `exists_free_of_unused` finds a free tile around
any unused window, and `eq_of_used_eq` says that a coalesced tiling is determined
by its used tiles.
-/

namespace OsCoursework.Dyadic.Tiling

variable {root : Block} {maxOrder : ℕ}

/-- No two free tiles of mergeable order are buddies, except possibly `b` and
its buddy. -/
def CoalescedExcept (H : Tiling root maxOrder) (b : Block) : Prop :=
  ∀ t ∈ H.free, t.buddy ∈ H.free → t.order < maxOrder → t = b ∨ t.buddy = b

/-- No two free tiles of mergeable order are buddies. -/
def Coalesced (H : Tiling root maxOrder) : Prop :=
  ∀ t ∈ H.free, t.buddy ∈ H.free → ¬ t.order < maxOrder

theorem Coalesced.except
    {H : Tiling root maxOrder} (h : H.Coalesced) (b : Block) :
    H.CoalescedExcept b :=
  fun t ht hbuddy horder => absurd horder (h t ht hbuddy)

/-! ## Moves of the tile being worked on -/

theorem CoalescedExcept.take
    {H : Tiling root maxOrder} {b : Block}
    (h : H.CoalescedExcept b) (hb : b ∈ H.tiles) :
    (H.take b hb).Coalesced := by
  intro t ht hbuddy horder
  rw [free_take, Finset.mem_erase] at ht hbuddy
  rcases h t ht.2 hbuddy.2 horder with heq | heq
  · exact ht.1 heq
  · exact hbuddy.1 heq

theorem Coalesced.release
    {H : Tiling root maxOrder} {b : Block}
    (h : H.Coalesced) (hb : b ∈ H.used) :
    (H.release b).CoalescedExcept b := by
  intro t ht hbuddy horder
  rw [free_release H hb, Finset.mem_insert] at ht hbuddy
  rcases ht with heq | ht
  · exact Or.inl heq
  · rcases hbuddy with heq | hbuddy
    · exact Or.inr heq
    · exact absurd horder (h t ht hbuddy)

theorem CoalescedExcept.split
    {H : Tiling root maxOrder} {b : Block}
    (h : H.CoalescedExcept b) (hb : b ∈ H.free) (h0 : 0 < b.order) :
    (H.split b hb h0).CoalescedExcept b.left := by
  intro t ht hbuddy horder
  rw [free_split, Finset.mem_insert, Finset.mem_insert,
    Finset.mem_erase] at ht hbuddy
  rcases ht with rfl | rfl | ⟨htb, ht⟩
  · exact Or.inl rfl
  · exact Or.inr (Block.right_buddy b)
  · rcases hbuddy with heq | heq | ⟨hbb, hbuddy⟩
    · exact Or.inr heq
    · left
      rw [← Block.buddy_buddy t, heq, Block.right_buddy]
    · rcases h t ht hbuddy horder with heq | heq
      · exact absurd heq htb
      · exact absurd heq hbb

theorem CoalescedExcept.merge
    {H : Tiling root maxOrder} {b : Block}
    (h : H.CoalescedExcept b) (hb : b ∈ H.free) (hbuddy : b.buddy ∈ H.free)
    (horder : b.order < maxOrder) :
    (H.merge b hb hbuddy horder).CoalescedExcept b.parent := by
  intro t ht htbuddy htorder
  rw [free_merge, Finset.mem_insert, Finset.mem_erase,
    Finset.mem_erase] at ht htbuddy
  rcases ht with heq | ⟨-, htb, ht⟩
  · exact Or.inl heq
  · rcases htbuddy with heq | ⟨-, hbb, htbuddy⟩
    · exact Or.inr heq
    · rcases h t ht htbuddy htorder with heq | heq
      · exact absurd heq htb
      · exact absurd heq hbb

/-- Coalescing holds everywhere once the exceptional tile has no free buddy to
merge with. -/
theorem CoalescedExcept.coalesced
    {H : Tiling root maxOrder} {b : Block}
    (h : H.CoalescedExcept b)
    (hstop : b.order = maxOrder ∨ b.buddy ∉ H.free) : H.Coalesced := by
  intro t ht hbuddy horder
  rcases h t ht hbuddy horder with heq | heq
  · subst heq
    rcases hstop with hmax | hnot
    · omega
    · exact hnot hbuddy
  · have htb : t = b.buddy := by rw [← heq, Block.buddy_buddy]
    rcases hstop with hmax | hnot
    · rw [htb, Block.buddy_order] at horder
      omega
    · exact hnot (htb ▸ ht)

/-! ## Going down and going up -/

/-- `H'` is `H` after splitting `b`, then its lower half, and so on down to
`b'`. -/
inductive SplitsTo :
    Tiling root maxOrder → Block → Tiling root maxOrder → Block → Prop
  | refl (H : Tiling root maxOrder) (b : Block) : SplitsTo H b H b
  | step {H H' : Tiling root maxOrder} {b b' : Block}
      (hb : b ∈ H.free) (h0 : 0 < b.order)
      (rest : SplitsTo (H.split b hb h0) b.left H' b') : SplitsTo H b H' b'

/-- `H'` is `H` after merging `b` with its buddy, then their parent with its
buddy, and so on up to `b'`. -/
inductive MergesTo :
    Tiling root maxOrder → Block → Tiling root maxOrder → Block → Prop
  | refl (H : Tiling root maxOrder) (b : Block) : MergesTo H b H b
  | step {H H' : Tiling root maxOrder} {b b' : Block}
      (hb : b ∈ H.free) (hbuddy : b.buddy ∈ H.free)
      (horder : b.order < maxOrder)
      (rest : MergesTo (H.merge b hb hbuddy horder) b.parent H' b') :
      MergesTo H b H' b'

theorem left_mem_free_split
    {H : Tiling root maxOrder} {b : Block}
    (hb : b ∈ H.free) (h0 : 0 < b.order) :
    b.left ∈ (H.split b hb h0).free := by
  rw [free_split]
  exact Finset.mem_insert_self _ _

theorem parent_mem_free_merge
    {H : Tiling root maxOrder} {b : Block}
    (hb : b ∈ H.free) (hbuddy : b.buddy ∈ H.free)
    (horder : b.order < maxOrder) :
    b.parent ∈ (H.merge b hb hbuddy horder).free := by
  rw [free_merge]
  exact Finset.mem_insert_self _ _

section Down

variable {H H' : Tiling root maxOrder} {b b' : Block}

theorem SplitsTo.used_eq (h : SplitsTo H b H' b') : H'.used = H.used := by
  induction h with
  | refl => rfl
  | step hb h0 _ ih => rw [ih, split_used]

theorem SplitsTo.mem_free (h : SplitsTo H b H' b') (hb : b ∈ H.free) :
    b' ∈ H'.free := by
  induction h with
  | refl => exact hb
  | step hb h0 _ ih => exact ih (left_mem_free_split hb h0)

theorem SplitsTo.within (h : SplitsTo H b H' b') : b'.Within b := by
  induction h with
  | refl => exact Block.Within.refl _
  | step hb h0 _ ih => exact ih.trans (Block.left_within h0)

theorem SplitsTo.order_le (h : SplitsTo H b H' b') : b'.order ≤ b.order :=
  h.within.1

theorem SplitsTo.first_eq (h : SplitsTo H b H' b') : b'.first = b.first := by
  induction h with
  | refl => rfl
  | step hb h0 _ ih => rw [ih, Block.left_first h0]

/-- Going down replaces the free block by the one reached and by one upper half
of each order passed. -/
theorem SplitsTo.free_eq (h : SplitsTo H b H' b') (hb : b ∈ H.free) :
    H'.free = insert b' (H.free.erase b ∪
      (Finset.Ico b'.order b.order).image b.rightAt) := by
  induction h with
  | refl H b =>
      rw [Finset.Ico_self, Finset.image_empty, Finset.union_empty,
        Finset.insert_erase hb]
  | @step H H' b b' hb' h0 rest ih =>
      have hleft : b.left ∉ insert b.right (H.free.erase b) := by
        rw [Finset.mem_insert, not_or]
        refine ⟨b.left_ne_right, fun hmem => ?_⟩
        exact H.left_not_mem (Tiling.mem_free.mp hb).1 h0
          (Tiling.mem_free.mp (Finset.mem_of_mem_erase hmem)).1
      have hle : b'.order ≤ b.order - 1 := rest.order_le
      have hrights : (Finset.Ico b'.order b.order).image b.rightAt =
          insert b.right
            ((Finset.Ico b'.order (b.order - 1)).image b.left.rightAt) := by
        have hIco : Finset.Ico b'.order b.order =
            insert (b.order - 1) (Finset.Ico b'.order (b.order - 1)) := by
          ext k
          simp only [Finset.mem_insert, Finset.mem_Ico]
          omega
        rw [hIco, Finset.image_insert, Block.rightAt_pred h0]
        refine congrArg (insert b.right) (Finset.image_congr ?_)
        intro k hk
        have hk' := (Finset.mem_Ico.mp hk).2
        exact (Block.rightAt_left (by omega)).symm
      rw [ih (left_mem_free_split hb' h0), free_split, Finset.erase_insert hleft,
        hrights, Finset.insert_union, Finset.union_insert, Block.left_order]

theorem SplitsTo.coalescedExcept
    (h : SplitsTo H b H' b') (hc : H.CoalescedExcept b) :
    H'.CoalescedExcept b' := by
  induction h with
  | refl => exact hc
  | step hb h0 _ ih => exact ih (hc.split hb h0)

end Down

section Up

variable {H H' : Tiling root maxOrder} {b b' : Block}

theorem MergesTo.used_eq (h : MergesTo H b H' b') : H'.used = H.used := by
  induction h with
  | refl => rfl
  | step hb hbuddy horder _ ih => rw [ih, merge_used]

theorem MergesTo.mem_free (h : MergesTo H b H' b') (hb : b ∈ H.free) :
    b' ∈ H'.free := by
  induction h with
  | refl => exact hb
  | step hb hbuddy horder _ ih =>
      exact ih (parent_mem_free_merge hb hbuddy horder)

theorem MergesTo.within (h : MergesTo H b H' b') : b.Within b' := by
  induction h with
  | refl => exact Block.Within.refl _
  | step hb hbuddy horder _ ih => exact (Block.within_parent _).trans ih

theorem MergesTo.coalescedExcept
    (h : MergesTo H b H' b') (hc : H.CoalescedExcept b) :
    H'.CoalescedExcept b' := by
  induction h with
  | refl => exact hc
  | step hb hbuddy horder _ ih => exact ih (hc.merge hb hbuddy horder)

/-- Tiles outside the block reached are neither added nor removed. -/
theorem MergesTo.mem_tiles_iff
    (h : MergesTo H b H' b') {t : Block} (ht : ¬ t.Within b') :
    t ∈ H'.tiles ↔ t ∈ H.tiles := by
  induction h with
  | refl => exact Iff.rfl
  | @step H H' b b' hb hbuddy horder rest ih =>
      rw [ih ht, merge_tiles]
      have hparent : t ≠ b.parent := by
        rintro rfl
        exact ht rest.within
      have hself : t ≠ b := by
        rintro rfl
        exact ht ((Block.within_parent _).trans rest.within)
      have hother : t ≠ b.buddy := by
        rintro rfl
        exact ht ((Block.buddy_within_parent _).trans rest.within)
      simp [hparent, hself, hother]

theorem MergesTo.mem_free_iff
    (h : MergesTo H b H' b') {t : Block} (ht : ¬ t.Within b') :
    t ∈ H'.free ↔ t ∈ H.free := by
  rw [Tiling.mem_free, Tiling.mem_free, h.mem_tiles_iff ht, h.used_eq]

theorem MergesTo.order_le (h : MergesTo H b H' b') : b.order ≤ b'.order :=
  h.within.1

/-- Going up replaces the free block and the buddies of its ancestors by the
block reached. -/
theorem MergesTo.free_eq (h : MergesTo H b H' b') (hb : b ∈ H.free) :
    H'.free = insert b' ((H.free.erase b) \
      (Finset.Ico b.order b'.order).image fun i => (b.ancestor i).buddy) := by
  induction h with
  | refl H b =>
      rw [Finset.Ico_self, Finset.image_empty, Finset.sdiff_empty,
        Finset.insert_erase hb]
  | @step H H' b b' hb' hbuddy horder rest ih =>
      have hparent : b.parent ∉ (H.free.erase b).erase b.buddy := by
        intro hmem
        have hfree := Finset.mem_of_mem_erase (Finset.mem_of_mem_erase hmem)
        exact H.parent_not_mem (Tiling.mem_free.mp hb).1
          (Tiling.mem_free.mp hfree).1
      have hle : b.order + 1 ≤ b'.order := rest.order_le
      have hbuddies : (Finset.Ico b.order b'.order).image
            (fun i => (b.ancestor i).buddy) =
          insert b.buddy ((Finset.Ico (b.order + 1) b'.order).image
            fun i => (b.parent.ancestor i).buddy) := by
        have hIco : Finset.Ico b.order b'.order =
            insert b.order (Finset.Ico (b.order + 1) b'.order) := by
          ext k
          simp only [Finset.mem_insert, Finset.mem_Ico]
          omega
        rw [hIco, Finset.image_insert, Block.ancestor_self]
        refine congrArg (insert b.buddy) (Finset.image_congr ?_)
        intro i hi
        have hi' := (Finset.mem_Ico.mp hi).1
        exact congrArg Block.buddy (Block.ancestor_parent (by omega)).symm
      rw [ih (parent_mem_free_merge hb' hbuddy horder), free_merge,
        Finset.erase_insert hparent, hbuddies, Finset.sdiff_insert,
        Finset.erase_sdiff_comm, Block.parent_order]

/-- Every absorbed level had its buddy free from the start. -/
theorem MergesTo.buddy_mem_free
    (h : MergesTo H b H' b') {k : ℕ}
    (hbk : b.order ≤ k) (hk : k < b'.order) :
    (b.ancestor k).buddy ∈ H.free := by
  induction h with
  | refl => omega
  | @step H H' b b' hb hbuddy horder rest ih =>
      rcases Nat.eq_or_lt_of_le hbk with rfl | hlt
      · rwa [Block.ancestor_self]
      · have hmem := ih hlt hk
        rw [Block.ancestor_parent hlt, free_merge, Finset.mem_insert,
          Finset.mem_erase, Finset.mem_erase] at hmem
        rcases hmem with heq | hmem
        · -- The buddy of a proper ancestor is never on the path itself.
          exfalso
          have horders := congrArg Block.order heq
          simp only [Block.buddy_order, Block.ancestor_order,
            Block.parent_order] at horders
          subst horders
          rw [Block.ancestor_succ (Nat.le_refl _), Block.ancestor_self] at heq
          exact Block.buddy_ne _ heq
        · exact hmem.2.2

end Up

/-! ## Unused windows -/

/-- A window is unused when it has no point in common with a used tile. -/
def Unused (H : Tiling root maxOrder) (w : Block) : Prop :=
  ∀ b ∈ H.used, ∀ x, b.Contains x → ¬ w.Contains x

theorem Unused.mono
    {H : Tiling root maxOrder} {v w : Block}
    (h : H.Unused w) (hvw : v.Within w) : H.Unused v :=
  fun b hb x hbx hvx => h b hb x hbx (hvw.contains hvx)

/-- In a coalesced tiling every unused window of admissible order lies in a
free tile. -/
theorem exists_free_of_unused
    {H : Tiling root maxOrder} (hc : H.Coalesced) {w : Block}
    (hroot : w.Within root) (horder : w.order ≤ maxOrder)
    (hw : H.Unused w) : ∃ t ∈ H.free, w.Within t := by
  -- The tile around any unused point is free.
  have hfree {v : Block} (hv : v.Within root) (hvw : H.Unused v) :
      ∃ t ∈ H.free, t.Contains v.first := by
    obtain ⟨t, ht, htx⟩ := H.exists_tile _ (hv.contains v.contains_first)
    refine ⟨t, mem_free.mpr ⟨ht, ?_⟩, htx⟩
    intro hused
    exact hvw t hused _ htx v.contains_first
  obtain ⟨k, hk⟩ : ∃ k, w.order = k := ⟨_, rfl⟩
  induction k generalizing w with
  | zero =>
      obtain ⟨t, ht, htx⟩ := hfree hroot hw
      exact ⟨t, ht, Block.within_of_contains_first (by omega) htx⟩
  | succ k ih =>
      have h0 : 0 < w.order := by omega
      obtain ⟨tl, htl, hl⟩ := ih ((Block.left_within h0).trans hroot)
        (by simp; omega) (hw.mono (Block.left_within h0)) (by simp; omega)
      obtain ⟨tr, htr, hr⟩ := ih ((Block.right_within h0).trans hroot)
        (by simp; omega) (hw.mono (Block.right_within h0)) (by simp; omega)
      by_cases hlarge : w.order ≤ tl.order
      · refine ⟨tl, htl, Block.within_of_contains hlarge
          ((Block.left_within h0).contains w.left.contains_first)
          (hl.contains w.left.contains_first)⟩
      · by_cases hlarge' : w.order ≤ tr.order
        · refine ⟨tr, htr, Block.within_of_contains hlarge'
            ((Block.right_within h0).contains w.right.contains_first)
            (hr.contains w.right.contains_first)⟩
        · -- Both halves are tiles of their own, which coalescing forbids.
          exfalso
          have hleq : w.left = tl := hl.eq_of_order (by simp; omega)
          have hreq : w.right = tr := hr.eq_of_order (by simp; omega)
          subst hleq hreq
          refine hc w.left htl ?_ (by simp; omega)
          rwa [Block.left_buddy]

/-- A coalesced tiling is determined by its used tiles. -/
theorem tiles_subset_of_used_eq
    {H K : Tiling root maxOrder}
    (hH : H.Coalesced) (hK : K.Coalesced) (hused : H.used = K.used) :
    H.tiles ⊆ K.tiles := by
  -- A free tile of one coalesced tiling lies in a free tile of the other.
  have hwithin {A B : Tiling root maxOrder} (hB : B.Coalesced)
      (hAB : A.used = B.used) {t : Block} (ht : t ∈ A.free) :
      ∃ u ∈ B.free, t.Within u := by
    obtain ⟨htiles, hnot⟩ := mem_free.mp ht
    refine exists_free_of_unused hB (A.within_root t htiles)
      (A.order_le t htiles) ?_
    intro b hb x hbx htx
    rw [← hAB] at hb
    exact hnot (A.tile_unique b (A.used_subset hb) t htiles x hbx htx ▸ hb)
  intro t ht
  by_cases htu : t ∈ H.used
  · exact K.used_subset (hused ▸ htu)
  · obtain ⟨u, hu, htu'⟩ := hwithin hK hused (mem_free.mpr ⟨ht, htu⟩)
    obtain ⟨v, hv, huv⟩ := hwithin hH hused.symm hu
    have htv : t = v :=
      H.eq_of_within ht (mem_free.mp hv).1 (htu'.trans huv)
    have huv' : u = t := huv.eq_of_order (by rw [← htv]; exact htu'.1) |>.trans htv.symm
    exact huv' ▸ (mem_free.mp hu).1

theorem eq_of_used_eq
    {H K : Tiling root maxOrder}
    (hH : H.Coalesced) (hK : K.Coalesced) (hused : H.used = K.used) :
    H = K := by
  ext1
  · exact Finset.Subset.antisymm (tiles_subset_of_used_eq hH hK hused)
      (tiles_subset_of_used_eq hK hH hused.symm)
  · exact hused

end OsCoursework.Dyadic.Tiling
