import OsCoursework.Allocator.Replay

/-!
# The product in `scalloc`

`scalloc` multiplies its arguments in `size_t`.  When the product wraps, the
block it returns is one for the wrapped product, which is far too small for the
objects it should hold.
-/

namespace OsCoursework.Allocator

open OsCoursework.Bytes
open OsCoursework.Dyadic

/-- The block of `p` holds `num` objects of `size` bytes, all zero. -/
structure HoldsZeroed (m : Mem) (p num size : ℕ) : Prop where
  size_le : num * size ≤ getSize m (p - sizeofMetaData)
  le_max : num * size ≤ maxAllocationSize
  zero : ∀ i < num * size, m (p + i) = 0

/-- The product of `num` and `size` is exact, or refused as it is. -/
def ProductKept (num size : ℕ) : Prop :=
  num * size < addressLimit ∨ mul64 num size = 0 ∨
    maxAllocationSize < mul64 num size

/-- Whatever `scalloc(num, size)` returns in a run holds the objects. -/
def ScallocExact (num size : ℕ) : Prop :=
  ∀ w env, Reachable w → env.Valid w.st → ∀ s' p,
    scalloc env w.st num size = some (s', p) → p ≠ 0 →
      HoldsZeroed s'.mem p num size

/-- A product that is not kept wraps to the size of an admissible request. -/
theorem not_productKept {num size : ℕ} (h : ¬ ProductKept num size) :
    addressLimit ≤ num * size ∧ 0 < mul64 num size ∧
      mul64 num size ≤ maxAllocationSize := by
  rw [ProductKept, not_or, not_or, Nat.not_lt, Nat.not_lt] at h
  obtain ⟨hwraps, hpos, hmax⟩ := h
  exact ⟨hwraps, Nat.pos_of_ne_zero hpos, hmax⟩

theorem mul64_eq {num size : ℕ} (h : num * size < addressLimit) :
    mul64 num size = num * size :=
  Nat.mod_eq_of_lt h

/-- No block can hold a product that wraps. -/
theorem HoldsZeroed.lt {m : Mem} {p num size : ℕ}
    (h : HoldsZeroed m p num size) : num * size < addressLimit := by
  have hle := h.le_max
  rw [maxAllocationSize] at hle
  rw [addressLimit]
  omega

/-- Unless the product wraps, the block returned holds it. -/
theorem Reachable.holdsZeroed {w : World} (hreach : Reachable w) {env : Env}
    (hvalid : env.Valid w.st) {num size : ℕ} (hlt : num * size < addressLimit)
    {s' : State} {p : ℕ} (hrun : scalloc env w.st num size = some (s', p))
    (hp : p ≠ 0) : HoldsZeroed s'.mem p num size := by
  rw [scalloc, mul64_eq hlt] at hrun
  split at hrun
  · obtain ⟨-, rfl⟩ := Prod.mk.inj (Option.some.inj hrun)
    exact absurd rfl hp
  next hvalue =>
  obtain ⟨s₁, p₁, hrun₁, h₁, halloc⟩ :=
    closed_inv.smalloc hreach.inv trivial hvalid (num * size)
  rw [hrun₁] at hrun
  simp only [Option.bind_eq_bind, Option.bind_some] at hrun
  split at hrun
  · obtain ⟨-, rfl⟩ := Prod.mk.inj (Option.some.inj hrun)
    exact absurd rfl hp
  obtain ⟨rfl, rfl⟩ := Prod.mk.inj (Option.some.inj hrun)
  have hsize := halloc.size_le hp
  rw [addLive_of_ne hp] at h₁
  have hfill : AgreeOff (payloadBytes s₁.mem p₁) s₁.mem
      (fill s₁.mem p₁ 0 (num * size)) := by
    apply (agreeOff_fill _ _ _ _).mono
    rintro x ⟨hx, hx'⟩
    exact ⟨hx, by omega⟩
  have hheader :=
    (closed_inv.kept_of_write h₁ (Finset.mem_insert_self _ _) hfill).2
  refine ⟨?_, by omega, fun i hi => fill_apply s₁.mem 0 hi⟩
  change num * size ≤ getSize (fill s₁.mem p₁ 0 (num * size)) _
  rw [hheader]
  exact hsize

/-- Every admissible request is granted in some run, on its first call. -/
theorem exists_smalloc {size : ℕ} (hpos : 0 < size)
    (hmax : size ≤ maxAllocationSize) :
    ∃ env : Env, env.Valid (freshWorld 4194304).st ∧
      ∃ s' p, smalloc env (freshWorld 4194304).st size = some (s', p) ∧
        p ≠ 0 := by
  have hinvalid : ¬ (size = 0 ∨ maxAllocationSize < size) := by omega
  rcases Nat.lt_or_ge mmapMinLimit (size + sizeofMetaData) with hlarge | hsmall
  · -- A region of its own, with `sbrk` failing.
    let x : Answers := ⟨false, some (4096, size + sizeofMetaData), true⟩
    have hensure : ensureHeap x.env (freshWorld 4194304).st =
        (freshWorld 4194304).st := rfl
    have hfits : x.Fits (freshWorld 4194304).st := by
      refine ⟨Or.inr (Or.inl rfl), ?_⟩
      intro r hr
      obtain rfl := List.mem_singleton.mp hr
      rw [maxAllocationSize] at hmax
      rw [hensure]
      change RegionFits _ 4096 (size + sizeofMetaData)
      refine ⟨by decide, by decide, ?_, ?_, ?_⟩
      · rw [sizeofMetaData, addressLimit]
        omega
      · intro c hc
        exact absurd hc (Finset.notMem_empty c)
      · intro hinit
        cases hinit
    have hmmap : x.env.mmap (size + sizeofMetaData) = some 4096 := by
      simp [x, Answers.env]
    have hrun : smalloc x.env (freshWorld 4194304).st size =
        some (mapBlock (freshWorld 4194304).st 4096 size,
          4096 + sizeofMetaData) := by
      simp only [smalloc, if_neg hinvalid, add64_of_le_max hmax,
        if_pos hlarge, hmmap, hensure]
      rfl
    exact ⟨x.env, hfits.valid, _, _, hrun, payload_ne_zero _⟩
  · have hvalid : noMmap.Valid (freshWorld 4194304).st :=
      HeapFits.valid (by decide)
    have hstart : IsStart (freshWorld 4194304) :=
      isStart_freshWorld (by decide)
    obtain ⟨hready, -⟩ := hstart.unready.initHeap hvalid rfl
    obtain ⟨r, hr, hfits⟩ := exists_fits hsmall
    refine ⟨noMmap, hvalid, ?_⟩
    rw [smalloc_of_small noMmap _ hpos hsmall]
    rcases splitBlockBuddy_eq hfits hr hready.rep with
      ⟨hnone, -⟩ | ⟨s', H', big, b, hrun, -⟩
    · have hfirst := hnone _ ((mem_initialTiling_free _).mpr
        ⟨0, by decide, rfl⟩)
      exact absurd hr (Nat.not_le.mpr hfirst)
    · exact ⟨s', _, hrun, payload_ne_zero _⟩

/-- `scalloc` never hands out too little exactly for the arguments whose product
is kept. -/
theorem scallocExact_iff (num size : ℕ) :
    ScallocExact num size ↔ ProductKept num size := by
  constructor
  · intro hexact
    by_contra hbad
    obtain ⟨hwraps, hpos, hmax⟩ := not_productKept hbad
    obtain ⟨env, hvalid, s', p, hrun, hp⟩ := exists_smalloc hpos hmax
    have hvalue : ¬ (mul64 num size = 0 ∨
        maxAllocationSize < mul64 num size) := by omega
    have hholds := hexact (freshWorld 4194304) env
      ⟨_, isStart_freshWorld (by decide), Relation.ReflTransGen.refl⟩ hvalid
      { s' with mem := fill s'.mem p 0 (mul64 num size) } p (by
        simp only [scalloc, if_neg hvalue, hrun, Option.bind_eq_bind,
          Option.bind_some, if_neg hp]) hp
    have hlt := hholds.lt
    omega
  · rintro (hlt | hrefused) w env hreach hvalid s' p hrun hp
    · exact hreach.holdsZeroed hvalid hlt hrun hp
    · rw [scalloc, if_pos hrefused] at hrun
      obtain ⟨-, rfl⟩ := Prod.mk.inj (Option.some.inj hrun)
      exact absurd rfl hp

end OsCoursework.Allocator
