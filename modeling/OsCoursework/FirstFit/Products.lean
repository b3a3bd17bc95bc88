import OsCoursework.Allocator.Products
import OsCoursework.FirstFit.Runs

/-!
# The product in the first-fit `scalloc`

The `scalloc` of the first-fit stage multiplies in `size_t` as well, and fails
its callers for the same arguments.
-/

namespace OsCoursework.FirstFit

open OsCoursework.Bytes
open OsCoursework.Allocator (getSize mul64 sizeofMetaData maxAllocationSize
  addressLimit loopBound add64_of_le_max addLive payloadBytes HoldsZeroed
  ProductKept not_productKept mul64_eq)

/-- Whatever `scalloc(num, size)` returns in a run holds the objects. -/
def ScallocExact (num size : ℕ) : Prop :=
  ∀ w env, Reachable w → env.Valid w.st → ∀ s' p,
    scalloc env w.st num size = some (s', p) → p ≠ 0 →
      HoldsZeroed s'.mem p num size

section Calls

variable {w : World} {env : Env} {num size : ℕ} {s' : State} {p : ℕ}

/-- A request that is granted was not refused for its size. -/
theorem le_max_of_smalloc {s : State}
    (hrun : smalloc env s size = some (s', p)) (hp : p ≠ 0) :
    size ≤ maxAllocationSize := by
  by_contra hlarge
  rw [smalloc, if_pos (Or.inr (Nat.lt_of_not_le hlarge))] at hrun
  obtain ⟨-, rfl⟩ := Prod.mk.inj (Option.some.inj hrun)
  exact hp rfl

/-- Unless the product wraps, the block returned holds it. -/
theorem Reachable.holdsZeroed (hreach : Reachable w) (hvalid : env.Valid w.st)
    (hlt : num * size < addressLimit)
    (hrun : scalloc env w.st num size = some (s', p)) (hp : p ≠ 0) :
    HoldsZeroed s'.mem p num size := by
  obtain ⟨l, h⟩ := hreach.inv
  obtain ⟨s₁, p₁, l', hrun₁, h₁, -, halloc⟩ := h.smalloc hvalid (num * size)
  simp only [scalloc, mul64_eq hlt, hrun₁, Option.bind_eq_bind,
    Option.bind_some] at hrun
  split at hrun
  · obtain ⟨-, rfl⟩ := Prod.mk.inj (Option.some.inj hrun)
    exact absurd rfl hp
  obtain ⟨rfl, rfl⟩ := Prod.mk.inj (Option.some.inj hrun)
  have hsize := halloc.size_le hp
  have hplive : p₁ ∈ addLive w.live p₁ := (mem_addLive hp).mpr (Or.inl rfl)
  obtain ⟨a, ha, rfl, -⟩ := (h₁.live_iff _).mp hplive
  have hfill : AgreeOff (payloadBytes s₁.mem (a + sizeofMetaData)) s₁.mem
      (fill s₁.mem (a + sizeofMetaData) 0 (num * size)) := by
    apply (agreeOff_fill _ _ _ _).mono
    rintro x ⟨hx, hx'⟩
    exact ⟨hx, by omega⟩
  have hsame := ((h₁.write hplive hfill).2 a ha).1
  refine ⟨?_, le_max_of_smalloc hrun₁ hp, fun i hi => fill_apply s₁.mem 0 hi⟩
  rw [Nat.add_sub_cancel] at hsize ⊢
  exact hsize.trans (Nat.le_of_eq hsame.symm)

/-- Every admissible request is granted in some run, on its first call. -/
theorem exists_smalloc (hpos : 0 < size) (hmax : size ≤ maxAllocationSize) :
    ∃ env : Env, env.Valid freshWorld.st ∧
      ∃ s' p, smalloc env freshWorld.st size = some (s', p) ∧ p ≠ 0 := by
  have hlimit : 4096 + (size + sizeofMetaData) ≤ addressLimit := by
    rw [maxAllocationSize] at hmax
    rw [sizeofMetaData, addressLimit]
    omega
  have hvalid : (grant (size + sizeofMetaData) 4096).Valid freshWorld.st :=
    grant_valid (by decide) (fun _ hr => absurd hr List.not_mem_nil) hlimit
  have hinvalid : ¬ (size = 0 ∨ maxAllocationSize < size) := by omega
  have hinv := isStart_freshWorld.inv
  have hfind : findFree freshWorld.st.mem size loopBound freshWorld.st.head =
      some 0 := by
    rcases findFree_eq size hinv.linked hinv.pos hinv.length_lt_loopBound with
      ⟨A, a, B, hnil, -⟩ | ⟨-, hrun⟩
    · simp at hnil
    · exact hrun
  have hrun : ∃ s', smalloc (grant (size + sizeofMetaData) 4096) freshWorld.st
      size = some (s', 4096 + sizeofMetaData) := by
    simp only [smalloc, if_neg hinvalid, hfind, Option.bind_eq_bind,
      Option.bind_some, ne_eq, not_true, if_false, add64_of_le_max hmax, grant,
      if_true]
    exact ⟨_, rfl⟩
  obtain ⟨s', hrun⟩ := hrun
  exact ⟨_, hvalid, s', _, hrun, payload_ne_zero _⟩

end Calls

/-- `scalloc` never hands out too little exactly for the arguments whose product
is kept. -/
theorem scallocExact_iff (num size : ℕ) :
    ScallocExact num size ↔ ProductKept num size := by
  constructor
  · intro hexact
    by_contra hbad
    obtain ⟨hwraps, hpos, hmax⟩ := not_productKept hbad
    obtain ⟨env, hvalid, s', p, hrun, hp⟩ := exists_smalloc hpos hmax
    have hholds := hexact freshWorld env
      ⟨_, isStart_freshWorld, Relation.ReflTransGen.refl⟩ hvalid
      { s' with mem := fill s'.mem p 0 (mul64 num size) } p (by
        simp only [scalloc, hrun, Option.bind_eq_bind, Option.bind_some,
          if_neg hp]) hp
    have hlt := hholds.lt
    omega
  · rintro (hlt | hrefused) w env hreach hvalid s' p hrun hp
    · exact hreach.holdsZeroed hvalid hlt hrun hp
    · rw [scalloc, smalloc, if_pos hrefused] at hrun
      obtain ⟨-, rfl⟩ := Prod.mk.inj (Option.some.inj hrun)
      exact absurd rfl hp

/-- Both allocators serve `scalloc(num, size)` fully in every run exactly when
the product is kept. -/
theorem scalloc_exact_iff (num size : ℕ) :
    (Allocator.ScallocExact num size ↔ ProductKept num size) ∧
      (ScallocExact num size ↔ ProductKept num size) :=
  ⟨Allocator.scallocExact_iff num size, scallocExact_iff num size⟩

/-- Asked for `2 ^ 63 + 32` objects of two bytes each in their first call, both
allocators return blocks of less than a hundred bytes. -/
theorem scalloc_wrapped :
    (Allocator.Reachable (Allocator.freshWorld 4194304) ∧
      Allocator.noMmap.Valid (Allocator.freshWorld 4194304).st ∧
      ∃ s' p, Allocator.scalloc Allocator.noMmap
          (Allocator.freshWorld 4194304).st (2 ^ 63 + 32) 2 = some (s', p) ∧
        p ≠ 0 ∧ getSize s'.mem (p - sizeofMetaData) < (2 ^ 63 + 32) * 2) ∧
    Reachable freshWorld ∧ (grant 96 4096).Valid freshWorld.st ∧
      ∃ s' p, scalloc (grant 96 4096) freshWorld.st (2 ^ 63 + 32) 2 =
          some (s', p) ∧
        p ≠ 0 ∧ getSize s'.mem (p - sizeofMetaData) < (2 ^ 63 + 32) * 2 := by
  have hbuddy : (Allocator.scalloc Allocator.noMmap
      (Allocator.freshWorld 4194304).st (2 ^ 63 + 32) 2).map
        (fun r => (r.2, getSize r.1.mem (r.2 - sizeofMetaData))) =
      some (4194336, 96) := by
    decide +kernel
  have hfirst : (scalloc (grant 96 4096) freshWorld.st (2 ^ 63 + 32) 2).map
      (fun r => (r.2, getSize r.1.mem (r.2 - sizeofMetaData))) =
      some (4128, 64) := by
    decide +kernel
  constructor
  · refine ⟨⟨_, Allocator.isStart_freshWorld (by decide),
      Relation.ReflTransGen.refl⟩, Allocator.HeapFits.valid (by decide), ?_⟩
    obtain ⟨⟨s', p⟩, hrun, heq⟩ := Option.map_eq_some_iff.mp hbuddy
    obtain ⟨hp, hsize⟩ := Prod.mk.inj heq
    dsimp only at hp hsize
    exact ⟨s', p, hrun, by omega, by omega⟩
  · refine ⟨⟨_, isStart_freshWorld, Relation.ReflTransGen.refl⟩,
      grant_valid (by decide) (fun _ hr => absurd hr List.not_mem_nil)
        (by decide), ?_⟩
    obtain ⟨⟨s', p⟩, hrun, heq⟩ := Option.map_eq_some_iff.mp hfirst
    obtain ⟨hp, hsize⟩ := Prod.mk.inj heq
    dsimp only at hp hsize
    exact ⟨s', p, hrun, by omega, by omega⟩

end OsCoursework.FirstFit
