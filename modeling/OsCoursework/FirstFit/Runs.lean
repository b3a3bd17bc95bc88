import Mathlib.Algebra.Order.BigOperators.Group.List
import OsCoursework.FirstFit.Calls

/-!
# Whole runs

`Inv w l` ties the pointers of the client to the block list: the live pointers
are the payloads of the blocks in use, and the freed ones those of free blocks.
Every call a well-behaved client can make is defined and preserves it, so the
list and the counters are exact in every run.
-/

namespace OsCoursework.FirstFit

open OsCoursework.Bytes
open OsCoursework.LinkedList
open OsCoursework.Allocator (getSize isFree getPrev setIsFree mul64
  sizeofMetaData maxAllocationSize addressLimit blockBytes payloadBytes headed
  headed_zero addLive moveLive Call)

/-! ## The invariant -/

/-- The block list is `l`, and the client's pointers lead to its blocks. -/
structure Inv (w : World) (l : List ℕ) : Prop extends Holds w.st l where
  live_iff : ∀ p, p ∈ w.live ↔
    ∃ a ∈ l, p = a + sizeofMetaData ∧ isFree w.st.mem a = false
  freed_free : ∀ p ∈ w.freed,
    ∃ a ∈ l, p = a + sizeofMetaData ∧ isFree w.st.mem a = true

/-- What an allocation guarantees besides the invariant. -/
structure Allocated (w : World) (l : List ℕ) (size : ℕ) (s' : State) (p : ℕ) :
    Prop where
  sizes : ∀ a ∈ l, getSize s'.mem a = getSize w.st.mem a
  fresh : p ∉ w.live
  size_le : p ≠ 0 → size ≤ getSize s'.mem (p - sizeofMetaData)

section Pointers

variable {w : World} {l : List ℕ} {a b p : ℕ}

theorem payload_inj (h : a + sizeofMetaData = b + sizeofMetaData) : a = b :=
  Nat.add_right_cancel h

theorem payload_ne_zero (a : ℕ) : a + sizeofMetaData ≠ 0 := by
  rw [sizeofMetaData]
  omega

theorem Inv.zero_not_mem (h : Inv w l) : 0 ∉ w.live := by
  intro h0
  obtain ⟨a, -, ha, -⟩ := (h.live_iff 0).mp h0
  exact payload_ne_zero a ha.symm

/-- The flags after one was changed. -/
theorem Blocks.isFree_setIsFree {s : State} (h : Blocks s l) (ha : a ∈ l)
    (hb : b ∈ l) (f : Bool) :
    isFree (Allocator.setIsFree s.mem a f) b =
      if b = a then f else isFree s.mem b := by
  split
  · next heq =>
    rw [heq]
    exact isFree_setIsFree_self s.mem a f
  · next hne =>
    exact (fields_of_apart (agreeOff_setIsFree s.mem a f)
      (h.headers_apart ha hb (Ne.symm hne))).2.1

theorem Blocks.getSize_reuse {s : State} (h : Blocks s l) (ha : a ∈ l) (hb : b ∈ l) :
    getSize (reuseBlock s a).mem b = getSize s.mem b := by
  by_cases hba : b = a
  · subst hba
    exact (fields_setIsFree_self s.mem b false).1
  · exact (fields_of_apart (agreeOff_setIsFree s.mem a false)
      (h.headers_apart ha hb (Ne.symm hba))).1

theorem mem_addLive {live : Finset ℕ} {q : ℕ} (hp : p ≠ 0) :
    q ∈ addLive live p ↔ q = p ∨ q ∈ live := by
  rw [addLive, if_neg hp, Finset.mem_insert]

end Pointers

/-! ## Elementary operations -/

section Operations

variable {w : World} {l : List ℕ} {env : Env}

/-- Storing into a live payload. -/
theorem Inv.write (h : Inv w l) {p : ℕ} (hp : p ∈ w.live) {m : Mem}
    (hagree : AgreeOff (payloadBytes w.st.mem p) w.st.mem m) :
    Inv { w with st := { w.st with mem := m } } l ∧ SameBlocks w.st.mem m l := by
  obtain ⟨a, ha, rfl, -⟩ := (h.live_iff p).mp hp
  let s' : State := { w.st with mem := m }
  have hagree' : AgreeOff (payloadBytes w.st.mem (a + sizeofMetaData))
      w.st.mem s'.mem := hagree
  obtain ⟨hblocks, hsame⟩ := h.toBlocks.write ha hagree' rfl rfl
  have hfree : freeOf m l = freeOf w.st.mem l :=
    freeOf_congr fun b hb => (hsame b hb).2
  have hsizes : l.map (getSize m) = l.map (getSize w.st.mem) :=
    sizes_congr fun b hb => (hsame b hb).1
  have hfreeSizes : (freeOf w.st.mem l).map (getSize m) =
      (freeOf w.st.mem l).map (getSize w.st.mem) :=
    sizes_congr fun b hb => (hsame b (List.mem_filter.mp hb).1).1
  refine ⟨⟨⟨hblocks, ⟨?_, ?_, h.totalBlocks, ?_, h.metaDataBytes⟩⟩, ?_, ?_⟩,
    hsame⟩
  · change w.st.freeBlocks = UInt64.ofNat (freeOf m l).length
    rw [hfree, h.freeBlocks]
  · change w.st.freeBytes = UInt64.ofNat ((freeOf m l).map (getSize m)).sum
    rw [hfree, hfreeSizes, h.freeBytes]
  · change w.st.totalBytes = UInt64.ofNat (l.map (getSize m)).sum
    rw [hsizes, h.totalBytes]
  · intro q
    rw [h.live_iff q]
    refine exists_congr fun b => and_congr_right fun hb => ?_
    change _ ↔ q = b + sizeofMetaData ∧ isFree m b = false
    rw [(hsame b hb).2]
  · intro q hq
    obtain ⟨b, hb, rfl, hbfree⟩ := h.freed_free q hq
    exact ⟨b, hb, rfl, (hsame b hb).2.trans hbfree⟩

/-- The pointers after the free block at `a` was handed out. -/
theorem Inv.reuse (h : Inv w l) {a : ℕ} (ha : a ∈ l)
    (hfree : isFree w.st.mem a = true) :
    Inv ⟨reuseBlock w.st a, addLive w.live (a + sizeofMetaData),
      w.freed.erase (a + sizeofMetaData)⟩ l := by
  have hflag {b : ℕ} (hb : b ∈ l) := h.toBlocks.isFree_setIsFree ha hb false
  refine ⟨h.toHolds.reuse ha hfree, ?_, ?_⟩
  · intro q
    rw [mem_addLive (payload_ne_zero a), h.live_iff q]
    constructor
    · rintro (rfl | ⟨b, hb, rfl, hused⟩)
      · exact ⟨a, ha, rfl, isFree_setIsFree_self w.st.mem a false⟩
      · refine ⟨b, hb, rfl, (hflag hb).trans ?_⟩
        rw [hused, ite_self]
    · rintro ⟨b, hb, rfl, hused⟩
      by_cases hba : b = a
      · exact Or.inl (congrArg (· + sizeofMetaData) hba)
      · refine Or.inr ⟨b, hb, rfl, ?_⟩
        have hsame := hflag hb
        rw [if_neg hba] at hsame
        exact hsame.symm.trans hused
  · intro q hq
    obtain ⟨hne, hq⟩ := Finset.mem_erase.mp hq
    obtain ⟨b, hb, rfl, hbfree⟩ := h.freed_free q hq
    have hba : b ≠ a := fun heq => hne (congrArg (· + sizeofMetaData) heq)
    refine ⟨b, hb, rfl, (hflag hb).trans ?_⟩
    rw [if_neg hba, hbfree]

/-- The pointers after a new block was appended. -/
theorem Inv.append (h : Inv w l) {a size : ℕ} {s' : State}
    (happended : Appended w.st l a size s') :
    Inv ⟨s', addLive w.live (a + sizeofMetaData),
      w.freed.erase (a + sizeofMetaData)⟩ (l ++ [a]) := by
  refine ⟨happended.holds, ?_, ?_⟩
  · intro q
    rw [mem_addLive (payload_ne_zero a), h.live_iff q]
    constructor
    · rintro (rfl | ⟨b, hb, rfl, hused⟩)
      · exact ⟨a, by simp, rfl, happended.used⟩
      · exact ⟨b, by simp [hb], rfl, (happended.same b hb).2.trans hused⟩
    · rintro ⟨b, hb, rfl, hused⟩
      rcases List.mem_append.mp hb with hb | hb
      · exact Or.inr ⟨b, hb, rfl, (happended.same b hb).2.symm.trans hused⟩
      · exact Or.inl (congrArg (· + sizeofMetaData) (List.mem_singleton.mp hb))
  · intro q hq
    obtain ⟨-, hq⟩ := Finset.mem_erase.mp hq
    obtain ⟨b, hb, rfl, hbfree⟩ := h.freed_free q hq
    exact ⟨b, by simp [hb], rfl, (happended.same b hb).2.trans hbfree⟩

/-- `smalloc` is defined and keeps the invariant. -/
theorem Inv.smalloc (h : Inv w l) (hvalid : env.Valid w.st) (size : ℕ) :
    ∃ s' p l', smalloc env w.st size = some (s', p) ∧
      Inv ⟨s', addLive w.live p, w.freed.erase p⟩ l' ∧ l ⊆ l' ∧
      Allocated w l size s' p := by
  have hnot {a : ℕ} (hfree : a ∈ l → isFree w.st.mem a = true) :
      a + sizeofMetaData ∉ w.live := by
    intro hlive
    obtain ⟨b, hb, heq, hused⟩ := (h.live_iff _).mp hlive
    obtain rfl := payload_inj heq
    rw [hfree hb] at hused
    cases hused
  rcases h.smalloc_cases hvalid size with
    hrun | ⟨a, ha, hfit, -, hrun⟩ | ⟨-, s', a, ha, hrun, happended⟩
  · refine ⟨w.st, 0, l, hrun, ⟨h.toHolds, ?_, ?_⟩, List.Subset.refl l,
      fun _ _ => rfl, h.zero_not_mem, fun hne => absurd rfl hne⟩
    · rw [addLive, if_pos rfl]
      exact h.live_iff
    · intro p hp
      exact h.freed_free p (Finset.mem_of_mem_erase hp)
  · refine ⟨_, _, l, hrun, h.reuse ha hfit.1, List.Subset.refl l,
      fun b hb => h.getSize_reuse ha hb, hnot fun _ => hfit.1, ?_⟩
    intro _
    rw [Nat.add_sub_cancel, h.getSize_reuse ha ha]
    exact hfit.2
  · refine ⟨_, _, l ++ [a], hrun, h.append happended,
      List.subset_append_left l [a], fun b hb => (happended.same b hb).1,
      hnot fun hmem => absurd hmem ha, ?_⟩
    intro _
    rw [Nat.add_sub_cancel, happended.size_eq]

/-- `sfree` of a live pointer, or once more of a freed one. -/
theorem Inv.sfree (h : Inv w l) {p : ℕ} (hp : p = 0 ∨ p ∈ w.live ∨ p ∈ w.freed) :
    Inv ⟨sfree w.st p, w.live.erase p, addLive w.freed p⟩ l := by
  rcases hp with rfl | hp | hp
  · rw [sfree_zero, Finset.erase_eq_of_notMem h.zero_not_mem, addLive, if_pos rfl]
    exact h
  · obtain ⟨a, ha, rfl, hused⟩ := (h.live_iff p).mp hp
    obtain ⟨hholds, hmem⟩ := h.toHolds.sfree ha hused
    have hflag {b : ℕ} (hb : b ∈ l) := h.toBlocks.isFree_setIsFree ha hb true
    refine ⟨hholds, ?_, ?_⟩
    · intro q
      change q ∈ w.live.erase _ ↔ ∃ b ∈ l, q = b + sizeofMetaData ∧
        isFree (FirstFit.sfree w.st (a + sizeofMetaData)).mem b = false
      rw [hmem, Finset.mem_erase, h.live_iff q]
      constructor
      · rintro ⟨hne, b, hb, rfl, hbused⟩
        have hba : b ≠ a := fun heq => hne (congrArg (· + sizeofMetaData) heq)
        refine ⟨b, hb, rfl, ?_⟩
        rw [hflag hb, if_neg hba, hbused]
      · rintro ⟨b, hb, rfl, hbused⟩
        rw [hflag hb] at hbused
        split at hbused
        · cases hbused
        · next hba =>
          exact ⟨fun heq => hba (payload_inj heq), b, hb, rfl, hbused⟩
    · intro q hq
      change ∃ b ∈ l, q = b + sizeofMetaData ∧
        isFree (FirstFit.sfree w.st (a + sizeofMetaData)).mem b = true
      rw [hmem]
      rcases (mem_addLive (payload_ne_zero a)).mp hq with rfl | hq
      · exact ⟨a, ha, rfl, isFree_setIsFree_self w.st.mem a true⟩
      · obtain ⟨b, hb, rfl, hbfree⟩ := h.freed_free q hq
        refine ⟨b, hb, rfl, ?_⟩
        rw [hflag hb, hbfree, ite_self]
  · obtain ⟨a, ha, rfl, hfree⟩ := h.freed_free p hp
    have hnot : a + sizeofMetaData ∉ w.live := by
      intro hlive
      obtain ⟨b, hb, heq, hused⟩ := (h.live_iff _).mp hlive
      obtain rfl := payload_inj heq
      rw [hfree] at hused
      cases hused
    have hsame : addLive w.freed (a + sizeofMetaData) = w.freed := by
      rw [addLive, if_neg (payload_ne_zero a), Finset.insert_eq_of_mem hp]
    rw [sfree_of_free hfree, Finset.erase_eq_of_notMem hnot, hsame]
    exact h

theorem Inv.forget (h : Inv w l) {freed : Finset ℕ} (hsub : freed ⊆ w.freed) :
    Inv { w with freed := freed } l :=
  ⟨h.toHolds, h.live_iff, fun p hp => h.freed_free p (hsub hp)⟩

/-- `scalloc` is defined and keeps the invariant. -/
theorem Inv.scalloc (h : Inv w l) (hvalid : env.Valid w.st) (num size : ℕ) :
    ∃ s' p l', scalloc env w.st num size = some (s', p) ∧
      Inv ⟨s', addLive w.live p, w.freed.erase p⟩ l' := by
  obtain ⟨s₁, p, l', hrun, h₁, -, halloc⟩ := h.smalloc hvalid (mul64 num size)
  by_cases hp0 : p = 0
  · subst hp0
    refine ⟨s₁, 0, l', ?_, h₁⟩
    simp only [FirstFit.scalloc, hrun, Option.bind_eq_bind, Option.bind_some, if_true]
  · have hplive : p ∈ addLive w.live p := by
      rw [addLive, if_neg hp0]
      exact Finset.mem_insert_self _ _
    have hfill : AgreeOff (payloadBytes s₁.mem p) s₁.mem
        (fill s₁.mem p 0 (mul64 num size)) := by
      apply (agreeOff_fill _ _ _ _).mono
      rintro x ⟨hx, hx'⟩
      have hsize := halloc.size_le hp0
      exact ⟨hx, by omega⟩
    refine ⟨{ s₁ with mem := fill s₁.mem p 0 (mul64 num size) }, p, l', ?_,
      (h₁.write hplive hfill).1⟩
    simp only [FirstFit.scalloc, hrun, Option.bind_eq_bind, Option.bind_some,
      if_neg hp0]

/-- `srealloc` of a live pointer is defined and keeps the invariant. -/
theorem Inv.srealloc (h : Inv w l) (hvalid : env.Valid w.st) {p : ℕ}
    (hp : p ∈ w.live) (size : ℕ) :
    ∃ s' q l', srealloc env w.st p size = some (s', q) ∧
      Inv ⟨s', moveLive w.live p q, w.freed.erase q⟩ l' := by
  obtain ⟨a, ha, rfl, -⟩ := (h.live_iff p).mp hp
  have hp0 := payload_ne_zero a
  have hnull : Inv ⟨w.st, moveLive w.live (a + sizeofMetaData) 0,
      w.freed.erase 0⟩ l := by
    rw [moveLive, if_pos rfl]
    exact h.forget (Finset.erase_subset _ _)
  by_cases hinvalid : size = 0 ∨ maxAllocationSize < size
  · refine ⟨w.st, 0, l, ?_, hnull⟩
    rw [FirstFit.srealloc, if_pos hinvalid]
  rcases Nat.lt_or_ge (getSize w.st.mem a) size with hlt | hge
  · obtain ⟨s₁, q, l', hrun, h₁, hsub, halloc⟩ := h.smalloc hvalid size
    have hunfold : FirstFit.srealloc env w.st (a + sizeofMetaData) size =
        if q = 0 then some (s₁, 0)
        else some (FirstFit.sfree { s₁ with
          mem := copy s₁.mem q (a + sizeofMetaData) (getSize s₁.mem a) }
            (a + sizeofMetaData), q) := by
      simp only [FirstFit.srealloc, if_neg hinvalid, if_neg hp0, Nat.add_sub_cancel,
        if_neg (Nat.not_le.mpr hlt), hrun, Option.bind_eq_bind, Option.bind_some]
    by_cases hq0 : q = 0
    · subst hq0
      refine ⟨s₁, 0, l', by rw [hunfold, if_pos rfl], ?_⟩
      rw [moveLive, if_pos rfl]
      rw [addLive, if_pos rfl] at h₁
      exact h₁
    rw [addLive, if_neg hq0] at h₁
    have hqp : q ≠ a + sizeofMetaData := by
      rintro rfl
      exact halloc.fresh hp
    -- The copy stays inside the new payload.
    have hcopy : AgreeOff (payloadBytes s₁.mem q) s₁.mem
        (copy s₁.mem q (a + sizeofMetaData) (getSize s₁.mem a)) := by
      apply (agreeOff_copy _ _ _ _).mono
      rintro x ⟨hx, hx'⟩
      have hsize := halloc.size_le hq0
      rw [halloc.sizes a ha] at hx'
      exact ⟨hx, by omega⟩
    have h₂ := (h₁.write (Finset.mem_insert_self q w.live) hcopy).1
    have h₃ := h₂.sfree (Or.inr (Or.inl (Finset.mem_insert_of_mem hp)))
    refine ⟨_, q, l', by rw [hunfold, if_neg hq0], ?_⟩
    rw [moveLive, if_neg hq0, ← Finset.erase_insert_of_ne hqp]
    refine h₃.forget ?_
    change w.freed.erase q ⊆ addLive (w.freed.erase q) (a + sizeofMetaData)
    rw [addLive, if_neg hp0]
    exact Finset.subset_insert _ _
  · refine ⟨w.st, a + sizeofMetaData, l, ?_, ?_⟩
    · simp only [FirstFit.srealloc, if_neg hinvalid, if_neg hp0, Nat.add_sub_cancel,
        if_pos hge]
    · rw [moveLive, if_neg hp0, Finset.insert_erase hp]
      exact h.forget (Finset.erase_subset _ _)

/-- Every call of a well-behaved client is defined and keeps the invariant. -/
theorem Inv.exec (h : Inv w l) (hvalid : env.Valid w.st) {call : Call}
    (hallowed : Allowed w call) :
    ∃ w' p l', exec env w call = some (w', p) ∧ Inv w' l' := by
  cases call with
  | smalloc size =>
      obtain ⟨s', p, l', hrun, h', -, -⟩ := h.smalloc hvalid size
      exact ⟨_, p, l', by rw [FirstFit.exec, hrun]; rfl, h'⟩
  | scalloc num size =>
      obtain ⟨s', p, l', hrun, h'⟩ := h.scalloc hvalid num size
      exact ⟨_, p, l', by rw [FirstFit.exec, hrun]; rfl, h'⟩
  | sfree p => exact ⟨_, 0, l, rfl, h.sfree hallowed⟩
  | srealloc oldp size =>
      rcases hallowed with rfl | hp
      · by_cases hinvalid : size = 0 ∨ maxAllocationSize < size
        · refine ⟨⟨w.st, w.live, w.freed.erase 0⟩, 0, l, ?_,
            h.forget (Finset.erase_subset _ _)⟩
          rw [FirstFit.exec, FirstFit.srealloc, if_pos hinvalid]
          rfl
        · obtain ⟨s', p, l', hrun, h', -, -⟩ := h.smalloc hvalid size
          refine ⟨_, p, l', ?_, h'⟩
          simp only [FirstFit.exec, FirstFit.srealloc, if_neg hinvalid, if_true,
            hrun, Option.map_some, moveLive,
            Finset.erase_eq_of_notMem h.zero_not_mem]
          rfl
      · obtain ⟨s', q, l', hrun, h'⟩ := h.srealloc hvalid hp size
        exact ⟨_, q, l', by rw [FirstFit.exec, hrun]; rfl, h'⟩
  | write a v =>
      obtain ⟨p, hp, hpa, hap⟩ := hallowed
      refine ⟨_, 0, l, rfl, (h.write hp ((agreeOff_fill _ _ _ _).mono ?_)).1⟩
      rintro x ⟨hx, hx'⟩
      exact ⟨by omega, by omega⟩

end Operations

/-! ## Runs -/

theorem IsStart.inv {w : World} (h : IsStart w) : Inv w [] := by
  refine ⟨⟨⟨?_, by simp, List.Pairwise.nil, by simp, h.regions⟩,
    ⟨h.freeBlocks, h.freeBytes, h.totalBlocks, h.totalBytes, h.metaDataBytes⟩⟩,
    ?_, ?_⟩
  · rw [Linked, headed_zero, h.head]
  · intro p
    rw [h.live]
    simp
  · intro p hp
    rw [h.freed] at hp
    simp at hp

theorem Reachable.inv {w : World} (h : Reachable w) : ∃ l, Inv w l := by
  obtain ⟨w₀, hstart, hrun⟩ := h
  induction hrun with
  | refl => exact ⟨[], hstart.inv⟩
  | tail _ hstep ih =>
      obtain ⟨l, hl⟩ := ih
      obtain ⟨env, call, p, hvalid, hallowed, hexec⟩ := hstep
      obtain ⟨w', q, l', hexec', h'⟩ := hl.exec hvalid hallowed
      rw [hexec'] at hexec
      obtain ⟨rfl, -⟩ := Prod.mk.inj (Option.some.inj hexec)
      exact ⟨l', h'⟩

/-! ## Exact counters -/

/-- Blocks apart from each other between two addresses fit in between. -/
theorem sum_extent_le {m : Mem} {l : List ℕ} {lo hi : ℕ}
    (hapart : l.Pairwise fun a b => a + extent m a ≤ b) (hle : lo ≤ hi)
    (hlo : ∀ a ∈ l, lo ≤ a) (hhi : ∀ a ∈ l, a + extent m a ≤ hi) :
    lo + (l.map (extent m)).sum ≤ hi := by
  induction l generalizing lo with
  | nil => simpa using hle
  | cons a l ih =>
      obtain ⟨hfirst, hrest⟩ := List.pairwise_cons.mp hapart
      have htail := ih hrest (hhi a (by simp)) hfirst
        fun b hb => hhi b (List.mem_cons_of_mem a hb)
      have hla := hlo a (by simp)
      rw [List.map_cons, List.sum_cons]
      omega

/-- All sizes and headers together fit the address space. -/
theorem Blocks.total_lt {s : State} {l : List ℕ} (h : Blocks s l) :
    (l.map (getSize s.mem)).sum + sizeofMetaData * l.length < addressLimit := by
  have hpos : ∀ a ∈ l, 1 ≤ a := h.pos
  have hle := sum_extent_le h.apart Allocator.addressLimit_pos hpos h.le
  have hsum : (l.map (extent s.mem)).sum =
      (l.map (getSize s.mem)).sum + sizeofMetaData * l.length := by
    change (l.map fun a => getSize s.mem a + sizeofMetaData).sum = _
    rw [List.sum_map_add, List.map_const', List.sum_replicate_nat,
      Nat.mul_comm]
  omega

/-- None of the counters has wrapped around. -/
theorem Holds.counters_eq {s : State} {l : List ℕ} (h : Holds s l) :
    (numFreeBlocks s).toNat = (freeOf s.mem l).length ∧
    (numFreeBytes s).toNat = ((freeOf s.mem l).map (getSize s.mem)).sum ∧
    (numAllocatedBlocks s).toNat = l.length ∧
    (numAllocatedBytes s).toNat = (l.map (getSize s.mem)).sum ∧
    (numMetaDataBytes s).toNat = sizeofMetaData * l.length := by
  have htotal := h.total_lt
  have hsub : (freeOf s.mem l).Sublist l := List.filter_sublist
  have hlength := hsub.length_le
  have hsum : ((freeOf s.mem l).map (getSize s.mem)).sum ≤
      (l.map (getSize s.mem)).sum := (hsub.map _).sum_le_sum fun _ _ => Nat.zero_le _
  have hexact {n : ℕ} (hn : n < addressLimit) : (UInt64.ofNat n).toNat = n := by
    rw [UInt64.toNat_ofNat']
    exact Nat.mod_eq_of_lt hn
  rw [sizeofMetaData] at htotal
  rw [numFreeBlocks, numFreeBytes, numAllocatedBlocks, numAllocatedBytes,
    numMetaDataBytes, h.freeBlocks, h.freeBytes, h.totalBlocks, h.totalBytes,
    h.metaDataBytes, sizeofMetaData]
  exact ⟨hexact (by omega), hexact (by omega), hexact (by omega),
    hexact (by omega), hexact (by omega)⟩

/-! ## First fit -/

/-- The block at `a` was free and is in use now, and nothing else changed in the
list. -/
structure Reused (s : State) (l : List ℕ) (a : ℕ) (s' : State) : Prop where
  blocks : Blocks s' l
  was_free : isFree s.mem a = true
  used : isFree s'.mem a = false
  sizes : ∀ b ∈ l, getSize s'.mem b = getSize s.mem b
  others : ∀ b ∈ l, b ≠ a → isFree s'.mem b = isFree s.mem b

/-- A block of the given size in use was put behind the others, which are as they
were. -/
structure Extended (s : State) (l : List ℕ) (a size : ℕ) (s' : State) : Prop where
  blocks : Blocks s' (l ++ [a])
  size_eq : getSize s'.mem a = size
  used : isFree s'.mem a = false
  others : SameBlocks s.mem s'.mem l

/-- The request was served by the lowest free block that fits or, as none does,
by one new block. -/
def ServedFirstFit (s : State) (l : List ℕ) (size : ℕ) (s' : State) (p : ℕ) :
    Prop :=
  (∃ a ∈ l, p = a + sizeofMetaData ∧ Fit s.mem size a ∧
    (∀ b ∈ l, Fit s.mem size b → a ≤ b) ∧ Reused s l a s') ∨
  ((∀ b ∈ l, ¬ Fit s.mem size b) ∧ ∃ a, p = a + sizeofMetaData ∧
    Extended s l a size s')

theorem Holds.reused {s : State} {l : List ℕ} (h : Holds s l) {a : ℕ} (ha : a ∈ l)
    (hfree : isFree s.mem a = true) : Reused s l a (reuseBlock s a) where
  blocks := (h.reuse ha hfree).toBlocks
  was_free := hfree
  used := isFree_setIsFree_self s.mem a false
  sizes := fun _ hb => h.getSize_reuse ha hb
  others := fun _ hb hba => (h.toBlocks.isFree_setIsFree ha hb false).trans (if_neg hba)

/-- In every run the list holds the blocks that `sbrk` made, in ascending order,
the counters are exact, no call is undefined, and `smalloc` is first fit and never
hands out a pointer that is live. -/
theorem first_fit_in_every_run (w : World) (hreach : Reachable w) :
    ∃ l : List ℕ,
      Linked 0 (headed w.st.mem w.st.head) (getPrev w.st.mem) 0 l ∧
      l.Pairwise (· < ·) ∧
      w.st.regions =
        l.map (fun a => (a, getSize w.st.mem a + sizeofMetaData)) ∧
      (∀ a ∈ l, ∀ b ∈ l, a ≠ b →
        Disjoint (blockBytes w.st.mem a) (blockBytes w.st.mem b)) ∧
      (numFreeBlocks w.st).toNat = (freeOf w.st.mem l).length ∧
      (numFreeBytes w.st).toNat =
        ((freeOf w.st.mem l).map (getSize w.st.mem)).sum ∧
      (numAllocatedBlocks w.st).toNat = l.length ∧
      (numAllocatedBytes w.st).toNat = (l.map (getSize w.st.mem)).sum ∧
      (numMetaDataBytes w.st).toNat = sizeofMetaData * l.length ∧
      (∀ env call, env.Valid w.st → Allowed w call →
        (exec env w call).isSome) ∧
      ∀ env size s' p, env.Valid w.st →
        smalloc env w.st size = some (s', p) → p ≠ 0 →
          p ∉ w.live ∧ ServedFirstFit w.st l size s' p := by
  obtain ⟨l, h⟩ := hreach.inv
  obtain ⟨hfree, hfreeBytes, hblocks, hbytes, hmeta⟩ := h.counters_eq
  refine ⟨l, h.linked, h.ascending, h.regions_eq,
    fun a ha b hb hne => h.disjoint ha hb hne, hfree, hfreeBytes, hblocks, hbytes,
    hmeta, ?_, ?_⟩
  · intro env call hvalid hallowed
    obtain ⟨w', p, l', hexec, -⟩ := h.exec hvalid hallowed
    rw [hexec]
    rfl
  · intro env size s' p hvalid hrun hp0
    obtain ⟨s₀, p₀, -, hrun₀, -, -, hallocated⟩ := h.smalloc hvalid size
    rw [hrun] at hrun₀
    obtain ⟨rfl, rfl⟩ := Prod.mk.inj (Option.some.inj hrun₀)
    refine ⟨hallocated.fresh, ?_⟩
    rcases h.smalloc_cases hvalid size with
      hnull | ⟨a, ha, hfit, hfirst, hreuse⟩ | ⟨hnone, s₁, a, -, happend, happended⟩
    · rw [hnull] at hrun
      exact absurd (Prod.mk.inj (Option.some.inj hrun)).2.symm hp0
    · rw [hreuse] at hrun
      obtain ⟨rfl, rfl⟩ := Prod.mk.inj (Option.some.inj hrun)
      exact Or.inl ⟨a, ha, rfl, hfit, hfirst, h.toHolds.reused ha hfit.1⟩
    · rw [happend] at hrun
      obtain ⟨rfl, rfl⟩ := Prod.mk.inj (Option.some.inj hrun)
      exact Or.inr ⟨hnone, a, rfl, happended.holds.toBlocks, happended.size_eq,
        happended.used, happended.same⟩

/-! ## One block -/

/-- An operating system that grants one length, at one address. -/
def grant (len a : ℕ) : Env :=
  ⟨fun n => if n = len then some a else none⟩

theorem grant_valid {len a : ℕ} {s : State} (ha : 0 < a)
    (hregions : ∀ r ∈ s.regions, r.1 + r.2 ≤ a) (hlimit : a + len ≤ addressLimit) :
    (grant len a).Valid s := by
  intro n b hsome
  rw [grant, Option.ite_none_right_eq_some] at hsome
  obtain ⟨rfl, hab⟩ := hsome
  rw [← Option.some.inj hab]
  exact ⟨ha, hregions, hlimit⟩

/-- The start of a program with zeroed memory. -/
def freshWorld : World :=
  ⟨⟨fun _ => 0, 0, 0, 0, 0, 0, 0, []⟩, ∅, ∅⟩

theorem isStart_freshWorld : IsStart freshWorld :=
  ⟨rfl, rfl, rfl, rfl, rfl, rfl, rfl, rfl, rfl⟩

theorem first_smalloc_isSome :
    (exec (grant 96 4096) freshWorld (.smalloc 64)).isSome := by
  decide +kernel

/-- The world after one request. -/
@[irreducible] def oneBlock : World :=
  ((exec (grant 96 4096) freshWorld (.smalloc 64)).get first_smalloc_isSome).1

theorem oneBlock_reachable : Reachable oneBlock := by
  unfold oneBlock
  refine ⟨freshWorld, isStart_freshWorld, Relation.ReflTransGen.single
    ⟨grant 96 4096, .smalloc 64, _, ?_, trivial,
      (Option.some_get first_smalloc_isSome).symm⟩⟩
  exact grant_valid (by decide) (fun r hr => nomatch hr) (by decide)

/-- An operating system that has no more memory. -/
def noSbrk : Env :=
  ⟨fun _ => none⟩

theorem noSbrk_valid (s : State) : noSbrk.Valid s :=
  fun _ _ h => nomatch h

theorem sfree_oneBlock_isSome : (exec noSbrk oneBlock (.sfree 4128)).isSome := by
  decide +kernel

/-- The world after the request was given back. -/
@[irreducible] def freedBlock : World :=
  ((exec noSbrk oneBlock (.sfree 4128)).get sfree_oneBlock_isSome).1

theorem freedBlock_reachable : Reachable freedBlock := by
  unfold freedBlock
  obtain ⟨w₀, hstart, hrun⟩ := oneBlock_reachable
  refine ⟨w₀, hstart, hrun.tail ⟨noSbrk, .sfree 4128, _, noSbrk_valid _, ?_,
    (Option.some_get sfree_oneBlock_isSome).symm⟩⟩
  decide +kernel

/-- Without any more memory, a smaller request gets the block that was given back. -/
theorem first_fit_in_every_run_freedBlock :
    isFree freedBlock.st.mem 4096 = true ∧
      ∃ l s', smalloc noSbrk freedBlock.st 10 = some (s', 4128) ∧
        ServedFirstFit freedBlock.st l 10 s' 4128 ∧ isFree s'.mem 4096 = false := by
  have hfree : isFree freedBlock.st.mem 4096 = true := by decide +kernel
  have hrun : (smalloc noSbrk freedBlock.st 10).map Prod.snd = some 4128 := by
    decide +kernel
  obtain ⟨⟨s', p⟩, hrun, rfl⟩ := Option.map_eq_some_iff.mp hrun
  obtain ⟨l, -, -, -, -, -, -, -, -, -, -, hserved⟩ :=
    first_fit_in_every_run freedBlock freedBlock_reachable
  obtain ⟨-, hserved⟩ := hserved noSbrk 10 s' 4128 (noSbrk_valid _) hrun (by decide)
  refine ⟨hfree, l, s', hrun, hserved, ?_⟩
  rcases hserved with ⟨a, -, ha, -, -, hreused⟩ | ⟨-, a, ha, hextended⟩
  · rw [payload_inj (b := a) (a := 4096) ha]
    exact hreused.used
  · rw [payload_inj (b := a) (a := 4096) ha]
    exact hextended.used

end OsCoursework.FirstFit
