import OsCoursework.Allocator.Contract
import OsCoursework.FirstFit.Runs

/-!
# The contract of the first-fit allocator

Every run of the first-fit allocator is a run of the contract that the buddy
allocator meets too, so a client cannot tell the two stages apart by what is
promised to it.  Here `srealloc` always provides the size asked for, and freeing a
pointer again is no different from not freeing it.
-/

namespace OsCoursework.FirstFit

open OsCoursework.Bytes
open OsCoursework.Transition
open OsCoursework.LinkedList
open OsCoursework.ClientHeap (Holdings Request Answer Shows SameAt Relocates)
open OsCoursework.Allocator (getSize isFree getNext getPrev setIsFree mul64
  sizeofMetaData maxAllocationSize addressLimit payloadBytes headerBytes
  linkBytes_subset_headerBytes headerBytes_mono payloadSize addLive moveLive Call)

/-! ## What the functions write -/

section Frames

variable {s s' : State} {l : List ℕ} {env : Env} {size p : ℕ}

/-- Appending a block writes its header and links of the others. -/
theorem Holds.append_frame (h : Holds s l) {a : ℕ} (ha : 0 < a)
    (hregions : ∀ r ∈ s.regions, r.1 + r.2 ≤ a)
    (hlimit : a + (size + sizeofMetaData) ≤ addressLimit) {s₁ : State}
    (hrun : addNewBlock { s with
      mem := newHeader s.mem a size
      regions := s.regions ++ [(a, size + sizeofMetaData)] } a = some s₁) :
    AgreeOff (headerBytes {b | b ∈ l ++ [a]}) s.mem s₁.mem := by
  have hbounds : a + 32 ≤ addressLimit ∧ size < addressLimit := by
    rw [sizeofMetaData] at hlimit
    omega
  obtain ⟨-, -, hnext, hprev⟩ := newHeader_fields s.mem a hbounds.2
  have hbefore : ∀ b ∈ l, b + 32 ≤ a := by
    intro b hb
    have hbelow := hregions (b, extent s.mem b) (by
      rw [h.regions_eq]
      exact List.mem_map_of_mem hb)
    rw [extent, sizeofMetaData] at hbelow
    omega
  obtain ⟨hheaders, hnodup⟩ := h.headers_append ha hbefore hbounds.1
  have hnot : a ∉ l := by
    intro hmem
    exact (List.nodup_append'.mp hnodup).2.2 hmem (List.mem_singleton_self a)
  obtain ⟨m, head, hadd, hholds⟩ := addNewBlock_holds
    (s := { s with
      mem := newHeader s.mem a size
      regions := s.regions ++ [(a, size + sizeofMetaData)] })
    (h.linked_newHeader hbefore size) h.length_lt_loopBound hheaders hnot hnext hprev
  obtain rfl := Option.some.inj (hadd.symm.trans hrun)
  have hnew : AgreeOff (headerBytes {b | b ∈ l ++ [a]}) s.mem
      (newHeader s.mem a size) := by
    apply (agreeOff_newHeader s.mem a size).mono
    rintro x ⟨hx, hx'⟩
    exact ⟨a, by simp, hx, hx'⟩
  exact hnew.trans (hholds.frame.mono (linkBytes_subset_headerBytes _))

/-- `smalloc` writes headers only: of its blocks and of the block it returns. -/
theorem Holds.smalloc_frame (h : Holds s l) (hvalid : env.Valid s)
    (hrun : smalloc env s size = some (s', p)) :
    AgreeOff (headerBytes {b | b ∈ l ∨ b + sizeofMetaData = p}) s.mem s'.mem := by
  rw [smalloc] at hrun
  split at hrun
  · obtain ⟨rfl, -⟩ := Prod.mk.inj (Option.some.inj hrun)
    exact AgreeOff.refl _ _
  next hinvalid =>
  have hmax : size ≤ maxAllocationSize := by omega
  have hhead : s.head = l.headD 0 := by
    rw [← h.linked.next_eq, Allocator.headed_zero]
  have hfind := findFree_eq size h.linked h.pos h.length_lt_loopBound
  rw [← hhead] at hfind
  rcases hfind with ⟨A, a, B, rfl, -, -, hfind⟩ | ⟨-, hfind⟩
  · have hmem : a ∈ A ++ a :: B := by simp
    have ha0 := Nat.ne_of_gt (h.pos a hmem)
    rw [hfind] at hrun
    simp only [Option.bind_eq_bind, Option.bind_some, if_pos ha0] at hrun
    obtain ⟨rfl, -⟩ := Prod.mk.inj (Option.some.inj hrun)
    exact Allocator.agreeOff_setIsFree s.mem (Or.inl hmem) false
  · rw [hfind] at hrun
    simp only [Option.bind_eq_bind, Option.bind_some, ne_eq, not_true, if_false,
      Allocator.add64_of_le_max hmax] at hrun
    cases hsbrk : env.sbrk (size + sizeofMetaData) with
    | none =>
        rw [hsbrk] at hrun
        obtain ⟨rfl, -⟩ := Prod.mk.inj (Option.some.inj hrun)
        exact AgreeOff.refl _ _
    | some a =>
        rw [hsbrk] at hrun
        obtain ⟨ha, hregions, hlimit⟩ := hvalid _ _ hsbrk
        obtain ⟨s₁, hadd, heq⟩ := Option.bind_eq_some_iff.mp hrun
        obtain ⟨rfl, rfl⟩ := Prod.mk.inj (Option.some.inj heq)
        refine (h.append_frame ha hregions hlimit hadd).mono (headerBytes_mono ?_)
        intro b hb
        rcases List.mem_append.mp hb with hb | hb
        · exact Or.inl hb
        · obtain rfl := List.mem_singleton.mp hb
          exact Or.inr rfl

/-- `sfree` writes the header of the block it frees. -/
theorem sfree_frame (s : State) (p : ℕ) :
    AgreeOff (headerBytes {p - sizeofMetaData}) s.mem (sfree s p).mem := by
  by_cases hp : p = 0
  · rw [sfree, if_pos hp]
    exact AgreeOff.refl _ _
  · simp only [sfree, if_neg hp]
    split
    · exact AgreeOff.refl _ _
    · exact Allocator.agreeOff_setIsFree s.mem (Set.mem_singleton _) true

end Frames

/-! ## The view of a world -/

/-- The heap the client of a world sees. -/
def View (w : World) (h : Holdings UInt8) : Prop :=
  Shows w.st.mem w.live (payloadSize w.st.mem) h

section View

variable {w : World} {l : List ℕ} {live : Finset ℕ}

/-- Live payloads are apart from all headers. -/
theorem Inv.payload_disjoint_header (h : Inv w l) {p : ℕ} (hp : p ∈ w.live) :
    Disjoint (payloadBytes w.st.mem p) (headerBytes {b | b ∈ l}) := by
  obtain ⟨a, ha, rfl, -⟩ := (h.live_iff p).mp hp
  refine Set.disjoint_left.mpr ?_
  rintro x ⟨hx, hx'⟩ ⟨b, hb, hbx, hbx'⟩
  rw [Nat.add_sub_cancel, sizeofMetaData] at hx'
  rw [sizeofMetaData] at hx
  by_cases hba : b = a
  · omega
  · have hapart := h.apart_of_ne ha hb (Ne.symm hba)
    rw [extent, extent, sizeofMetaData] at hapart
    omega

theorem Inv.payload_disjoint (h : Inv w l) {p q : ℕ} (hp : p ∈ w.live)
    (hq : q ∈ w.live) (hne : p ≠ q) :
    Disjoint (payloadBytes w.st.mem p) (payloadBytes w.st.mem q) := by
  obtain ⟨a, ha, rfl, -⟩ := (h.live_iff p).mp hp
  obtain ⟨b, hb, rfl, -⟩ := (h.live_iff q).mp hq
  have hab : a ≠ b := fun heq => hne (congrArg (· + sizeofMetaData) heq)
  have hblocks := h.toBlocks.disjoint ha hb hab
  have hsub (c : ℕ) : payloadBytes w.st.mem (c + sizeofMetaData) ⊆
      Allocator.blockBytes w.st.mem c := by
    rw [payloadBytes, Nat.add_sub_cancel]
    rintro x ⟨hx, hx'⟩
    exact ⟨by omega, by omega⟩
  exact hblocks.mono (hsub a) (hsub b)

theorem Inv.exists_view (h : Inv w l) : ∃ holdings, View w holdings :=
  ClientHeap.exists_shows h.zero_not_mem fun _ hp _ hq => h.payload_disjoint hp hq

/-- The client sees no change where sizes stay and payloads are not written. -/
theorem Inv.sameAt (h : Inv w l) (hsub : live ⊆ w.live) {m : Mem} {W : Set ℕ}
    (hsizes : ∀ a ∈ l, getSize m a = getSize w.st.mem a)
    (hagree : AgreeOff W w.st.mem m)
    (hW : ∀ p ∈ live, Disjoint (payloadBytes w.st.mem p) W) :
    SameAt live w.st.mem m (payloadSize w.st.mem) (payloadSize m) := by
  intro p hp
  obtain ⟨a, ha, hpa, -⟩ := (h.live_iff p).mp (hsub hp)
  refine ⟨?_, fun x hx => hagree x (Set.disjoint_left.mp (hW p hp) hx)⟩
  rw [payloadSize, payloadSize, hpa, Nat.add_sub_cancel]
  exact hsizes a ha

end View

/-! ## The calls -/

section Calls

variable {w : World} {l : List ℕ} {env : Env}

/-- `smalloc` hides nothing: what the client held looks the same. -/
theorem Inv.smalloc_same (h : Inv w l) (hvalid : env.Valid w.st) (size : ℕ) :
    ∃ s' p l', FirstFit.smalloc env w.st size = some (s', p) ∧
      Inv ⟨s', addLive w.live p, w.freed.erase p⟩ l' ∧ l ⊆ l' ∧
      Allocated w l size s' p ∧
      SameAt w.live w.st.mem s'.mem (payloadSize w.st.mem)
        (payloadSize s'.mem) := by
  obtain ⟨s', p, l', hrun, hpost, hsub, halloc⟩ := h.smalloc hvalid size
  refine ⟨s', p, l', hrun, hpost, hsub, halloc,
    h.sameAt (Finset.Subset.refl _) halloc.sizes
      (h.toHolds.smalloc_frame hvalid hrun) fun q hq => ?_⟩
  -- The block of `q` is the same before and after, so its payload is apart from
  -- the headers of both lists.
  have hq' : q ∈ addLive w.live p := by
    rw [addLive]
    split
    · exact hq
    · exact Finset.mem_insert_of_mem hq
  obtain ⟨a, ha, hqa, -⟩ := (h.live_iff q).mp hq
  have hsame : payloadBytes s'.mem q = payloadBytes w.st.mem q := by
    rw [payloadBytes, payloadBytes, hqa, Nat.add_sub_cancel, halloc.sizes a ha]
  have hdisjoint := hpost.payload_disjoint_header hq'
  change Disjoint (payloadBytes s'.mem q) _ at hdisjoint
  rw [hsame] at hdisjoint
  refine Set.disjoint_left.mpr ?_
  rintro x hx ⟨b, hb | hb, hbx, hbx'⟩
  · exact Set.disjoint_left.mp hdisjoint hx ⟨b, hsub hb, hbx, hbx'⟩
  · have hp0 : p ≠ 0 := by
      rw [← hb]
      exact payload_ne_zero b
    have hplive : p ∈ addLive w.live p := by
      rw [addLive, if_neg hp0]
      exact Finset.mem_insert_self _ _
    obtain ⟨c, hc, hpc, -⟩ := (hpost.live_iff p).mp hplive
    obtain rfl := payload_inj (hb.trans hpc)
    exact Set.disjoint_left.mp hdisjoint hx ⟨b, hc, hbx, hbx'⟩

/-- Storing into one payload is not seen in the others. -/
theorem Inv.write_same (h : Inv w l) {p : ℕ} (hp : p ∈ w.live) {m : Mem}
    (hagree : AgreeOff (payloadBytes w.st.mem p) w.st.mem m) :
    Inv { w with st := { w.st with mem := m } } l ∧
      (∀ q ∈ w.live, payloadSize m q = payloadSize w.st.mem q) ∧
      SameAt (w.live.erase p) w.st.mem m (payloadSize w.st.mem)
        (payloadSize m) := by
  obtain ⟨hpost, hsame⟩ := h.write hp hagree
  refine ⟨hpost, ?_, h.sameAt (Finset.erase_subset _ _)
    (fun a ha => (hsame a ha).1) hagree fun q hq => ?_⟩
  · intro q hq
    obtain ⟨a, ha, rfl, -⟩ := (h.live_iff q).mp hq
    rw [payloadSize, payloadSize, Nat.add_sub_cancel]
    exact (hsame a ha).1
  · obtain ⟨hne, hq⟩ := Finset.mem_erase.mp hq
    exact h.payload_disjoint hq hp hne

/-- Freeing a block is not seen in the others. -/
theorem Inv.sfree_same (h : Inv w l) {p : ℕ}
    (hp : p = 0 ∨ p ∈ w.live ∨ p ∈ w.freed) :
    SameAt (w.live.erase p) w.st.mem (FirstFit.sfree w.st p).mem (payloadSize w.st.mem)
      (payloadSize (FirstFit.sfree w.st p).mem) := by
  have hnone (hsame : FirstFit.sfree w.st p = w.st) :
      SameAt (w.live.erase p) w.st.mem (FirstFit.sfree w.st p).mem
        (payloadSize w.st.mem) (payloadSize (FirstFit.sfree w.st p).mem) := by
    rw [hsame]
    exact fun _ _ => ⟨rfl, fun _ _ => rfl⟩
  rcases hp with rfl | hp | hp
  · exact hnone (sfree_zero w.st)
  · obtain ⟨a, ha, rfl, hused⟩ := (h.live_iff p).mp hp
    obtain ⟨-, hmem⟩ := h.toHolds.sfree ha hused
    refine h.sameAt (Finset.erase_subset _ _) (fun b hb => ?_)
      (sfree_frame w.st _) fun q hq => ?_
    · rw [hmem]
      by_cases hba : b = a
      · subst hba
        exact (fields_setIsFree_self w.st.mem b true).1
      · exact (fields_of_apart (agreeOff_setIsFree w.st.mem a true)
          (h.headers_apart ha hb (Ne.symm hba))).1
    · rw [Nat.add_sub_cancel]
      refine (h.payload_disjoint_header (Finset.mem_of_mem_erase hq)).mono_right
        (headerBytes_mono ?_)
      rintro b rfl
      exact ha
  · obtain ⟨a, -, rfl, hfree⟩ := h.freed_free p hp
    exact hnone (sfree_of_free hfree)

/-- A block that `scalloc` hands out is filled with zeros. -/
theorem Inv.scalloc_zeroed (h : Inv w l) (hvalid : env.Valid w.st)
    (num size : ℕ) :
    ∃ s' p l', FirstFit.scalloc env w.st num size = some (s', p) ∧
      Inv ⟨s', addLive w.live p, w.freed.erase p⟩ l' ∧ p ∉ w.live ∧
      SameAt w.live w.st.mem s'.mem (payloadSize w.st.mem)
        (payloadSize s'.mem) ∧
      (p ≠ 0 → mul64 num size ≤ payloadSize s'.mem p ∧
        ∀ i < mul64 num size, s'.mem (p + i) = 0) := by
  obtain ⟨s₁, p, l', hrun, h₁, -, halloc, hsame⟩ :=
    h.smalloc_same hvalid (mul64 num size)
  by_cases hp0 : p = 0
  · subst hp0
    refine ⟨s₁, 0, l', ?_, h₁, halloc.fresh, hsame, fun hne => absurd rfl hne⟩
    simp only [FirstFit.scalloc, hrun, Option.bind_eq_bind, Option.bind_some, if_true]
  · have hplive : p ∈ addLive w.live p := by
      rw [addLive, if_neg hp0]
      exact Finset.mem_insert_self _ _
    have hsize := halloc.size_le hp0
    have hfill : AgreeOff (payloadBytes s₁.mem p) s₁.mem
        (fill s₁.mem p 0 (mul64 num size)) := by
      apply (agreeOff_fill _ _ _ _).mono
      rintro x ⟨hx, hx'⟩
      exact ⟨hx, by omega⟩
    obtain ⟨hpost, hsizes, hsame₂⟩ := h₁.write_same hplive hfill
    refine ⟨{ s₁ with mem := fill s₁.mem p 0 (mul64 num size) }, p, l', ?_, hpost,
      halloc.fresh, hsame.trans (hsame₂.mono ?_), fun _ => ⟨?_, fun i hi =>
        fill_apply _ _ hi⟩⟩
    · simp only [FirstFit.scalloc, hrun, Option.bind_eq_bind, Option.bind_some,
        if_neg hp0]
    · intro q hq
      refine Finset.mem_erase.mpr ⟨?_, ?_⟩
      · rintro rfl
        exact halloc.fresh hq
      · change q ∈ addLive w.live p
        rw [addLive, if_neg hp0]
        exact Finset.mem_insert_of_mem hq
    · have heq := hsizes p hplive
      change payloadSize (fill s₁.mem p 0 (mul64 num size)) p =
        payloadSize s₁.mem p at heq
      rw [heq]
      exact hsize

/-- `srealloc` of a live pointer. -/
theorem Inv.srealloc_reallocates (h : Inv w l) (hvalid : env.Valid w.st)
    {p : ℕ} (hp : p ∈ w.live) (size : ℕ) :
    ∃ s' q l', FirstFit.srealloc env w.st p size = some (s', q) ∧
      Inv ⟨s', moveLive w.live p q, w.freed.erase q⟩ l' ∧
      Relocates w.live w.st.mem s'.mem (payloadSize w.st.mem)
        (payloadSize s'.mem) p q ∧ (q ≠ 0 → size ≤ payloadSize s'.mem q) := by
  obtain ⟨a, ha, hpa, -⟩ := (h.live_iff p).mp hp
  have hpsub : p - sizeofMetaData = a := by omega
  have hp0 : p ≠ 0 := by
    rw [hpa]
    exact payload_ne_zero a
  have hself : SameAt w.live w.st.mem w.st.mem (payloadSize w.st.mem)
      (payloadSize w.st.mem) := fun _ _ => ⟨rfl, fun _ _ => rfl⟩
  by_cases hinvalid : size = 0 ∨ maxAllocationSize < size
  · refine ⟨w.st, 0, l, ?_, ?_, ⟨hself.mono (Finset.erase_subset _ _), fun _ => hself,
      fun hmem => h.zero_not_mem (Finset.mem_of_mem_erase hmem), ?_, ?_⟩, ?_⟩
    · rw [FirstFit.srealloc, if_pos hinvalid]
    · rw [moveLive, if_pos rfl]
      exact h.forget (Finset.erase_subset _ _)
    all_goals exact fun hne => absurd rfl hne
  rcases Nat.lt_or_ge (payloadSize w.st.mem p) size with hlt | hge
  · obtain ⟨s₁, q, l', hrun, h₁, hsub, halloc, hsame⟩ := h.smalloc_same hvalid size
    have hlt' : ¬ size ≤ getSize w.st.mem (p - sizeofMetaData) := by
      rw [payloadSize] at hlt
      omega
    have hunfold : FirstFit.srealloc env w.st p size =
        if q = 0 then some (s₁, 0)
        else some (FirstFit.sfree { s₁ with
          mem := copy s₁.mem q p (getSize s₁.mem (p - sizeofMetaData)) } p, q) := by
      simp only [FirstFit.srealloc, if_neg hinvalid, if_neg hp0, if_neg hlt', hrun,
        Option.bind_eq_bind, Option.bind_some]
    have hfresh : q ∉ w.live.erase p :=
      fun hmem => halloc.fresh (Finset.mem_of_mem_erase hmem)
    by_cases hq0 : q = 0
    · subst hq0
      refine ⟨s₁, 0, l', by rw [hunfold, if_pos rfl], ?_,
        ⟨hsame.mono (Finset.erase_subset _ _), fun _ => hsame, hfresh, ?_, ?_⟩, ?_⟩
      · rw [moveLive, if_pos rfl]
        rw [addLive, if_pos rfl] at h₁
        exact h₁
      all_goals exact fun hne => absurd rfl hne
    rw [addLive, if_neg hq0] at h₁
    have hqp : q ≠ p := by
      rintro rfl
      exact halloc.fresh hp
    have hqlive := Finset.mem_insert_self q w.live
    have hroom : size ≤ payloadSize s₁.mem q := halloc.size_le hq0
    have hold : getSize s₁.mem (p - sizeofMetaData) = payloadSize w.st.mem p :=
      (hsame p hp).1
    -- The copy stays inside the new payload.
    have hcopy : AgreeOff (payloadBytes s₁.mem q) s₁.mem
        (copy s₁.mem q p (getSize s₁.mem (p - sizeofMetaData))) := by
      apply (agreeOff_copy _ _ _ _).mono
      rintro x ⟨hx, hx'⟩
      rw [hold] at hx'
      refine ⟨hx, ?_⟩
      change x < q + payloadSize s₁.mem q
      omega
    obtain ⟨h₂, hsizes₂, hsame₂⟩ := h₁.write_same hqlive hcopy
    have hp₂ : p ∈ insert q w.live := Finset.mem_insert_of_mem hp
    have h₃ := h₂.sfree (Or.inr (Or.inl hp₂))
    have hsame₃ := h₂.sfree_same (Or.inr (Or.inl hp₂))
    have hq₃ := hsame₃ q (Finset.mem_erase.mpr ⟨hqp, hqlive⟩)
    obtain ⟨hsize₃, hbytes₃⟩ := hq₃
    have hqsize : payloadSize (copy s₁.mem q p
        (getSize s₁.mem (p - sizeofMetaData))) q = payloadSize s₁.mem q :=
      hsizes₂ q hqlive
    refine ⟨_, q, l', by rw [hunfold, if_neg hq0], ?_,
      ⟨?_, fun h0 => absurd h0 hq0, hfresh, fun _ => ?_, fun _ i hi => ?_⟩,
      fun _ => ?_⟩
    · rw [moveLive, if_neg hq0, ← Finset.erase_insert_of_ne hqp]
      refine h₃.forget ?_
      change w.freed.erase q ⊆ addLive (w.freed.erase q) p
      rw [addLive, if_neg hp0]
      exact Finset.subset_insert _ _
    · refine (hsame.mono (Finset.erase_subset _ _)).trans
        ((hsame₂.mono ?_).trans (hsame₃.mono ?_))
      · intro r hr
        have hrlive := Finset.mem_of_mem_erase hr
        refine Finset.mem_erase.mpr ⟨?_, Finset.mem_insert_of_mem hrlive⟩
        rintro rfl
        exact halloc.fresh hrlive
      · exact Finset.erase_subset_erase p (Finset.subset_insert q w.live)
    · rw [hsize₃]
      exact hlt.le.trans (hroom.trans_eq hqsize.symm)
    · have hi₁ : i < getSize s₁.mem (p - sizeofMetaData) := by rwa [hold]
      calc (FirstFit.sfree { s₁ with
              mem := copy s₁.mem q p (getSize s₁.mem (p - sizeofMetaData)) } p).mem
              (q + i)
          = copy s₁.mem q p (getSize s₁.mem (p - sizeofMetaData)) (q + i) := by
            refine hbytes₃ _ ⟨Nat.le_add_right q i, ?_⟩
            change q + i < q + payloadSize (copy s₁.mem q p
              (getSize s₁.mem (p - sizeofMetaData))) q
            rw [hqsize]
            omega
        _ = s₁.mem (p + i) := copy_apply s₁.mem hi₁
        _ = w.st.mem (p + i) :=
            (hsame p hp).2 _ ⟨Nat.le_add_right p i, by omega⟩
    · rw [hsize₃]
      exact hroom.trans_eq hqsize.symm
  · refine ⟨w.st, p, l, ?_, ?_, ⟨hself.mono (Finset.erase_subset _ _), fun _ => hself,
      Finset.notMem_erase _ _, fun _ => Nat.le_refl _, fun _ _ _ => rfl⟩,
      fun _ => hge⟩
    · have hge' : size ≤ getSize w.st.mem (p - sizeofMetaData) := hge
      simp only [FirstFit.srealloc, if_neg hinvalid, if_neg hp0, if_pos hge']
    · rw [moveLive, if_neg hp0, Finset.insert_erase hp]
      exact h.forget (Finset.erase_subset _ _)

end Calls

/-! ## Runs of the contract -/

/-- The product of `scalloc` does not wrap around. -/
def NoOverflow : Call → Prop
  | .scalloc num size => num * size < 2 ^ 64
  | _ => True

/-- The allocator returns `l.2` to the request `l.1`. -/
def Serves (l : Request UInt8 × ℕ) (w w' : World) : Prop :=
  ∃ env call, env.Valid w.st ∧ Allowed w call ∧ NoOverflow call ∧
    call.request = l.1 ∧ exec env w call = some (w', l.2)

section Steps

variable {w w' : World} {l : List ℕ} {env : Env} {h h' : Holdings UInt8}

/-- A client of the contract is well-behaved. -/
theorem View.allowed (hview : View w h) {call : Call}
    (hallows : h.Allows call.request) : Allowed w call := by
  cases call with
  | smalloc size => trivial
  | scalloc num size => trivial
  | sfree p =>
      rcases hallows with rfl | hp
      · exact Or.inl rfl
      · exact Or.inr (Or.inl (hview.isSome_iff.mp hp))
  | srealloc oldp size =>
      rcases hallows with rfl | hp
      · exact Or.inl rfl
      · exact Or.inr (hview.isSome_iff.mp hp)
  | write a v =>
      obtain ⟨p, bs, hp, hpa, hap⟩ := hallows
      rw [hview p] at hp
      split at hp
      · next hlive =>
        obtain rfl := Option.some.inj hp
        rw [ClientHeap.length_contents] at hap
        exact ⟨p, hlive, hpa, hap⟩
      · cases hp

/-- Every allowed call is answered as the contract says. -/
theorem View.answer (hinv : Inv w l) (hview : View w h) (hvalid : env.Valid w.st)
    {call : Call} (hallowed : Allowed w call) :
    ∃ w' r l', exec env w call = some (w', r) ∧ Inv w' l' ∧
      ∀ h', View w' h' → NoOverflow call →
        Answer true (call.request, r) h h' := by
  have hself : SameAt w.live w.st.mem w.st.mem (payloadSize w.st.mem)
      (payloadSize w.st.mem) := fun _ _ => ⟨rfl, fun _ _ => rfl⟩
  cases call with
  | smalloc size =>
      obtain ⟨s', p, l', hrun, hpost, -, halloc, hsame⟩ :=
        hinv.smalloc_same hvalid size
      exact ⟨_, p, l', by rw [exec, hrun]; rfl, hpost, fun h' hview' _ =>
        hview.answer_malloc hview' halloc.fresh hsame halloc.size_le⟩
  | scalloc num size =>
      obtain ⟨s', p, l', hrun, hpost, hfresh, hsame, hzeroed⟩ :=
        hinv.scalloc_zeroed hvalid num size
      refine ⟨_, p, l', by rw [exec, hrun]; rfl, hpost, fun h' hview' hmul => ?_⟩
      have hproduct : mul64 num size = num * size := Nat.mod_eq_of_lt hmul
      rw [hproduct] at hzeroed
      exact hview.answer_calloc hview' hfresh hsame hzeroed
  | sfree p =>
      exact ⟨_, 0, l, rfl, hinv.sfree hallowed, fun h' hview' _ =>
        hview.answer_free hview' (hinv.sfree_same hallowed)⟩
  | srealloc oldp size =>
      rcases hallowed with rfl | hp
      · by_cases hinvalid : size = 0 ∨ maxAllocationSize < size
        · refine ⟨⟨w.st, w.live, w.freed.erase 0⟩, 0, l, ?_,
            hinv.forget (Finset.erase_subset _ _), fun h' hview' _ =>
              Or.inl ⟨rfl, hview.eq_of_same hview' hself⟩⟩
          rw [exec, srealloc, if_pos hinvalid]
          rfl
        · obtain ⟨s', p, l', hrun, hpost, -, halloc, hsame⟩ :=
            hinv.smalloc_same hvalid size
          have hlive : moveLive w.live 0 p = addLive w.live p := by
            rw [moveLive, addLive, Finset.erase_eq_of_notMem hinv.zero_not_mem]
          refine ⟨⟨s', addLive w.live p, w.freed.erase p⟩, p, l', ?_, hpost,
            fun h' hview' _ => (hview.answer_malloc hview' halloc.fresh hsame
              halloc.size_le).realloc_null⟩
          simp only [exec, srealloc, if_neg hinvalid, if_true, hrun,
            Option.map_some, hlive]
      · obtain ⟨s', q, l', hrun, hpost, hmoves, hroom⟩ :=
          hinv.srealloc_reallocates hvalid hp size
        exact ⟨_, q, l', by rw [exec, hrun]; rfl, hpost, fun h' hview' _ =>
          hview.answer_realloc hview' hp hmoves fun _ => hroom⟩
  | write a v =>
      obtain ⟨p, hp, hpa, hap⟩ := hallowed
      have hfill : AgreeOff (payloadBytes w.st.mem p) w.st.mem
          (fill w.st.mem a v 1) := by
        apply (agreeOff_fill _ _ _ _).mono
        rintro x ⟨hx, hx'⟩
        exact ⟨by omega, by omega⟩
      obtain ⟨hpost, hsizes, -⟩ := hinv.write_same hp hfill
      exact ⟨_, 0, l, rfl, hpost, fun h' hview' _ =>
        hview.answer_store hview' hsizes (Allocator.fill_one w.st.mem a v)⟩

/-- One step of the allocator is one of the contract. -/
theorem View.serves (hinv : Inv w l) (hview : View w h)
    {label : Request UInt8 × ℕ} (hserves : Serves label w w') :
    (∃ l', Inv w' l') ∧ ∃ h', Answer true label h h' ∧ View w' h' := by
  obtain ⟨env, call, hvalid, hallowed, hmul, hrequest, hexec⟩ := hserves
  obtain ⟨w'', r, l', hexec', hpost, hanswer⟩ := hview.answer hinv hvalid hallowed
  rw [hexec] at hexec'
  obtain ⟨rfl, rfl⟩ := Prod.mk.inj (Option.some.inj hexec')
  obtain ⟨h', hview'⟩ := hpost.exists_view
  refine ⟨⟨l', hpost⟩, h', ?_, hview'⟩
  have hstep := hanswer h' hview' hmul
  rwa [hrequest] at hstep

end Steps

/-- Every run of the first-fit allocator is a run of the contract on what the
client sees, and there is an answer to each request that the contract allows. -/
theorem firstFit_meets_contract (w₀ w : World) (hstart : IsStart w₀)
    (ls : List (Request UInt8 × ℕ)) (hrun : Run Serves ls w₀ w) :
    ∃ h, Run (Answer true) ls Holdings.empty h ∧ View w h ∧
      ∀ env call, env.Valid w.st → h.Allows (Call.request call) →
        ∃ w' r, exec env w call = some (w', r) := by
  have hview₀ : View w₀ Holdings.empty := by
    intro p
    rw [hstart.live]
    rfl
  have hstep (label : Request UInt8 × ℕ) (w w' : World) (h : Holdings UInt8)
      (hR : (∃ l, Inv w l) ∧ View w h) (hserves : Serves label w w') :
      ∃ h', Answer true label h h' ∧ (∃ l, Inv w' l) ∧ View w' h' := by
    obtain ⟨⟨l, hinv⟩, hview⟩ := hR
    obtain ⟨hpost, h', hanswer, hview'⟩ := hview.serves hinv hserves
    exact ⟨h', hanswer, hpost, hview'⟩
  obtain ⟨h, hrun', ⟨l, hinv⟩, hview⟩ :=
    hrun.simulates hstep ⟨⟨[], hstart.inv⟩, hview₀⟩
  refine ⟨h, hrun', hview, fun env call hvalid hallows => ?_⟩
  obtain ⟨w', r, l', hexec, -⟩ := hview.answer hinv hvalid (hview.allowed hallows)
  exact ⟨w', r, hexec⟩

theorem firstFit_meets_contract_smalloc : ∃ w h,
    Run (Answer true) [((.malloc 64 : Request UInt8), 4128)] Holdings.empty h ∧
      View w h := by
  have hvalue : (exec (grant 96 4096) freshWorld (.smalloc 64)).map Prod.snd =
      some 4128 := by
    decide +kernel
  obtain ⟨⟨w, p⟩, hexec, heq⟩ := Option.map_eq_some_iff.mp hvalue
  obtain rfl : p = 4128 := heq
  have hserves : Serves (.malloc 64, 4128) freshWorld w :=
    ⟨grant 96 4096, .smalloc 64, grant_valid (by decide) (fun r hr => nomatch hr)
      (by decide), trivial, trivial, rfl, hexec⟩
  obtain ⟨h, hrun, hview, -⟩ := firstFit_meets_contract freshWorld w isStart_freshWorld _
    (.cons hserves .nil)
  exact ⟨w, h, hrun, hview⟩

end OsCoursework.FirstFit
