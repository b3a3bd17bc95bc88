import Mathlib.Data.UInt
import OsCoursework.Allocator.Contents
import OsCoursework.Allocator.Replay
import OsCoursework.Support.ClientHeap

/-!
# The contract of the buddy allocator

The payloads of the live pointers are a heap as a client sees it, and every run
of the allocator is a run of the contract on it.  Two calls are left out of the
promise: `scalloc` whose product wraps around, and, where `realloc` has to provide
room for the size asked for, a growth test that accepts although a buddy the merge
needs is not free.
-/

namespace OsCoursework.Allocator

open OsCoursework.Bytes
open OsCoursework.Dyadic
open OsCoursework.Transition
open OsCoursework.ClientHeap (Holdings Request Answer Shows SameAt Relocates contents)

/-! ## The view of a world -/

/-- What the client asks for with a call. -/
def Call.request : Call → Request UInt8
  | .smalloc size => .malloc size
  | .scalloc num size => .calloc num size
  | .sfree p => .free p
  | .srealloc oldp size => .realloc oldp size
  | .write a v => .store a v

/-- The size of the payload a pointer leads to. -/
def payloadSize (m : Mem) (p : ℕ) : ℕ :=
  getSize m (p - sizeofMetaData)

/-- A store of one byte. -/
theorem fill_one (m : Mem) (a : ℕ) (v : UInt8) :
    fill m a v 1 = Function.update m a v := by
  funext x
  by_cases hx : x = a
  · subst hx
    rw [Function.update_self]
    exact fill_apply m v Nat.one_pos
  · rw [Function.update_of_ne hx]
    refine agreeOff_fill m a v 1 x ?_
    rintro ⟨hax, hxa⟩
    omega

/-- The heap the client of a world sees. -/
def View (w : World) (h : Holdings UInt8) : Prop :=
  Shows w.st.mem w.live (payloadSize w.st.mem) h

section View

variable {w w' : World} {h h' : Holdings UInt8} {live : Finset ℕ}

theorem Inv.payload_disjoint (hinv : Inv w) {p q : ℕ} (hp : p ∈ w.live)
    (hq : q ∈ w.live) (hne : p ≠ q) :
    Disjoint (payloadBytes w.st.mem p) (payloadBytes w.st.mem q) := by
  have hblock {r : ℕ} (hr : r ∈ w.live) :
      payloadBytes w.st.mem r ⊆
        blockBytes w.st.mem (r - sizeofMetaData) := by
    obtain ⟨a, rfl⟩ := closed_inv.live_payload hinv r hr
    rw [Nat.add_sub_cancel]
    exact payload_subset_block _ _
  exact (closed_inv.blocks_disjoint hinv p hp q hq hne).mono (hblock hp)
    (hblock hq)

theorem Inv.exists_view (hinv : Inv w) : ∃ h, View w h :=
  ClientHeap.exists_shows (closed_inv.zero_not_mem hinv)
    fun _ hp _ hq => hinv.payload_disjoint hp hq

/-- What is kept with its header looks the same to the client. -/
theorem Inv.sameAt (hinv : Inv w) (hsub : live ⊆ w.live) {m : Mem}
    (hkept : Kept live w.st.mem m) :
    SameAt live w.st.mem m (payloadSize w.st.mem) (payloadSize m) := by
  intro p hp
  refine ⟨(hkept.header_eq hp).1, fun x hx => hkept p hp x ?_⟩
  obtain ⟨a, rfl⟩ := closed_inv.live_payload hinv p (hsub hp)
  rw [Nat.add_sub_cancel]
  exact payload_subset_block _ _ hx

end View

/-! ## Zeroed blocks -/

section Calls

variable {w : World} {env : Env}

/-- A block that `scalloc` hands out is filled with zeros. -/
theorem Inv.scalloc_zeroed (hinv : Inv w) (hvalid : env.Valid w.st)
    (num size : ℕ) :
    ∃ s' p, scalloc env w.st num size = some (s', p) ∧
      Inv ⟨s', addLive w.live p⟩ ∧ Kept w.live w.st.mem s'.mem ∧ p ∉ w.live ∧
      (p ≠ 0 → mul64 num size ≤ payloadSize s'.mem p ∧
        ∀ i < mul64 num size, s'.mem (p + i) = 0) := by
  by_cases hinvalid : mul64 num size = 0 ∨ maxAllocationSize < mul64 num size
  · refine ⟨w.st, 0, ?_, hinv, Kept.refl _ _, closed_inv.zero_not_mem hinv,
      fun hne => absurd rfl hne⟩
    rw [Allocator.scalloc, if_pos hinvalid]
  obtain ⟨s₁, p, hrun, h₁, halloc⟩ :=
    closed_inv.smalloc hinv trivial hvalid (mul64 num size)
  by_cases hp0 : p = 0
  · subst hp0
    refine ⟨s₁, 0, ?_, h₁, halloc.kept, halloc.fresh, fun hne => absurd rfl hne⟩
    simp only [Allocator.scalloc, if_neg hinvalid, hrun, Option.bind_eq_bind,
      Option.bind_some, if_true]
  · rw [addLive_of_ne hp0] at h₁
    have hplive := Finset.mem_insert_self p w.live
    have hsize := halloc.size_le hp0
    have hfill : AgreeOff (payloadBytes s₁.mem p) s₁.mem
        (fill s₁.mem p 0 (mul64 num size)) := by
      apply (agreeOff_fill _ _ _ _).mono
      rintro x ⟨hx, hx'⟩
      exact ⟨hx, by omega⟩
    obtain ⟨hkept, hheader⟩ := closed_inv.kept_of_write h₁ hplive hfill
    rw [Finset.erase_insert halloc.fresh] at hkept
    refine ⟨{ s₁ with mem := fill s₁.mem p 0 (mul64 num size) }, p, ?_, ?_,
      halloc.kept.trans hkept, halloc.fresh,
      fun _ => ⟨?_, fun i hi => fill_apply _ _ hi⟩⟩
    · simp only [Allocator.scalloc, if_neg hinvalid, hrun,
        Option.bind_eq_bind, Option.bind_some, if_neg hp0]
    · rw [addLive_of_ne hp0]
      exact closed_inv.write h₁ p hplive _ hfill
    · change mul64 num size ≤ getSize (fill s₁.mem p 0 (mul64 num size)) _
      rw [hheader]
      exact hsize

/-! ## Reallocated blocks -/

/-- What the client sees of a block that moved from `p` to `q`. -/
abbrev Reallocates (w : World) (p : ℕ) (s' : State) (q : ℕ) : Prop :=
  Relocates w.live w.st.mem s'.mem (payloadSize w.st.mem) (payloadSize s'.mem) p q

/-- The branch that allocates elsewhere, copies and frees. -/
theorem Inv.moveAlloc_reallocates (hinv : Inv w) (hvalid : env.Valid w.st)
    {p size : ℕ} (hp : p ∈ w.live) (hlt : payloadSize w.st.mem p < size) :
    ∃ s' q, moveAlloc env w.st p size = some (s', q) ∧
      Inv ⟨s', moveLive w.live p q⟩ ∧ Reallocates w p s' q ∧
      (q ≠ 0 → size ≤ payloadSize s'.mem q) := by
  obtain ⟨s₁, q, -, halloc, hcases⟩ :=
    closed_inv.moveAlloc_cases hinv trivial hvalid hp hlt
  have hkept₁ := halloc.kept.mono (Finset.erase_subset p w.live)
  have hfresh : q ∉ w.live.erase p :=
    fun hmem => halloc.fresh (Finset.mem_of_mem_erase hmem)
  rcases hcases with ⟨hq0, hrun, hpost⟩ | ⟨hq0, s₃, hrun, hmoves⟩
  · subst hq0
    exact ⟨s₁, 0, hrun, hpost, ⟨hinv.sameAt (Finset.erase_subset _ _) hkept₁,
      fun _ => hinv.sameAt (Finset.Subset.refl _) halloc.kept, hfresh,
      fun hne => absurd rfl hne, fun hne => absurd rfl hne⟩,
      fun hne => absurd rfl hne⟩
  · have hsize : size ≤ payloadSize s₃.mem q := by
      rw [payloadSize, hmoves.header_eq]
      exact halloc.size_le hq0
    refine ⟨s₃, q, hrun, ?_,
      ⟨hinv.sameAt (Finset.erase_subset _ _) (hkept₁.trans hmoves.kept),
        fun h0 => absurd h0 hq0, hfresh, fun _ => by omega, ?_⟩, fun _ => hsize⟩
    · rw [moveLive, if_neg hq0]
      exact hmoves.post
    · intro _ i hi
      obtain ⟨a, hqa⟩ := closed_inv.live_payload hmoves.allocated q
        (Finset.mem_insert_self q w.live)
      have hblock : q + i ∈
          blockBytes (copyPayload s₁ q p).mem (q - sizeofMetaData) := by
        have hle := halloc.size_le hq0
        rw [blockBytes, hmoves.header_copied]
        exact ⟨by omega, by omega⟩
      obtain ⟨b, hpb⟩ := closed_inv.live_payload hinv p hp
      have hold : p + i ∈ blockBytes w.st.mem (p - sizeofMetaData) := by
        rw [payloadSize] at hi
        exact ⟨by omega, by omega⟩
      have hi₁ : i < getSize s₁.mem (p - sizeofMetaData) :=
        (halloc.kept.header_eq hp).1.symm ▸ hi
      calc s₃.mem (q + i) = (copyPayload s₁ q p).mem (q + i) :=
            hmoves.freed.kept q hmoves.new_mem _ hblock
        _ = s₁.mem (p + i) := copy_apply s₁.mem hi₁
        _ = w.st.mem (p + i) := halloc.kept p hp _ hold

/-- The branch that grows the block in place. -/
theorem Ready.growInPlace_reallocates {root : Block}
    {H : Tiling root maxBlockOrder} {c : Outside} (h : Ready w H c)
    {b : Block} {r : ℕ} (hb : b ∈ H.used) (hlt : b.order < r)
    (hr : r ≤ maxBlockOrder) :
    ∃ s' q, growInPlace w.st (addr b) (usable r) = some (s', q) ∧
      Inv ⟨s', moveLive w.live (addr b + sizeofMetaData) q⟩ ∧
      Reallocates w (addr b + sizeofMetaData) s' q ∧
      ((∀ i, b.order ≤ i → i < r → (b.ancestor i).buddy ∈ H.free) →
        payloadSize s'.mem q = usable r) := by
  obtain ⟨s', H', b', hrun, hrep, hgrows, hchange, hcontents, -⟩ :=
    growInPlace_spec h.rep hb hlt hr
  have hready := h.grow hrep hgrows hchange
  have hne := payload_ne_zero (addr b')
  have hold : payloadSize w.st.mem (addr b + sizeofMetaData) = usable b.order := by
    rw [payloadSize, Nat.add_sub_cancel]
    exact h.rep.size_eq b (H.used_subset hb)
  have hnew : payloadSize s'.mem (addr b' + sizeofMetaData) = usable b'.order := by
    rw [payloadSize, Nat.add_sub_cancel]
    exact hrep.size_eq b' hgrows.mem_tiles
  -- No other live block begins where the grown one does.
  have hfresh : addr b' + sizeofMetaData ∉
      w.live.erase (addr b + sizeofMetaData) := by
    intro hmem
    obtain ⟨hne, hmem⟩ := Finset.mem_erase.mp hmem
    rcases h.live_iff hmem with ⟨t, ht, heq⟩ | ⟨a, ha, heq⟩
    · have htb : t ≠ b := by
        rintro rfl
        exact hne heq
      have ht' : t ∈ H'.used := by
        rw [hgrows.used_eq]
        exact Finset.mem_insert_of_mem (Finset.mem_erase.mpr ⟨htb, ht⟩)
      obtain rfl := tile_addr_inj H' hgrows.mem_tiles (H'.used_subset ht')
        (Nat.add_right_cancel heq)
      exact hgrows.not_mem_used (Finset.mem_erase.mpr ⟨htb, ht⟩)
    · have ha' : a ∈ s'.mapped := by rwa [hchange.mapped]
      exact hready.tile_ne_map hgrows.mem_tiles ha' (Nat.add_right_cancel heq)
  have hsame := Inv.sameAt (Or.inr ⟨root, H, c, h⟩) (Finset.erase_subset _ _)
    (h.kept_of_release hchange.agree)
  refine ⟨s', _, hrun, ?_, ⟨hsame, fun h0 => absurd h0 hne, hfresh,
    fun _ => ?_, fun _ i hi => ?_⟩, fun hall => ?_⟩
  · rw [moveLive, if_neg hne]
    exact Or.inr ⟨root, H', c, hready⟩
  · rw [hold, hnew]
    exact usable_le_of_le hgrows.within.1
  · rw [hold] at hi
    exact hcontents i hi
  · rw [hnew, hgrows.order_eq_iff.mpr hall]

/-- `srealloc` of a live pointer. -/
theorem Inv.srealloc_reallocates (hinv : Inv w) (hvalid : env.Valid w.st)
    {p : ℕ} (hp : p ∈ w.live) (size : ℕ) :
    ∃ s' q, srealloc env w.st p size = some (s', q) ∧
      Inv ⟨s', moveLive w.live p q⟩ ∧ Reallocates w p s' q ∧
      (q ≠ 0 → GrowthSound w.st.mem (p - sizeofMetaData) size →
        size ≤ payloadSize s'.mem q) := by
  obtain ⟨a, hpa⟩ := closed_inv.live_payload hinv p hp
  have ha : p - sizeofMetaData = a := by omega
  have hself := hinv.sameAt (Finset.Subset.refl _) (Kept.refl _ _)
  by_cases hinvalid : size = 0 ∨ maxAllocationSize < size
  · exact ⟨w.st, 0, srealloc_of_invalid _ _ _ hinvalid, hinv,
      ⟨hself.mono (Finset.erase_subset _ _), fun _ => hself,
        fun hmem => closed_inv.zero_not_mem hinv (Finset.mem_of_mem_erase hmem),
        fun hne => absurd rfl hne, fun hne => absurd rfl hne⟩,
      fun hne => absurd rfl hne⟩
  rcases Nat.lt_or_ge (payloadSize w.st.mem p) size with hlt | hge
  · have hmoved (hrun : srealloc env w.st p size = moveAlloc env w.st p size) :
        ∃ s' q, srealloc env w.st p size = some (s', q) ∧
          Inv ⟨s', moveLive w.live p q⟩ ∧ Reallocates w p s' q ∧
          (q ≠ 0 → GrowthSound w.st.mem (p - sizeofMetaData) size →
            size ≤ payloadSize s'.mem q) := by
      obtain ⟨s', q, hrun', hpost, hreall, hsize⟩ :=
        hinv.moveAlloc_reallocates hvalid hp hlt
      exact ⟨s', q, hrun.trans hrun', hpost, hreall, fun hq0 _ => hsize hq0⟩
    have hlt' : getSize w.st.mem (p - sizeofMetaData) < size := hlt
    rcases Nat.lt_or_ge mmapMinLimit (size + sizeofMetaData) with
      hlarge | hsmall
    · refine hmoved ?_
      rw [ha] at hlt'
      rw [hpa]
      exact srealloc_of_large hinvalid env hlt' hlarge
    rcases hinv with h | ⟨root, H, c, h⟩
    · -- Without a heap the block is a mapping, which holds more than that.
      obtain ⟨d, hd, rfl⟩ := h.live_iff hp
      have hbig := (h.maps.block d hd).large
      rw [Nat.add_sub_cancel] at hlt'
      omega
    obtain ⟨b, hb, hpb, r, hr, hfits, hbr⟩ := h.exists_used_of_lt hp hlt' hsmall
    subst hpb
    rcases srealloc_of_used env h.rep hb hfits hbr hr with
      ⟨hprobes, hrun⟩ | ⟨-, hrun⟩
    · obtain ⟨s', q, hgrow, hpost, hreall, hroom⟩ :=
        h.growInPlace_reallocates hb hbr hr
      refine ⟨s', q, hrun.trans hgrow, hpost, hreall, fun _ hsound => ?_⟩
      rw [Nat.add_sub_cancel, h.rep.growthSound_iff hb hfits hbr hr] at hsound
      rw [hroom (hsound hprobes), hfits.le_usable_iff]
    · exact hmoved hrun
  · have hp0 : p ≠ 0 := by
      rw [hpa]
      exact payload_ne_zero a
    refine ⟨w.st, p, ?_, ?_, ⟨hself.mono (Finset.erase_subset _ _), fun _ => hself,
      Finset.notMem_erase _ _, fun _ => Nat.le_refl _, fun _ _ _ => rfl⟩,
      fun _ _ => hge⟩
    · have hge' : size ≤ getSize w.st.mem (p - sizeofMetaData) := hge
      rw [ha] at hge'
      rw [hpa]
      exact srealloc_of_le hinvalid env hge'
    · rw [moveLive, if_neg hp0, Finset.insert_erase hp]
      exact hinv

end Calls

/-! ## Runs of the contract -/

/-- The calls for which the promise is made. -/
def Call.Regular (sized : Bool) (w : World) : Call → Prop
  | .scalloc num size => num * size < 2 ^ 64
  | .srealloc oldp size => sized = true → oldp ≠ 0 →
      GrowthSound w.st.mem (oldp - sizeofMetaData) size
  | _ => True

/-- The allocator returns `l.2` to the request `l.1`. -/
def Serves (sized : Bool) (l : Request UInt8 × ℕ) (w w' : World) : Prop :=
  ∃ env call, env.Valid w.st ∧ call.Allowed w ∧ call.Regular sized w ∧
    call.request = l.1 ∧ exec env w call = some (w', l.2)

section Steps

variable {w w' : World} {env : Env} {sized : Bool} {h h' : Holdings UInt8}

/-- The well-behaved clients of the program are those of the contract. -/
theorem View.allowed_iff (hview : View w h) (call : Call) :
    call.Allowed w ↔ h.Allows call.request := by
  cases call with
  | smalloc size => exact Iff.rfl
  | scalloc num size => exact Iff.rfl
  | sfree p => exact or_congr_right hview.isSome_iff.symm
  | srealloc oldp size => exact or_congr_right hview.isSome_iff.symm
  | write a v =>
      constructor
      · rintro ⟨p, hp, hpa, hap⟩
        refine ⟨p, contents w.st.mem p (payloadSize w.st.mem p), ?_, hpa, ?_⟩
        · rw [hview p, if_pos hp]
        · rwa [ClientHeap.length_contents]
      · rintro ⟨p, bs, hp, hpa, hap⟩
        rw [hview p] at hp
        split at hp
        · next hlive =>
          obtain rfl := Option.some.inj hp
          rw [ClientHeap.length_contents] at hap
          exact ⟨p, hlive, hpa, hap⟩
        · cases hp

/-- Every allowed call is answered as the contract says. -/
theorem View.answer (sized : Bool) (hinv : Inv w) (hview : View w h)
    (hvalid : env.Valid w.st) {call : Call} (hallowed : call.Allowed w) :
    ∃ w' r, exec env w call = some (w', r) ∧ Inv w' ∧
      ∀ h', View w' h' → call.Regular sized w →
        Answer sized (call.request, r) h h' := by
  have hzero := Finset.erase_eq_of_notMem (closed_inv.zero_not_mem hinv)
  have hself := hinv.sameAt (Finset.Subset.refl _) (Kept.refl _ _)
  cases call with
  | smalloc size =>
      obtain ⟨s', p, hrun, hpost, halloc⟩ :=
        closed_inv.smalloc hinv trivial hvalid size
      exact ⟨_, p, by rw [exec, hrun]; rfl, hpost, fun h' hview' _ =>
        hview.answer_malloc hview' halloc.fresh
          (hinv.sameAt (Finset.Subset.refl _) halloc.kept) halloc.size_le⟩
  | scalloc num size =>
      obtain ⟨s', p, hrun, hpost, hkept, hfresh, hzeroed⟩ :=
        hinv.scalloc_zeroed hvalid num size
      refine ⟨_, p, by rw [exec, hrun]; rfl, hpost, fun h' hview' hregular => ?_⟩
      have hmul : mul64 num size = num * size := Nat.mod_eq_of_lt hregular
      rw [hmul] at hzeroed
      exact hview.answer_calloc hview' hfresh
        (hinv.sameAt (Finset.Subset.refl _) hkept) hzeroed
  | sfree p =>
      rcases hallowed with rfl | hp
      · refine ⟨⟨w.st, w.live.erase 0⟩, 0, ?_, ?_, fun h' hview' _ =>
          hview.answer_free hview' (hself.mono (Finset.erase_subset _ _))⟩
        · rw [exec, sfree_zero]
          rfl
        · rw [hzero]
          exact hinv
      · obtain ⟨s', hrun, hpost, hfreed⟩ := closed_inv.sfree hinv trivial p hp
        exact ⟨_, 0, by rw [exec, hrun]; rfl, hpost, fun h' hview' _ =>
          hview.answer_free hview'
            (hinv.sameAt (Finset.erase_subset _ _) hfreed.kept)⟩
  | srealloc oldp size =>
      rcases hallowed with rfl | hp
      · by_cases hinvalid : size = 0 ∨ maxAllocationSize < size
        · refine ⟨w, 0, ?_, hinv, fun h' hview' _ =>
            Or.inl ⟨rfl, hview.eq_of_same hview' hself⟩⟩
          rw [exec, srealloc_of_invalid _ _ _ hinvalid]
          rfl
        · obtain ⟨s', p, hrun, hpost, halloc⟩ :=
            closed_inv.smalloc hinv trivial hvalid size
          have hlive : moveLive w.live 0 p = addLive w.live p := by
            rw [moveLive, addLive, hzero]
          refine ⟨⟨s', addLive w.live p⟩, p, ?_, hpost, fun h' hview' _ =>
            (hview.answer_malloc hview' halloc.fresh
              (hinv.sameAt (Finset.Subset.refl _) halloc.kept)
              halloc.size_le).realloc_null⟩
          simp only [exec, srealloc_zero hinvalid, hrun, Option.map_some, hlive]
      · obtain ⟨s', q, hrun, hpost, hreall, hsize⟩ :=
          hinv.srealloc_reallocates hvalid hp size
        have hp0 : oldp ≠ 0 := by
          rintro rfl
          exact closed_inv.zero_not_mem hinv hp
        exact ⟨_, q, by rw [exec, hrun]; rfl, hpost, fun h' hview' hregular =>
          hview.answer_realloc hview' hp hreall fun hsized hq0 =>
            hsize hq0 (hregular hsized hp0)⟩
  | write a v =>
      obtain ⟨p, hp, hpa, hap⟩ := hallowed
      have hfill : AgreeOff (payloadBytes w.st.mem p) w.st.mem
          (fill w.st.mem a v 1) := by
        apply (agreeOff_fill _ _ _ _).mono
        rintro x ⟨hx, hx'⟩
        exact ⟨by omega, by omega⟩
      obtain ⟨hkept, hheader⟩ := closed_inv.kept_of_write hinv hp hfill
      refine ⟨_, 0, rfl, closed_inv.write hinv p hp _ hfill, fun h' hview' _ =>
        hview.answer_store hview' (fun q hq => ?_) (fill_one w.st.mem a v)⟩
      by_cases hqp : q = p
      · subst hqp
        exact hheader
      · exact (hkept.header_eq (Finset.mem_erase.mpr ⟨hqp, hq⟩)).1

/-- One step of the allocator is one of the contract. -/
theorem View.serves (hinv : Inv w) (hview : View w h)
    {l : Request UInt8 × ℕ} (hserves : Serves sized l w w') :
    Inv w' ∧ ∃ h', Answer sized l h h' ∧ View w' h' := by
  obtain ⟨env, call, hvalid, hallowed, hregular, hrequest, hexec⟩ := hserves
  obtain ⟨w'', r, hexec', hpost, hanswer⟩ :=
    hview.answer sized hinv hvalid hallowed
  rw [hexec] at hexec'
  obtain ⟨rfl, rfl⟩ := Prod.mk.inj (Option.some.inj hexec')
  obtain ⟨h', hview'⟩ := hpost.exists_view
  refine ⟨hpost, h', ?_, hview'⟩
  have hstep := hanswer h' hview' hregular
  rwa [hrequest] at hstep

/-- A run of the allocator is one of the contract. -/
theorem View.run (hinv : Inv w) (hview : View w h)
    {ls : List (Request UInt8 × ℕ)} (hrun : Run (Serves sized) ls w w') :
    Inv w' ∧ ∃ h', Run (Answer sized) ls h h' ∧ View w' h' := by
  have hstep (l : Request UInt8 × ℕ) (w w' : World) (h : Holdings UInt8)
      (hR : Inv w ∧ View w h) (hserves : Serves sized l w w') :
      ∃ h', Answer sized l h h' ∧ Inv w' ∧ View w' h' := by
    obtain ⟨hpost, h', hanswer, hview'⟩ := hR.2.serves hR.1 hserves
    exact ⟨h', hanswer, hpost, hview'⟩
  obtain ⟨h', hrun', hpost, hview'⟩ := hrun.simulates hstep ⟨hinv, hview⟩
  exact ⟨hpost, h', hrun', hview'⟩

theorem IsStart.view {w₀ : World} (hstart : IsStart w₀) :
    View w₀ Holdings.empty := by
  intro p
  rw [hstart.live]
  rfl

end Steps

/-- Every run of the allocator is a run of the contract on what the client sees,
and there is an answer to each request that the contract allows. -/
theorem buddy_meets_contract (sized : Bool) (w₀ w : World) (hstart : IsStart w₀)
    (ls : List (Request UInt8 × ℕ)) (hrun : Run (Serves sized) ls w₀ w) :
    ∃ h, Run (Answer sized) ls Holdings.empty h ∧ View w h ∧
      (∀ call : Call, call.Allowed w ↔ h.Allows call.request) ∧
      ∀ env call, env.Valid w.st → h.Allows (Call.request call) →
        ∃ w' r, exec env w call = some (w', r) := by
  obtain ⟨hinv, h, hrun', hview⟩ :=
    hstart.view.run (Or.inl hstart.unready) hrun
  refine ⟨h, hrun', hview, hview.allowed_iff, ?_⟩
  intro env call hvalid hallows
  obtain ⟨w', r, hexec, -, -⟩ := hview.answer sized hinv hvalid
    ((hview.allowed_iff call).mpr hallows)
  exact ⟨w', r, hexec⟩

theorem buddy_meets_contract_smalloc : ∃ w h,
    Run (Answer true) [((.malloc 64 : Request UInt8), 4194336)] Holdings.empty h ∧
      View w h := by
  have hvalue : (exec noMmap (freshWorld 4194304) (.smalloc 64)).map Prod.snd =
      some 4194336 := by
    decide +kernel
  obtain ⟨⟨w, p⟩, hexec, heq⟩ := Option.map_eq_some_iff.mp hvalue
  obtain rfl : p = 4194336 := heq
  have hserves : Serves true (.malloc 64, 4194336) (freshWorld 4194304) w :=
    ⟨noMmap, .smalloc 64, HeapFits.valid (by decide +kernel), trivial, trivial, rfl,
      hexec⟩
  obtain ⟨h, hrun, hview, -⟩ := buddy_meets_contract true (freshWorld 4194304) w
    (isStart_freshWorld (by decide)) _ (.cons hserves .nil)
  exact ⟨w, h, hrun, hview⟩

/-- What the client stores in an object stays there, wherever `srealloc` moves the
object, until the client overwrites or frees it. -/
theorem stored_bytes_kept (w w' : World) (hreach : Reachable w) (p i : ℕ)
    (hp : p ∈ w.live) (hi : i < payloadSize w.st.mem p)
    (ls : List (Request UInt8 × ℕ)) (hrun : Run (Serves false) ls w w')
    (hspares : ClientHeap.SparesAll p i ls) :
    ls.foldl ClientHeap.moved p ∈ w'.live ∧
      i < payloadSize w'.st.mem (ls.foldl ClientHeap.moved p) ∧
      w'.st.mem (ls.foldl ClientHeap.moved p + i) = w.st.mem (p + i) := by
  obtain ⟨h, hview⟩ := hreach.inv.exists_view
  obtain ⟨-, h', hrun', hview'⟩ := hview.run hreach.inv hrun
  exact hview.cell_kept hview' hrun' hspares hp hi

theorem stored_bytes_kept_oneBlock : ∃ w' q,
    exec noMmap oneBlock (.srealloc 4194336 300) = some (w', q) ∧ q ≠ 0 ∧
      w'.st.mem (q + 5) = oneBlock.st.mem (4194336 + 5) := by
  have hvalue : (exec noMmap oneBlock (.srealloc 4194336 300)).map Prod.snd =
      some 4194848 := by
    decide +kernel
  obtain ⟨⟨w', q⟩, hexec, heq⟩ := Option.map_eq_some_iff.mp hvalue
  obtain rfl : q = 4194848 := heq
  have hserves : Serves false (.realloc 4194336 300, 4194848) oneBlock w' :=
    ⟨noMmap, .srealloc 4194336 300, oneBlock_valid, Or.inr oneBlock_live,
      fun hsized => absurd hsized (by decide), rfl, hexec⟩
  obtain ⟨-, -, hbyte⟩ := stored_bytes_kept oneBlock w' oneBlock_reachable 4194336 5
    oneBlock_live (by decide +kernel) _ (.cons hserves .nil) ⟨trivial, trivial⟩
  exact ⟨w', 4194848, hexec, by decide, hbyte⟩

end OsCoursework.Allocator
