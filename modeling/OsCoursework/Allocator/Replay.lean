import OsCoursework.Allocator.Runs

/-!
# Replaying runs

A list of calls, with the answers of the operating system, determines at most
one run.  The conditions on the answers are checked along the way by comparing
addresses, so a concrete world is shown to be reachable by evaluating its
replay.
-/

namespace OsCoursework.Allocator

open OsCoursework.Bytes
open OsCoursework.Dyadic

/-! ## Runs without mappings -/

/-- An operating system that grants `sbrk` and refuses `mmap`. -/
def noMmap : Env :=
  ⟨true, fun _ => none, true⟩

/-- The start of a program with zeroed memory and the given break. -/
def freshWorld (brk : ℕ) : World :=
  ⟨⟨fun _ => 0, fun _ => 0, 0, 0, 0, false, 0, brk, ∅⟩, ∅⟩

/-- Whether `noMmap` hands out fresh memory only, as far as can be seen without
comparing regions. -/
def HeapFits (s : State) : Prop :=
  s.mapped = ∅ ∧ (s.initialized = true ∨
    alignedBase s.brk + heapAlignmentSize ≤ addressLimit)

instance (s : State) : Decidable (HeapFits s) :=
  inferInstanceAs (Decidable (_ ∧ _))

/-- Replay calls without mappings; `none` if one of them is not allowed. -/
def replay : World → List Call → Option World
  | w, [] => some w
  | w, call :: calls =>
      if call.Allowed w ∧ HeapFits w.st then
        (exec noMmap w call).bind fun r => replay r.1 calls
      else none

theorem isStart_freshWorld {brk : ℕ} (h : 0 < brk) : IsStart (freshWorld brk) :=
  ⟨rfl, fun _ _ => rfl, rfl, rfl, rfl, rfl, h, rfl⟩

theorem HeapFits.valid {s : State} (h : HeapFits s) : noMmap.Valid s := by
  refine ⟨?_, ?_, fun _ _ hnone => by cases hnone⟩
  · intro hinit _
    rcases h.2 with htrue | hle
    · rw [hinit] at htrue
      cases htrue
    · exact hle
  · intro _ _ c hc
    rw [h.1] at hc
    simp at hc

/-- A successful replay is a run. -/
theorem replay_run {w w' : World} {calls : List Call}
    (h : replay w calls = some w') : Relation.ReflTransGen Step w w' := by
  induction calls generalizing w with
  | nil =>
      rw [replay, Option.some.injEq] at h
      rw [h]
  | cons call calls ih =>
      rw [replay] at h
      split at h
      · next hallowed =>
        obtain ⟨⟨w₁, p⟩, hexec, hrest⟩ := Option.bind_eq_some_iff.mp h
        exact Relation.ReflTransGen.head ⟨noMmap, call, p, trivial,
          hallowed.2.valid, hallowed.1, hexec⟩ (ih hrest)
      · cases h

theorem reachable_replay {brk : ℕ} {calls : List Call} (hbrk : 0 < brk)
    (h : (replay (freshWorld brk) calls).isSome) :
    Reachable ((replay (freshWorld brk) calls).get h) :=
  ⟨_, isStart_freshWorld hbrk, replay_run (Option.some_get h).symm⟩

/-- The world after one small request. -/
@[irreducible] def oneBlock : World :=
  (replay (freshWorld 4194304) [.smalloc 64]).get (by decide +kernel)

theorem oneBlock_reachable : Reachable oneBlock := by
  unfold oneBlock
  exact reachable_replay (by decide) _

theorem oneBlock_initialized : oneBlock.st.initialized = true := by
  decide +kernel

theorem oneBlock_live : 4194336 ∈ oneBlock.live := by
  decide +kernel

theorem oneBlock_valid : noMmap.Valid oneBlock.st :=
  HeapFits.valid (by decide +kernel)

/-- Its block is the first of the heap and has order 0. -/
theorem oneBlock_ready :
    ∃ root, ∃ H : Tiling root maxBlockOrder, ∃ c b, Ready oneBlock H c ∧
      b ∈ H.used ∧ b.order = 0 ∧ addr b = 4194304 := by
  obtain ⟨root, H, c, h⟩ := oneBlock_reachable.ready oneBlock_initialized
  have hunmapped : oneBlock.st.mapped = ∅ := by decide +kernel
  have hlive := h.live_iff oneBlock_live
  simp only [hunmapped, Finset.notMem_empty, false_and, exists_false, or_false] at hlive
  obtain ⟨b, hb, heq⟩ := hlive
  have haddr : addr b = 4194304 := by
    rw [sizeofMetaData] at heq
    omega
  have hsize := h.rep.size_eq b (H.used_subset hb)
  rw [haddr] at hsize
  refine ⟨root, H, c, b, h, hb, ?_, haddr⟩
  apply usable_injective
  rw [← hsize]
  decide +kernel

/-! ## Runs with mappings -/

/-- What the operating system answers during one call: whether `sbrk` succeeds,
the start and the length of the region `mmap` has to offer, and whether `munmap`
succeeds. -/
structure Answers where
  sbrk : Bool
  region : Option (ℕ × ℕ)
  munmap : Bool

def Answers.env (x : Answers) : Env :=
  ⟨x.sbrk, fun len => (x.region.filter fun r => r.2 = len).map Prod.fst, x.munmap⟩

/-- The bytes from `a` on, `len` of them, and those from `d` on do not meet. -/
def Apart (a len d len' : ℕ) : Prop :=
  a + len ≤ d ∨ d + len' ≤ a

instance (a len d len' : ℕ) : Decidable (Apart a len d len') :=
  inferInstanceAs (Decidable (_ ∨ _))

theorem Apart.disjoint {a len d len' : ℕ} (h : Apart a len d len') :
    Disjoint (range a len) (range d len') := by
  refine Set.disjoint_left.mpr ?_
  rintro x ⟨hx, hx'⟩ ⟨hy, hy'⟩
  rcases h with h | h
  · omega
  · omega

/-- The heap that `initHeap` would set up is apart from the mappings. -/
def SetupFits (s : State) : Prop :=
  alignedBase s.brk + heapAlignmentSize ≤ addressLimit ∧
    ∀ c ∈ s.mapped, Apart c (getSize s.mem c + sizeofMetaData)
      (alignedBase s.brk) heapAlignmentSize

/-- `mmap` may return the `len` bytes at `a`. -/
def RegionFits (s : State) (a len : ℕ) : Prop :=
  0 < a ∧ 4096 ∣ a ∧ a + len ≤ addressLimit ∧
    (∀ c ∈ s.mapped, Apart a len c (getSize s.mem c + sizeofMetaData)) ∧
    (s.initialized = true → Apart a len s.heapBaseAligned heapAlignmentSize)

instance (s : State) : Decidable (SetupFits s) :=
  inferInstanceAs (Decidable (_ ∧ _))

instance (s : State) (a len : ℕ) : Decidable (RegionFits s a len) :=
  inferInstanceAs (Decidable (_ ∧ _ ∧ _ ∧ _ ∧ _))

theorem RegionFits.fresh {s : State} {a len : ℕ} (h : RegionFits s a len) :
    Fresh s a len := by
  obtain ⟨hpos, hdvd, hle, hmaps, hheap⟩ := h
  exact ⟨hpos, hdvd, hle, fun c hc => (hmaps c hc).disjoint,
    fun hinit => (hheap hinit).disjoint⟩

/-- The answers hand out fresh memory only. -/
def Answers.Fits (x : Answers) (s : State) : Prop :=
  (s.initialized = true ∨ x.sbrk = false ∨ SetupFits s) ∧
    ∀ r ∈ x.region.toList, RegionFits (ensureHeap x.env s) r.1 r.2

instance (x : Answers) (s : State) : Decidable (x.Fits s) :=
  inferInstanceAs (Decidable (_ ∧ _))

theorem Answers.Fits.valid {x : Answers} {s : State} (h : x.Fits s) :
    x.env.Valid s := by
  obtain ⟨hsetup, hregion⟩ := h
  have hfits (hinit : s.initialized = false) (hsbrk : x.sbrk = true) :
      SetupFits s := by
    rcases hsetup with htrue | hfalse | hfits
    · rw [hinit] at htrue
      cases htrue
    · rw [hsbrk] at hfalse
      cases hfalse
    · exact hfits
  refine ⟨fun hinit hsbrk => (hfits hinit hsbrk).1, ?_, ?_⟩
  · intro hinit hsbrk c hc
    exact ((hfits hinit hsbrk).2 c hc).disjoint
  · intro len a ha
    obtain ⟨r, hfilter, rfl⟩ := Option.map_eq_some_iff.mp ha
    obtain ⟨hr, hlen⟩ := Option.filter_eq_some_iff.mp hfilter
    obtain rfl := of_decide_eq_true hlen
    exact (hregion r (Option.mem_toList.mpr hr)).fresh

/-- Replay calls with the answers to them; `none` if one of the calls is not
allowed or one of the answers does not fit. -/
def replayWith : World → List (Answers × Call) → Option World
  | w, [] => some w
  | w, (x, call) :: rest =>
      if call.Allowed w ∧ x.Fits w.st then
        (exec x.env w call).bind fun r => replayWith r.1 rest
      else none

/-- A successful replay is a run. -/
theorem replayWith_run {w w' : World} {calls : List (Answers × Call)}
    (h : replayWith w calls = some w') : Relation.ReflTransGen Step w w' := by
  induction calls generalizing w with
  | nil =>
      rw [replayWith, Option.some.injEq] at h
      rw [h]
  | cons head calls ih =>
      obtain ⟨x, call⟩ := head
      rw [replayWith] at h
      split at h
      · next hallowed =>
        obtain ⟨⟨w₁, p⟩, hexec, hrest⟩ := Option.bind_eq_some_iff.mp h
        exact Relation.ReflTransGen.head ⟨x.env, call, p, trivial,
          hallowed.2.valid, hallowed.1, hexec⟩ (ih hrest)
      · cases h

theorem reachable_replayWith {brk : ℕ} {calls : List (Answers × Call)}
    (hbrk : 0 < brk) (h : (replayWith (freshWorld brk) calls).isSome) :
    Reachable ((replayWith (freshWorld brk) calls).get h) :=
  ⟨_, isStart_freshWorld hbrk, replayWith_run (Option.some_get h).symm⟩

end OsCoursework.Allocator
