import OsCoursework.Allocator.Contract
import OsCoursework.FirstFit.Runs

/-!
# The first stage

`stages/malloc_1.cpp` has one function: `smalloc` moves the break and never takes
anything back.  The blocks are the regions that `sbrk` returned, without headers,
and what the client sees of them meets the same contract as the later stages.
-/

namespace OsCoursework.Bump

open OsCoursework.Bytes
open OsCoursework.Transition
open OsCoursework.ClientHeap (Holdings Request Answer Shows SameAt)
open OsCoursework.Allocator (maxAllocationSize addressLimit fill_one)
open OsCoursework.FirstFit (Env grant)

/-! ## The program -/

/-- Memory, and the regions that `sbrk` has returned so far. -/
structure State where
  mem : Mem
  regions : List (ℕ × ℕ)

/-- `smalloc` -/
def smalloc (env : Env) (s : State) (size : ℕ) : State × ℕ :=
  if size = 0 then (s, 0)
  else if maxAllocationSize < size then (s, 0)
  else
    match env.sbrk size with
    | none => (s, 0)
    | some programBreak =>
        ({ s with regions := s.regions ++ [(programBreak, size)] }, programBreak)

/-- The addresses of the regions. -/
def live (s : State) : Finset ℕ :=
  (s.regions.map Prod.fst).toFinset

/-- The length of the region at an address. -/
def size (s : State) (p : ℕ) : ℕ :=
  (s.regions.lookup p).getD 0

/-- What a client can do: ask for a block, or store into one. -/
inductive Call where
  | smalloc (size : ℕ)
  | write (a : ℕ) (v : UInt8)

def Call.Allowed (s : State) : Call → Prop
  | .smalloc _ => True
  | .write a _ => ∃ p ∈ live s, a ∈ range p (size s p)

def Call.request : Call → Request UInt8
  | .smalloc size => .malloc size
  | .write a v => .store a v

/-- Run one call: the state it leaves and the pointer it returns. -/
def exec (env : Env) (s : State) : Call → State × ℕ
  | .smalloc size => smalloc env s size
  | .write a v => ({ s with mem := fill s.mem a v 1 }, 0)

/-- `sbrk` returns increasing regions that do not overlap. -/
def ValidEnv (env : Env) (s : State) : Prop :=
  ∀ len a, env.sbrk len = some a → 0 < a ∧
    (∀ r ∈ s.regions, r.1 + r.2 ≤ a) ∧ a + len ≤ addressLimit

/-- The program returns `l.2` to the request `l.1`. -/
def Serves (l : Request UInt8 × ℕ) (s s' : State) : Prop :=
  ∃ env call, ValidEnv env s ∧ call.Allowed s ∧ call.request = l.1 ∧
    exec env s call = (s', l.2)

/-! ## The invariant -/

/-- Regions lie one behind the other, and none is empty. -/
structure Inv (s : State) : Prop where
  pos : ∀ r ∈ s.regions, 0 < r.1 ∧ 0 < r.2
  apart : s.regions.Pairwise fun r t => r.1 + r.2 ≤ t.1

section Inv

variable {s s' : State} {env : Env} {h h' : Holdings UInt8} {p q n : ℕ}

theorem mem_live : p ∈ live s ↔ (s.regions.lookup p).isSome := by
  simp [live]

theorem lookup_of_mem_live (hp : p ∈ live s) :
    s.regions.lookup p = some (size s p) := by
  obtain ⟨n, hn⟩ := Option.isSome_iff_exists.mp (mem_live.mp hp)
  rw [size, hn, Option.getD_some]

theorem mem_of_lookup (h : s.regions.lookup p = some n) : (p, n) ∈ s.regions := by
  obtain ⟨l₁, l₂, heq, -⟩ := List.lookup_eq_some_iff.mp h
  rw [heq]
  simp

theorem Inv.disjoint (h : Inv s) (hp : p ∈ live s) (hq : q ∈ live s)
    (hne : p ≠ q) : Disjoint (range p (size s p)) (range q (size s q)) := by
  have hmem (r : ℕ) (hr : r ∈ live s) : (r, size s r) ∈ s.regions :=
    mem_of_lookup (lookup_of_mem_live hr)
  have hapart := LinkedList.related_of_pairwise h.apart (hmem p hp) (hmem q hq)
    fun heq => hne (congrArg Prod.fst heq)
  refine Set.disjoint_left.mpr ?_
  rintro x ⟨hx, hx'⟩ ⟨hy, hy'⟩
  rcases hapart with hle | hle
  · change p + size s p ≤ q at hle
    omega
  · change q + size s q ≤ p at hle
    omega

theorem Inv.zero_not_mem (h : Inv s) : 0 ∉ live s := by
  intro h0
  exact absurd (h.pos _ (mem_of_lookup (lookup_of_mem_live h0))).1 (Nat.lt_irrefl 0)

/-- The heap the client of a state sees. -/
def View (s : State) (h : Holdings UInt8) : Prop :=
  Shows s.mem (live s) (size s) h

theorem Inv.exists_view (h : Inv s) : ∃ holdings, View s holdings :=
  ClientHeap.exists_shows h.zero_not_mem fun _ hp _ hq => h.disjoint hp hq

/-- A new region behind the others. -/
theorem Inv.append (h : Inv s) {a : ℕ} (ha : 0 < a) (hn : 0 < n)
    (hbehind : ∀ r ∈ s.regions, r.1 + r.2 ≤ a) :
    Inv { s with regions := s.regions ++ [(a, n)] } ∧
      live { s with regions := s.regions ++ [(a, n)] } = insert a (live s) ∧
      a ∉ live s ∧ size { s with regions := s.regions ++ [(a, n)] } a = n ∧
      ∀ p ∈ live s,
        size { s with regions := s.regions ++ [(a, n)] } p = size s p := by
  have hnot : a ∉ live s := by
    intro hmem
    have hreg := mem_of_lookup (lookup_of_mem_live hmem)
    have hle := hbehind _ hreg
    have hpos := (h.pos _ hreg).2
    change a + size s a ≤ a at hle
    change 0 < size s a at hpos
    omega
  have hnone : s.regions.lookup a = none := by
    rw [mem_live, Bool.not_eq_true, Option.isSome_eq_false_iff,
      Option.isNone_iff_eq_none] at hnot
    exact hnot
  refine ⟨⟨?_, ?_⟩, ?_, hnot, ?_, ?_⟩
  · intro r hr
    rcases List.mem_append.mp hr with hr | hr
    · exact h.pos r hr
    · obtain rfl := List.mem_singleton.mp hr
      exact ⟨ha, hn⟩
  · refine List.pairwise_append.mpr ⟨h.apart, List.pairwise_singleton _ _, ?_⟩
    intro r hr t ht
    obtain rfl := List.mem_singleton.mp ht
    exact hbehind r hr
  · ext p
    simp [live]
  · rw [size, List.lookup_append, hnone, List.lookup_singleton]
    simp
  · intro p hp
    rw [size, List.lookup_append, lookup_of_mem_live hp]
    rfl

/-- Every allowed call is answered as the contract says. -/
theorem View.answer (hinv : Inv s) (hview : View s h) (hvalid : ValidEnv env s)
    {call : Call} (hallowed : call.Allowed s) :
    Inv (exec env s call).1 ∧ ∀ h', View (exec env s call).1 h' →
      Answer true (call.request, (exec env s call).2) h h' := by
  have hself : SameAt (live s) s.mem s.mem (size s) (size s) :=
    fun _ _ => ⟨rfl, fun _ _ => rfl⟩
  cases call with
  | smalloc n =>
      have hnull (hrun : smalloc env s n = (s, 0)) :
          Inv (exec env s (.smalloc n)).1 ∧
            ∀ h', View (exec env s (.smalloc n)).1 h' →
              Answer true (.malloc n, (exec env s (.smalloc n)).2) h h' := by
        rw [exec, hrun]
        exact ⟨hinv, fun h' hview' => Or.inl ⟨rfl, hview.eq_of_same hview' hself⟩⟩
      by_cases hn : n = 0
      · exact hnull (by rw [smalloc, if_pos hn])
      by_cases hmax : maxAllocationSize < n
      · exact hnull (by rw [smalloc, if_neg hn, if_pos hmax])
      cases hsbrk : env.sbrk n with
      | none => exact hnull (by simp only [smalloc, if_neg hn, if_neg hmax, hsbrk])
      | some a =>
          obtain ⟨ha, hbehind, -⟩ := hvalid n a hsbrk
          obtain ⟨hpost, hlive, hnot, hsize, hsizes⟩ :=
            hinv.append ha (Nat.pos_of_ne_zero hn) hbehind
          have hrun : exec env s (.smalloc n) =
              ({ s with regions := s.regions ++ [(a, n)] }, a) := by
            simp only [exec, smalloc, if_neg hn, if_neg hmax, hsbrk]
          rw [hrun]
          refine ⟨hpost, fun h' hview' => hview.answer_malloc ?_ hnot
            (fun p hp => ⟨hsizes p hp, fun _ _ => rfl⟩) fun _ => hsize.ge⟩
          rwa [if_neg (Nat.ne_of_gt ha), ← hlive]
  | write a v =>
      exact ⟨⟨hinv.pos, hinv.apart⟩, fun h' hview' =>
        hview.answer_store hview' (fun _ _ => rfl) (fill_one s.mem a v)⟩

end Inv

/-- Every run of the first stage is a run of the contract on what the client sees. -/
theorem bump_meets_contract (s₀ s : State) (hstart : s₀.regions = [])
    (ls : List (Request UInt8 × ℕ)) (hrun : Run Serves ls s₀ s) :
    ∃ h, Run (Answer true) ls Holdings.empty h ∧ View s h := by
  have hinv₀ : Inv s₀ := by
    refine ⟨?_, ?_⟩ <;> rw [hstart]
    · exact fun r hr => nomatch hr
    · exact List.Pairwise.nil
  have hview₀ : View s₀ Holdings.empty := by
    intro p
    rw [live, hstart]
    rfl
  have hstep (l : Request UInt8 × ℕ) (s s' : State) (h : Holdings UInt8)
      (hR : Inv s ∧ View s h) (hserves : Serves l s s') :
      ∃ h', Answer true l h h' ∧ Inv s' ∧ View s' h' := by
    obtain ⟨env, call, hvalid, hallowed, hrequest, hexec⟩ := hserves
    obtain ⟨hpost, hanswer⟩ := hR.2.answer hR.1 hvalid hallowed
    rw [hexec] at hpost hanswer
    obtain ⟨h', hview'⟩ := hpost.exists_view
    refine ⟨h', ?_, hpost, hview'⟩
    have hstep := hanswer h' hview'
    rwa [hrequest] at hstep
  obtain ⟨h, hrun', -, hview⟩ := hrun.simulates hstep ⟨hinv₀, hview₀⟩
  exact ⟨h, hrun', hview⟩

theorem bump_meets_contract_smalloc : ∃ s h,
    Run (Answer true) [((.malloc 64 : Request UInt8), 4096), (.store 4100 7, 0)]
      Holdings.empty h ∧ View s h := by
  have hmalloc : Serves (.malloc 64, 4096) ⟨fun _ => 0, []⟩
      ⟨fun _ => 0, [(4096, 64)]⟩ := by
    refine ⟨grant 64 4096, .smalloc 64, ?_, trivial, rfl, rfl⟩
    intro len a hsome
    rw [grant, Option.ite_none_right_eq_some] at hsome
    obtain ⟨rfl, hab⟩ := hsome
    rw [← Option.some.inj hab]
    exact ⟨by decide, fun r hr => absurd hr List.not_mem_nil, by decide⟩
  have hstore : Serves (.store 4100 7, 0) ⟨fun _ => 0, [(4096, 64)]⟩
      ⟨fill (fun _ => 0) 4100 7 1, [(4096, 64)]⟩ := by
    refine ⟨⟨fun _ => none⟩, .write 4100 7, ?_, ⟨4096, by decide, ?_⟩, rfl, rfl⟩
    · intro len a hnone
      cases hnone
    · exact ⟨by decide, by decide⟩
  obtain ⟨h, hrun, hview⟩ := bump_meets_contract _ _ rfl _
    (.cons hmalloc (.cons hstore .nil))
  exact ⟨_, h, hrun, hview⟩

end OsCoursework.Bump
