import OsCoursework.Allocator.Layout

/-!
# Live data

The allocator keeps its headers in the memory it hands out.  In every reachable
state the live payloads are apart from each other and from all headers, and a
call leaves every live block it was not handed exactly as it was.
-/

namespace OsCoursework.Allocator

open OsCoursework.Bytes
open OsCoursework.Dyadic

/-- A header of the state sits at `a`: of a heap block or of a mapping. -/
def HeaderAt (s : State) (B : Finset (ℕ × ℕ)) (a : ℕ) : Prop :=
  a ∈ s.mapped ∨ ∃ k, (a, k) ∈ B

theorem blockStart_of_headerAt {root : Block} {H : Tiling root maxBlockOrder}
    {s : State} {a : ℕ} (h : HeaderAt s (layoutBlocks H) a) :
    BlockStart H s a := by
  rcases h with ha | ⟨k, hk⟩
  · exact Or.inr ha
  · obtain ⟨t, ht, heq⟩ := mem_layoutBlocks.mp hk
    exact Or.inl ⟨t, ht, congrArg Prod.fst heq⟩

/-- Address, size and payload of a live block are the same in both worlds. -/
def SameBlock (w w' : World) (q : ℕ) : Prop :=
  q ∈ w'.live ∧
    getSize w'.st.mem (q - sizeofMetaData) =
      getSize w.st.mem (q - sizeofMetaData) ∧
    ∀ x ∈ payloadBytes w.st.mem q, w'.st.mem x = w.st.mem x

/-- Live payloads are disjoint from each other and from every header, and each
call of the interface leaves alone the live blocks it was not handed. -/
theorem reachable_live_undisturbed (w : World) (hreach : Reachable w)
    (hinit : w.st.initialized = true) (B : Finset (ℕ × ℕ)) (L : ℕ → List ℕ)
    (hlayout : HeapLayout w.st B L) :
    (∀ p ∈ w.live, ∀ q ∈ w.live, p ≠ q →
      Disjoint (payloadBytes w.st.mem p) (payloadBytes w.st.mem q)) ∧
    (∀ p ∈ w.live, ∀ a, HeaderAt w.st B a →
      Disjoint (payloadBytes w.st.mem p) (range a sizeofMetaData)) ∧
    ∀ env call, env.Valid w.st → call.Allowed w → call.isApi = true →
      ∃ w' r, exec env w call = some (w', r) ∧
        ∀ q ∈ w.live, q ≠ call.handed → SameBlock w w' q := by
  obtain ⟨root, H, c, h⟩ := hreach.ready hinit
  obtain ⟨rfl, -⟩ := h.rep.layout_eq hlayout
  have hblock {p : ℕ} (hp : p ∈ w.live) :
      payloadBytes w.st.mem p ⊆
        blockBytes w.st.mem (p - sizeofMetaData) := by
    obtain ⟨a, rfl, -⟩ := h.live_cases p hp
    rw [Nat.add_sub_cancel]
    exact payload_subset_block _ _
  refine ⟨?_, ?_, ?_⟩
  · intro p hp q hq hne
    exact (h.blocks_disjoint hp hq hne).mono (hblock hp) (hblock hq)
  · intro p hp a ha
    exact h.payload_disjoint_header hp (blockStart_of_headerAt ha)
  · intro env call hvalid hallowed hapi
    obtain ⟨w', r, hexec, -, hlive, hkept⟩ :=
      closed_inv.exec hreach.inv trivial hvalid hallowed
    refine ⟨w', r, hexec, ?_⟩
    intro q hq hne
    have hmem : q ∈ w.live.erase call.handed := Finset.mem_erase.mpr ⟨hne, hq⟩
    refine ⟨hlive hmem, ((hkept hapi).header_eq hmem).1, ?_⟩
    intro x hx
    exact hkept hapi q hmem x (hblock hq hx)

theorem reachable_live_undisturbed_oneBlock :
    ∃ B L, HeapLayout oneBlock.st B L ∧
      (∀ p ∈ oneBlock.live, ∀ a, HeaderAt oneBlock.st B a →
        Disjoint (payloadBytes oneBlock.st.mem p) (range a sizeofMetaData)) ∧
      ∃ w' r, exec noMmap oneBlock (.smalloc 200) = some (w', r) ∧
        SameBlock oneBlock w' 4194336 := by
  obtain ⟨B, L, hlayout⟩ :=
    oneBlock_reachable.exists_layout oneBlock_initialized
  obtain ⟨-, hheaders, hcalls⟩ := reachable_live_undisturbed oneBlock
    oneBlock_reachable oneBlock_initialized B L hlayout
  obtain ⟨w', r, hexec, hsame⟩ :=
    hcalls noMmap (.smalloc 200) oneBlock_valid trivial rfl
  exact ⟨B, L, hlayout, hheaders, w', r, hexec,
    hsame 4194336 oneBlock_live (by decide)⟩

end OsCoursework.Allocator
