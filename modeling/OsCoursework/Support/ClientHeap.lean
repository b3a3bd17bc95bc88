import OsCoursework.Support.Bytes
import OsCoursework.Support.Transition

/-!
# The heap as its client sees it

What an allocator is for, whatever its blocks and lists look like: the client
holds blocks, each an address with its contents, and no two of them overlap.
`Answer` says what `malloc`, `calloc`, `free`, `realloc` and a store may do to
them.  An allocator meets this contract when its runs are runs of `Answer`.

From the contract alone it follows that an object keeps what is stored in it,
wherever `realloc` moves it.
-/

namespace OsCoursework.ClientHeap

open OsCoursework.Bytes
open OsCoursework.Transition

variable {V : Type*}

/-! ## Holdings -/

/-- The blocks a client holds. -/
@[ext] structure Holdings (V : Type*) where
  block : ℕ → Option (List V)
  null : block 0 = none
  apart : ∀ p q bs cs, block p = some bs → block q = some cs → p ≠ q →
    Disjoint (range p bs.length) (range q cs.length)

/-- The client holds nothing. -/
def Holdings.empty : Holdings V where
  block _ := none
  null := rfl
  apart _ _ _ _ h := by cases h

/-- What a client asks for. -/
inductive Request (V : Type*) where
  | malloc (n : ℕ)
  | calloc (k n : ℕ)
  | free (p : ℕ)
  | realloc (p n : ℕ)
  | store (a : ℕ) (v : V)

/-- The requests of a client that uses only what it holds. -/
def Holdings.Allows (h : Holdings V) : Request V → Prop
  | .malloc _ => True
  | .calloc _ _ => True
  | .free p => p = 0 ∨ (h.block p).isSome
  | .realloc p _ => p = 0 ∨ (h.block p).isSome
  | .store a _ => ∃ p bs, h.block p = some bs ∧ a ∈ range p bs.length

/-- The block `bs` at `r` joins the blocks `old`. -/
structure Grants (old : ℕ → Option (List V)) (r : ℕ) (bs : List V) (h' : Holdings V) :
    Prop where
  ne_zero : r ≠ 0
  fresh : old r = none
  block_eq : h'.block = Function.update old r (some bs)

/-- How the heap may answer a request by returning `r`.  If `sized`, a block
handed out by `realloc` has room for the size asked for. -/
def Answer [Zero V] (sized : Bool) : Request V × ℕ → Holdings V → Holdings V → Prop
  | (.malloc n, r), h, h' =>
      (r = 0 ∧ h' = h) ∨ ∃ bs, n ≤ bs.length ∧ Grants h.block r bs h'
  | (.calloc k n, r), h, h' =>
      (r = 0 ∧ h' = h) ∨ ∃ bs, (k * n ≤ bs.length ∧ ∀ i < k * n, bs[i]? = some 0) ∧
        Grants h.block r bs h'
  | (.free p, r), h, h' => r = 0 ∧ h'.block = Function.update h.block p none
  | (.realloc p n, r), h, h' =>
      (r = 0 ∧ h' = h) ∨ ∃ bs, ((h.block p).getD []) <+: bs ∧
        (sized = true ∨ p = 0 → n ≤ bs.length) ∧
        Grants (Function.update h.block p none) r bs h'
  | (.store a v, r), h, h' =>
      r = 0 ∧ ∀ p, h'.block p =
        (h.block p).map fun bs => if p ≤ a then bs.set (a - p) v else bs

/-- Without a block to move, `realloc` is `malloc`. -/
theorem Answer.realloc_null [Zero V] {sized : Bool} {n r : ℕ}
    {h h' : Holdings V} (hanswer : Answer sized (.malloc n, r) h h') :
    Answer sized (.realloc 0 n, r) h h' := by
  rcases hanswer with hnull | ⟨bs, hlength, hgrants⟩
  · exact Or.inl hnull
  · have hsame : Function.update h.block 0 none = h.block := by
      rw [Function.update_eq_self_iff, h.null]
    refine Or.inr ⟨bs, ?_, fun _ => hlength, ?_⟩
    · rw [h.null, Option.getD_none]
      exact List.nil_prefix
    · rwa [hsame]

/-! ## Views of a memory -/

section View

variable {m m' : ℕ → V} {p q n : ℕ}

/-- The cells of `m` from `p` on. -/
def contents (m : ℕ → V) (p n : ℕ) : List V :=
  (List.range n).map fun i => m (p + i)

@[simp] theorem length_contents : (contents m p n).length = n := by
  simp [contents]

theorem getElem?_contents {i : ℕ} :
    (contents m p n)[i]? = if i < n then some (m (p + i)) else none := by
  rw [contents, List.getElem?_map]
  split
  · next hi => rw [List.getElem?_range hi, Option.map_some]
  · next hi =>
    rw [List.getElem?_eq_none (by simpa using hi), Option.map_none]

theorem contents_congr (h : ∀ x ∈ range p n, m' x = m x) :
    contents m' p n = contents m p n := by
  refine List.map_congr_left fun i hi => h _ ⟨Nat.le_add_right p i, ?_⟩
  have := List.mem_range.mp hi
  omega

/-- The cells of a block that grew and moved begin with the old ones. -/
theorem contents_isPrefix {n' : ℕ} (hle : n ≤ n')
    (h : ∀ i < n, m' (q + i) = m (p + i)) :
    contents m p n <+: contents m' q n' := by
  refine List.prefix_iff_getElem?.mpr fun i hi => ?_
  rw [length_contents] at hi
  rw [getElem?_contents, if_pos (by omega), h i hi]
  simp [contents]

/-- The heap `h` shows the blocks at `live` in memory, each with its size. -/
def Shows (m : ℕ → V) (live : Finset ℕ) (size : ℕ → ℕ) (h : Holdings V) : Prop :=
  ∀ p, h.block p = if p ∈ live then some (contents m p (size p)) else none

variable {live live' : Finset ℕ} {size size' : ℕ → ℕ} {h h' : Holdings V}

theorem exists_shows (h0 : 0 ∉ live)
    (hapart : ∀ p ∈ live, ∀ q ∈ live, p ≠ q →
      Disjoint (range p (size p)) (range q (size q))) :
    ∃ h : Holdings V, Shows m live size h := by
  have hmem {p : ℕ} {bs : List V}
      (hp : (if p ∈ live then some (contents m p (size p)) else none) = some bs) :
      p ∈ live ∧ bs.length = size p := by
    split at hp
    · next hlive =>
      cases hp
      exact ⟨hlive, length_contents⟩
    · cases hp
  refine ⟨⟨fun p => if p ∈ live then some (contents m p (size p)) else none,
    if_neg h0, ?_⟩, fun _ => rfl⟩
  intro p q bs cs hp hq hne
  obtain ⟨hp, hbs⟩ := hmem hp
  obtain ⟨hq, hcs⟩ := hmem hq
  rw [hbs, hcs]
  exact hapart p hp q hq hne

theorem Shows.isSome_iff (hs : Shows m live size h) :
    (h.block p).isSome ↔ p ∈ live := by
  rw [hs p]
  split <;> simp [*]

theorem Shows.unique (hs : Shows m live size h) (hs' : Shows m live size h') :
    h' = h := by
  ext1
  funext p
  rw [hs' p, hs p]

/-- The blocks of `live` are the same in both memories. -/
def SameAt (live : Finset ℕ) (m m' : ℕ → V) (size size' : ℕ → ℕ) : Prop :=
  ∀ p ∈ live, size' p = size p ∧ ∀ x ∈ range p (size p), m' x = m x

theorem SameAt.mono (h : SameAt live m m' size size') (hsub : live' ⊆ live) :
    SameAt live' m m' size size' :=
  fun p hp => h p (hsub hp)

theorem SameAt.trans {m'' : ℕ → V} {size'' : ℕ → ℕ}
    (h : SameAt live m m' size size') (h' : SameAt live m' m'' size' size'') :
    SameAt live m m'' size size'' := by
  intro p hp
  obtain ⟨hsize, hcells⟩ := h p hp
  obtain ⟨hsize', hcells'⟩ := h' p hp
  refine ⟨hsize'.trans hsize, fun x hx => ?_⟩
  rw [hcells' x (hsize.symm ▸ hx), hcells x hx]

theorem SameAt.contents_eq (h : SameAt live m m' size size') (hp : p ∈ live) :
    contents m' p (size' p) = contents m p (size p) := by
  rw [(h p hp).1]
  exact contents_congr (h p hp).2

/-- Nothing the client holds has changed. -/
theorem Shows.eq_of_same (hs : Shows m live size h) (hs' : Shows m' live size' h')
    (hsame : SameAt live m m' size size') : h' = h := by
  ext1
  funext p
  rw [hs p, hs' p]
  split
  · next hp => rw [hsame.contents_eq hp]
  · rfl

/-- Blocks other than `q` are kept, and `q` has the contents that memory has. -/
theorem Shows.block_eq_of_insert (hs : Shows m live size h)
    (hs' : Shows m' (insert q live') size' h') (hsub : live' ⊆ live)
    (hsame : SameAt live' m m' size size') :
    h'.block = Function.update (fun p => if p ∈ live' then h.block p else none) q
      (some (contents m' q (size' q))) := by
  funext p
  rw [hs' p]
  by_cases hpq : p = q
  · subst hpq
    simp
  · rw [Function.update_of_ne hpq, hs p]
    by_cases hp : p ∈ live'
    · simp [hp, hsub hp, hsame.contents_eq hp]
    · simp [hp, hpq]

theorem Shows.restrict_live (hs : Shows m live size h) :
    (fun p => if p ∈ live then h.block p else none) = h.block := by
  funext p
  rw [hs p]
  split <;> rfl

theorem Shows.restrict_erase (hs : Shows m live size h) :
    (fun p => if p ∈ live.erase q then h.block p else none) =
      Function.update h.block q none := by
  funext p
  by_cases hpq : p = q
  · simp [hpq]
  · rw [Function.update_of_ne hpq, hs p]
    by_cases hp : p ∈ live <;> simp [hp, hpq]

/-- A new block joined the old ones. -/
theorem Shows.grants (hs : Shows m live size h)
    (hs' : Shows m' (insert q live) size' h') (hq0 : q ≠ 0) (hq : q ∉ live)
    (hsame : SameAt live m m' size size') :
    Grants h.block q (contents m' q (size' q)) h' := by
  refine ⟨hq0, by rw [hs q, if_neg hq], ?_⟩
  rw [hs.block_eq_of_insert hs' (Finset.Subset.refl _) hsame, hs.restrict_live]

/-- The block of `p` became that of `q`. -/
theorem Shows.grants_erase (hs : Shows m live size h)
    (hs' : Shows m' (insert q (live.erase p)) size' h') (hq0 : q ≠ 0)
    (hq : q ∉ live.erase p) (hsame : SameAt (live.erase p) m m' size size') :
    Grants (Function.update h.block p none) q (contents m' q (size' q)) h' := by
  refine ⟨hq0, ?_, ?_⟩
  · rw [← hs.restrict_erase]
    exact if_neg hq
  · rw [hs.block_eq_of_insert hs' (Finset.erase_subset _ _) hsame,
      hs.restrict_erase]

/-- The block of `p` is gone. -/
theorem Shows.block_eq_of_erase (hs : Shows m live size h)
    (hs' : Shows m' (live.erase p) size' h')
    (hsame : SameAt (live.erase p) m m' size size') :
    h'.block = Function.update h.block p none := by
  funext q
  rw [hs' q, ← hs.restrict_erase]
  by_cases hq : q ∈ live.erase p
  · simp only [if_pos hq]
    rw [hsame.contents_eq hq, hs q, if_pos (Finset.mem_of_mem_erase hq)]
  · simp only [if_neg hq]

/-- One cell was overwritten. -/
theorem Shows.block_eq_of_store (hs : Shows m live size h)
    (hs' : Shows m' live size' h') (hsize : ∀ p ∈ live, size' p = size p)
    {a : ℕ} {v : V} (hm : m' = Function.update m a v) (p : ℕ) :
    h'.block p =
      (h.block p).map fun bs => if p ≤ a then bs.set (a - p) v else bs := by
  rw [hs p, hs' p]
  split
  · next hp =>
    rw [hsize p hp, Option.map_some, hm]
    refine congrArg some (List.ext_getElem? fun i => ?_)
    rw [getElem?_contents]
    by_cases hpa : p ≤ a
    · rw [if_pos hpa, List.getElem?_set, getElem?_contents, length_contents]
      by_cases hi : a - p = i
      · have heq : p + i = a := by omega
        simp [hi, heq]
      · have hne : p + i ≠ a := by omega
        simp [hi, hne]
    · have hne : p + i ≠ a := by omega
      rw [if_neg hpa, getElem?_contents, Function.update_of_ne hne]
  · rfl

end View

/-! ## Answers seen in memory -/

section Answers

variable [Zero V] {m m' : ℕ → V} {live : Finset ℕ} {size size' : ℕ → ℕ}
  {h h' : Holdings V} {sized : Bool} {p q n : ℕ}

/-- A block of at least `n` cells, or none. -/
theorem Shows.answer_malloc (hs : Shows m live size h)
    (hs' : Shows m' (if p = 0 then live else insert p live) size' h')
    (hfresh : p ∉ live) (hsame : SameAt live m m' size size')
    (hroom : p ≠ 0 → n ≤ size' p) : Answer sized (.malloc n, p) h h' := by
  by_cases hp0 : p = 0
  · rw [if_pos hp0] at hs'
    exact Or.inl ⟨hp0, hs.eq_of_same hs' hsame⟩
  · rw [if_neg hp0] at hs'
    refine Or.inr ⟨contents m' p (size' p), ?_, hs.grants hs' hp0 hfresh hsame⟩
    rw [length_contents]
    exact hroom hp0

/-- A block that begins with `k * n` zeros, or none. -/
theorem Shows.answer_calloc {k : ℕ} (hs : Shows m live size h)
    (hs' : Shows m' (if p = 0 then live else insert p live) size' h')
    (hfresh : p ∉ live) (hsame : SameAt live m m' size size')
    (hzero : p ≠ 0 → k * n ≤ size' p ∧ ∀ i < k * n, m' (p + i) = 0) :
    Answer sized (.calloc k n, p) h h' := by
  by_cases hp0 : p = 0
  · rw [if_pos hp0] at hs'
    exact Or.inl ⟨hp0, hs.eq_of_same hs' hsame⟩
  · rw [if_neg hp0] at hs'
    obtain ⟨hroom, hcells⟩ := hzero hp0
    refine Or.inr ⟨contents m' p (size' p), ⟨?_, fun i hi => ?_⟩,
      hs.grants hs' hp0 hfresh hsame⟩
    · rwa [length_contents]
    · rw [getElem?_contents, if_pos (by omega), hcells i hi]

theorem Shows.answer_free (hs : Shows m live size h)
    (hs' : Shows m' (live.erase p) size' h')
    (hsame : SameAt (live.erase p) m m' size size') :
    Answer sized (.free p, 0) h h' :=
  ⟨rfl, hs.block_eq_of_erase hs' hsame⟩

theorem Shows.answer_store {a : ℕ} {v : V} (hs : Shows m live size h)
    (hs' : Shows m' live size' h') (hsize : ∀ p ∈ live, size' p = size p)
    (hm : m' = Function.update m a v) : Answer sized (.store a v, 0) h h' :=
  ⟨rfl, hs.block_eq_of_store hs' hsize hm⟩

/-- Moving the block of `p` to `q` brings its cells along and leaves the others
alone; nothing happens at all if `q` is null. -/
structure Relocates (live : Finset ℕ) (m m' : ℕ → V) (size size' : ℕ → ℕ)
    (p q : ℕ) : Prop where
  kept : SameAt (live.erase p) m m' size size'
  null : q = 0 → SameAt live m m' size size'
  fresh : q ∉ live.erase p
  size_le : q ≠ 0 → size p ≤ size' q
  contents : q ≠ 0 → ∀ i < size p, m' (q + i) = m (p + i)

theorem Shows.answer_realloc (hs : Shows m live size h)
    (hs' : Shows m' (if q = 0 then live else insert q (live.erase p)) size' h')
    (hp : p ∈ live) (hmoves : Relocates live m m' size size' p q)
    (hroom : sized = true → q ≠ 0 → n ≤ size' q) :
    Answer sized (.realloc p n, q) h h' := by
  by_cases hq0 : q = 0
  · rw [if_pos hq0] at hs'
    exact Or.inl ⟨hq0, hs.eq_of_same hs' (hmoves.null hq0)⟩
  · rw [if_neg hq0] at hs'
    refine Or.inr ⟨ClientHeap.contents m' q (size' q), ?_, ?_,
      hs.grants_erase hs' hq0 hmoves.fresh hmoves.kept⟩
    · rw [hs p, if_pos hp, Option.getD_some]
      exact contents_isPrefix (hmoves.size_le hq0) (hmoves.contents hq0)
    · rw [length_contents]
      rintro (hsized | rfl)
      · exact hroom hsized hq0
      · have hnull := hs 0
        rw [h.null, if_pos hp] at hnull
        cases hnull

end Answers

/-! ## What a client may rely on -/

section Objects

variable [Zero V] {sized : Bool} {h h' : Holdings V} {p i : ℕ}

/-- The address of the object at `p` after a request. -/
def moved (p : ℕ) : Request V × ℕ → ℕ
  | (.realloc q _, r) => if q = p ∧ r ≠ 0 then r else p
  | _ => p

/-- The request neither frees the object at `p` nor overwrites its cell `i`. -/
def Spares (p i : ℕ) : Request V → Prop
  | .free q => q ≠ p
  | .store a _ => a ≠ p + i
  | _ => True

/-- All requests spare the cell `i` of the object that starts out at `p`. -/
def SparesAll (p i : ℕ) : List (Request V × ℕ) → Prop
  | [] => True
  | l :: ls => Spares p i l.1 ∧ SparesAll (moved p l) i ls

omit [Zero V] in
/-- A block that joins others leaves them alone. -/
theorem Grants.block_of_some {old : ℕ → Option (List V)} {r : ℕ} {cs bs : List V}
    (h : Grants old r cs h') (hp : old p = some bs) : h'.block p = some bs := by
  have hne : p ≠ r := by
    rintro rfl
    rw [h.fresh] at hp
    cases hp
  rw [h.block_eq, Function.update_of_ne hne, hp]

/-- One request keeps the cells it spares. -/
theorem Answer.cell_kept {l : Request V × ℕ} (hanswer : Answer sized l h h')
    (hspares : Spares p i l.1) {bs : List V} (hp : h.block p = some bs) {v : V}
    (hv : bs[i]? = some v) :
    ∃ cs, h'.block (moved p l) = some cs ∧ cs[i]? = some v := by
  obtain ⟨req, r⟩ := l
  cases req with
  | malloc n =>
      rcases hanswer with ⟨-, rfl⟩ | ⟨cs, -, hgrants⟩
      · exact ⟨bs, hp, hv⟩
      · exact ⟨bs, hgrants.block_of_some hp, hv⟩
  | calloc k n =>
      rcases hanswer with ⟨-, rfl⟩ | ⟨cs, -, hgrants⟩
      · exact ⟨bs, hp, hv⟩
      · exact ⟨bs, hgrants.block_of_some hp, hv⟩
  | free q =>
      refine ⟨bs, ?_, hv⟩
      change h'.block p = some bs
      rw [hanswer.2, Function.update_of_ne (Ne.symm hspares), hp]
  | realloc q n =>
      rcases hanswer with ⟨rfl, rfl⟩ | ⟨cs, hpre, -, hgrants⟩
      · exact ⟨bs, by simpa [moved] using hp, hv⟩
      · by_cases hqp : q = p
        · subst hqp
          rw [hp, Option.getD_some] at hpre
          refine ⟨cs, ?_, ?_⟩
          · rw [moved, if_pos ⟨rfl, hgrants.ne_zero⟩, hgrants.block_eq,
              Function.update_self]
          · have hi : i < bs.length := (List.getElem?_eq_some_iff.mp hv).1
            rw [← hv, List.getElem?_eq_getElem hi]
            exact List.prefix_iff_getElem?.mp hpre i hi
        · refine ⟨bs, ?_, hv⟩
          rw [moved, if_neg fun hand => hqp hand.1]
          apply hgrants.block_of_some
          rw [Function.update_of_ne (Ne.symm hqp), hp]
  | store a v' =>
      refine ⟨if p ≤ a then bs.set (a - p) v' else bs, ?_, ?_⟩
      · change h'.block p = _
        rw [hanswer.2 p, hp, Option.map_some]
      · split
        · next hle =>
          have hne : a ≠ p + i := hspares
          rw [List.getElem?_set_ne (by omega), hv]
        · exact hv

/-- A whole run keeps the cells it spares, wherever the object moves. -/
theorem cell_kept {ls : List (Request V × ℕ)}
    (hrun : Run (Answer sized) ls h h') (hspares : SparesAll p i ls)
    {bs : List V} (hp : h.block p = some bs) {v : V} (hv : bs[i]? = some v) :
    ∃ cs, h'.block (ls.foldl moved p) = some cs ∧ cs[i]? = some v := by
  induction hrun generalizing p bs with
  | nil => exact ⟨bs, hp, hv⟩
  | cons hstep _ ih =>
      obtain ⟨cs, hmoved, hcell⟩ := hstep.cell_kept hspares.1 hp hv
      exact ih hspares.2 hmoved hcell

/-- What memory holds at a spared cell is what it held before the run. -/
theorem Shows.cell_kept {m m' : ℕ → V} {live live' : Finset ℕ} {size size' : ℕ → ℕ}
    (hs : Shows m live size h) (hs' : Shows m' live' size' h')
    {ls : List (Request V × ℕ)} (hrun : Run (Answer sized) ls h h')
    (hspares : SparesAll p i ls) (hp : p ∈ live) (hi : i < size p) :
    ls.foldl moved p ∈ live' ∧ i < size' (ls.foldl moved p) ∧
      m' (ls.foldl moved p + i) = m (p + i) := by
  have hblock : h.block p = some (contents m p (size p)) := by
    rw [hs p, if_pos hp]
  have hcell : (contents m p (size p))[i]? = some (m (p + i)) := by
    rw [getElem?_contents, if_pos hi]
  obtain ⟨cs, hblock', hcell'⟩ := ClientHeap.cell_kept hrun hspares hblock hcell
  rw [hs' _] at hblock'
  split at hblock'
  · next hlive =>
    obtain rfl := Option.some.inj hblock'
    rw [getElem?_contents] at hcell'
    split at hcell'
    · next hlt => exact ⟨hlive, hlt, Option.some.inj hcell'⟩
    · cases hcell'
  · cases hblock'

end Objects

end OsCoursework.ClientHeap
