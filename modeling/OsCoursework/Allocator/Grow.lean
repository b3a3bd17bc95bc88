import OsCoursework.Allocator.Geometry

/-!
# The growth test of `srealloc`

Before growing a block in place, `srealloc` runs a loop that reads headers at a
sequence of addresses.  The first one is the block's buddy.  The later ones are
computed from `mergedSize - sizeof(MetaData)` where the size including the
header is meant, so from the second iteration on the loop looks 32 bytes before
the place where the next buddy would start.  `probe` is that sequence of
addresses; `growLoop_eq` says that the loop ends and that it accepts exactly
when every probed address reads like a free header of the original size.
-/

namespace OsCoursework.Allocator

open OsCoursework.Bytes
open OsCoursework.Dyadic

/-- The pair `(mergeCandidate, buddy)` at the start of iteration `i` of the
loop, for a block at `start` of order `k`. -/
def probe (start k : ℕ) : ℕ → ℕ × ℕ
  | 0 => (start, start ^^^ blockSizeByOrder k)
  | i + 1 =>
      let candidate := min (probe start k i).1 (probe start k i).2
      (candidate, candidate ^^^ usable (k + i + 1))

/-- The bytes at `a` read like the header of a free block of order `k`. -/
def LooksFree (m : Mem) (k a : ℕ) : Prop :=
  getSize m a = usable k ∧ isFree m a = true

instance (m : Mem) (k a : ℕ) : Decidable (LooksFree m k a) :=
  inferInstanceAs (Decidable (_ ∧ _))

/-! ## Where the probes lie -/

theorem usable_lt_window {j : ℕ} (hj : j ≤ maxBlockOrder) :
    usable j < 2 ^ 17 := by
  have hadd := usable_add j
  have hle := blockSizeByOrder_le_max hj
  simp only [sizeofMetaData] at hadd
  omega

/-- Toggling low bits stays in the same 128 KiB window. -/
theorem xor_window {a v : ℕ} (hv : v < 2 ^ 17) :
    (a ^^^ v) / 2 ^ 17 = a / 2 ^ 17 := by
  rw [Nat.xor_div_two_pow, Nat.div_eq_of_lt hv, Nat.xor_zero]

theorem min_window {a b w : ℕ} (ha : a / 2 ^ 17 = w) (hb : b / 2 ^ 17 = w) :
    min a b / 2 ^ 17 = w := by
  rcases Nat.le_total a b with h | h
  · rw [Nat.min_eq_left h]
    exact ha
  · rw [Nat.min_eq_right h]
    exact hb

/-- Every probed address lies in the 128 KiB window of the block. -/
theorem probe_window (start : ℕ) {k i : ℕ} (hk : k < maxBlockOrder)
    (hi : k + i ≤ maxBlockOrder) :
    (probe start k i).1 / 2 ^ 17 = start / 2 ^ 17 ∧
      (probe start k i).2 / 2 ^ 17 = start / 2 ^ 17 := by
  induction i with
  | zero =>
      have hlt := blockSizeByOrder_lt_of_lt hk
      rw [blockSizeByOrder_max] at hlt
      exact ⟨rfl, xor_window (by omega)⟩
  | succ i ih =>
      obtain ⟨hc, hb⟩ := ih (by omega)
      have hmin := min_window hc hb
      refine ⟨hmin, ?_⟩
      change (_ ^^^ usable (k + i + 1)) / 2 ^ 17 = _
      rw [xor_window (usable_lt_window (by omega))]
      exact hmin

theorem probe_ne_zero {start k i : ℕ} (hk : k < maxBlockOrder)
    (hi : k + i ≤ maxBlockOrder) (hstart : 2 ^ 17 ≤ start) :
    (probe start k i).1 ≠ 0 ∧ (probe start k i).2 ≠ 0 := by
  obtain ⟨hc, hb⟩ := probe_window start hk hi
  have hpos : 0 < start / 2 ^ 17 := Nat.div_pos hstart (by decide)
  constructor
  · intro h0
    rw [h0] at hc
    omega
  · intro h0
    rw [h0] at hb
    omega

theorem xor_dvd {a v : ℕ} (ha : 32 ∣ a) (hv : 32 ∣ v) : 32 ∣ a ^^^ v := by
  have hmod := Nat.xor_mod_two_pow (a := a) (b := v) (n := 5)
  rw [show 2 ^ 5 = 32 from rfl, Nat.mod_eq_zero_of_dvd ha,
    Nat.mod_eq_zero_of_dvd hv] at hmod
  exact Nat.dvd_of_mod_eq_zero hmod

theorem usable_dvd (k : ℕ) : 32 ∣ usable k :=
  Nat.dvd_sub (Dvd.dvd.mul_right (by decide) _) (by decide)

/-- Every probed address is one at which a header could sit. -/
theorem probe_dvd {start k i : ℕ} (hstart : 32 ∣ start) :
    32 ∣ (probe start k i).1 ∧ 32 ∣ (probe start k i).2 := by
  induction i with
  | zero => exact ⟨hstart, xor_dvd hstart (Dvd.dvd.mul_right (by decide) _)⟩
  | succ i ih =>
      have hmin : 32 ∣ min (probe start k i).1 (probe start k i).2 := by
        rcases Nat.le_total (probe start k i).1 (probe start k i).2 with h | h
        · rw [Nat.min_eq_left h]
          exact ih.1
        · rw [Nat.min_eq_right h]
          exact ih.2
      exact ⟨hmin, xor_dvd hmin (usable_dvd _)⟩

theorem blockSizeByOrder_eq_two_pow (k : ℕ) :
    blockSizeByOrder k = 2 ^ (7 + k) := by
  rw [blockSizeByOrder, pow_add]
  rfl

/-- Candidate and probed address differ from the block in bits up to that of
the current size. -/
theorem probe_xor_le {start k i : ℕ} :
    (probe start k i).1 ^^^ start ≤ blockSizeByOrder (k + i) ∧
      (probe start k i).2 ^^^ start ≤ blockSizeByOrder (k + i) := by
  induction i with
  | zero =>
      refine ⟨?_, Nat.le_of_eq ?_⟩
      · change start ^^^ start ≤ _
        rw [Nat.xor_self]
        exact Nat.zero_le _
      · change (start ^^^ blockSizeByOrder k) ^^^ start = _
        rw [Nat.xor_comm, ← Nat.xor_assoc, Nat.xor_self, Nat.zero_xor]
        rfl
  | succ i ih =>
      have hstep := blockSizeByOrder_lt_of_lt (Nat.lt_succ_self (k + i))
      have hmin : min (probe start k i).1 (probe start k i).2 ^^^ start <
          blockSizeByOrder (k + i + 1) := by
        rcases Nat.le_total (probe start k i).1 (probe start k i).2 with h | h
        · rw [Nat.min_eq_left h]
          exact Nat.lt_of_le_of_lt ih.1 hstep
        · rw [Nat.min_eq_right h]
          exact Nat.lt_of_le_of_lt ih.2 hstep
      refine ⟨Nat.le_of_lt hmin, Nat.le_of_lt ?_⟩
      have husable : usable (k + i + 1) < blockSizeByOrder (k + i + 1) := by
        have hadd := usable_add (k + i + 1)
        rw [sizeofMetaData] at hadd
        omega
      change (_ ^^^ usable (k + i + 1)) ^^^ start < blockSizeByOrder (k + i + 1)
      rw [Nat.xor_assoc, Nat.xor_comm _ start, ← Nat.xor_assoc]
      rw [blockSizeByOrder_eq_two_pow] at hmin husable ⊢
      exact Nat.xor_lt_two_pow hmin husable

/-- No probe is the block itself. -/
theorem probe_ne_start {start k i : ℕ} : (probe start k i).2 ≠ start := by
  intro heq
  cases i with
  | zero =>
      have hge := blockSizeByOrder_ge k
      have hxor : start ^^^ (start ^^^ blockSizeByOrder k) = 0 := by
        rw [show start ^^^ blockSizeByOrder k = start from heq, Nat.xor_self]
      rw [← Nat.xor_assoc, Nat.xor_self, Nat.zero_xor] at hxor
      omega
  | succ i =>
      -- The candidate would differ from the block in a bit it cannot have
      -- reached yet.
      have hcandidate : (probe start k (i + 1)).1 ^^^ start ≤
          blockSizeByOrder (k + i) := by
        change min _ _ ^^^ start ≤ _
        rcases Nat.le_total (probe start k i).1 (probe start k i).2 with h | h
        · rw [Nat.min_eq_left h]
          exact probe_xor_le.1
        · rw [Nat.min_eq_right h]
          exact probe_xor_le.2
      have hxor : (probe start k (i + 1)).1 ^^^ start = usable (k + i + 1) := by
        have hbuddy : (probe start k (i + 1)).1 ^^^ usable (k + i + 1) = start :=
          heq
        nth_rewrite 2 [← hbuddy]
        rw [← Nat.xor_assoc, Nat.xor_self, Nat.zero_xor]
      have hadd := usable_add (k + i + 1)
      have hsucc := blockSizeByOrder_succ (k + i)
      have hge := blockSizeByOrder_ge (k + i)
      rw [sizeofMetaData] at hadd
      omega

/-! ## The loop -/

section Loop

variable {m : Mem} {start size k i fuel : ℕ}

/-- The lower of two addresses that read like free headers does so too. -/
theorem LooksFree.min {a b : ℕ} (ha : LooksFree m k a) (hb : LooksFree m k b) :
    LooksFree m k (min a b) := by
  rcases Nat.le_total a b with h | h
  · rw [Nat.min_eq_left h]
    exact ha
  · rw [Nat.min_eq_right h]
    exact hb

theorem ite_lt_eq_min (a b : ℕ) : (if b < a then b else a) = min a b := by
  split
  · next h => rw [Nat.min_eq_right (Nat.le_of_lt h)]
  · next h => rw [Nat.min_eq_left (Nat.le_of_not_lt h)]

/-- The size the loop computes is that of the next order, and the address it
probes next is off by the header's size. -/
theorem next_probe_eq (candidate : ℕ) {j : ℕ} (hj : j + 1 ≤ maxBlockOrder) :
    add64 (mul64 (usable j) 2) sizeofMetaData = usable (j + 1) ∧
      findBuddyWithSize candidate (sub64 (usable (j + 1)) sizeofMetaData) =
        candidate ^^^ usable (j + 1) := by
  have hlt := usable_lt_window hj
  have hsucc := usable_succ j
  rw [findBuddyWithSize]
  rw [sizeofMetaData] at *
  have hsub : add64 (sub64 (usable (j + 1)) 32) 32 = usable (j + 1) := by
    rw [add64, sub64]
    omega
  refine ⟨?_, by rw [hsub]⟩
  rw [add64, mul64]
  omega

/-- An iteration whose probe reads like a free header goes on. -/
theorem growLoop_of_looksFree (hj : k + i + 1 ≤ maxBlockOrder)
    (hstart : 2 ^ 17 ≤ start) (hsmall : usable (k + i) < size)
    (hcandidate : LooksFree m k (probe start k i).1)
    (hbuddy : LooksFree m k (probe start k i).2) :
    growLoop m size (fuel + 1) (probe start k i).1 (probe start k i).2
        (usable (k + i)) =
      growLoop m size fuel (probe start k (i + 1)).1 (probe start k (i + 1)).2
        (usable (k + (i + 1))) := by
  obtain ⟨hc0, hb0⟩ := probe_ne_zero (k := k) (i := i) (by omega) (by omega)
    hstart
  obtain ⟨hcsize, hcfree⟩ := hcandidate
  obtain ⟨hbsize, hbfree⟩ := hbuddy
  have horder : getBlockOrder m (probe start k i).1 ≠ maxBlockOrder := by
    rw [getBlockOrder_eq (by omega) hcsize]
    omega
  obtain ⟨hmerged, hprobe⟩ := next_probe_eq
    (min (probe start k i).1 (probe start k i).2) hj
  rw [growLoop, if_pos hsmall, if_neg (by simp [hc0, hb0, hcsize, hbsize])]
  simp only [hcfree, hbfree, horder, Bool.true_eq_false, or_self, if_false,
    ite_lt_eq_min, hmerged, hprobe]
  rfl

/-- An iteration whose probe does not ends the loop. -/
theorem growLoop_of_not_looksFree (hsmall : usable (k + i) < size)
    (hcandidate : LooksFree m k (probe start k i).1)
    (hbuddy : ¬ LooksFree m k (probe start k i).2) :
    growLoop m size (fuel + 1) (probe start k i).1 (probe start k i).2
      (usable (k + i)) = some (false, usable (k + i)) := by
  obtain ⟨hcsize, hcfree⟩ := hcandidate
  rw [growLoop, if_pos hsmall]
  by_cases hbsize : getSize m (probe start k i).2 = usable k
  · have hbfree : isFree m (probe start k i).2 = false := by
      by_contra htrue
      exact hbuddy ⟨hbsize, Bool.not_eq_false _ ▸ htrue⟩
    simp only [hbfree, true_or, or_true, if_true, ite_self]
  · rw [if_pos (Or.inr (Or.inr (by rw [hcsize]; exact Ne.symm hbsize)))]

/-- The loop ends; it accepts exactly when every probe reads like a free header
of the block's own size, and then the size it has computed is that of the
required order. -/
theorem growLoop_eq {r : ℕ} (hfits : Fits size r) (hr : r ≤ maxBlockOrder)
    (hi : k + i ≤ r) (hstart : 2 ^ 17 ≤ start)
    (hcandidate : LooksFree m k (probe start k i).1)
    (hfuel : r - (k + i) < fuel) :
    ((∀ j, i ≤ j → k + j < r → LooksFree m k (probe start k j).2) ∧
      growLoop m size fuel (probe start k i).1 (probe start k i).2
        (usable (k + i)) = some (true, usable r)) ∨
    ((∃ j, k + j < r ∧ ¬ LooksFree m k (probe start k j).2) ∧
      ∃ v, growLoop m size fuel (probe start k i).1 (probe start k i).2
        (usable (k + i)) = some (false, v)) := by
  obtain ⟨n, hn⟩ : ∃ n, r - (k + i) = n := ⟨_, rfl⟩
  induction n generalizing i fuel with
  | zero =>
      obtain ⟨fuel, rfl⟩ : ∃ f, fuel = f + 1 := ⟨fuel - 1, by omega⟩
      have heq : k + i = r := by omega
      have hlarge : ¬ usable (k + i) < size := by
        rw [Nat.not_lt, hfits.le_usable_iff]
        omega
      refine Or.inl ⟨fun j hj hjr => by omega, ?_⟩
      rw [growLoop, if_neg hlarge, heq]
  | succ n ih =>
      obtain ⟨fuel, rfl⟩ : ∃ f, fuel = f + 1 := ⟨fuel - 1, by omega⟩
      have hsmall : usable (k + i) < size := by
        rw [← Nat.not_le, hfits.le_usable_iff]
        omega
      by_cases hlooks : LooksFree m k (probe start k i).2
      · have hnext : LooksFree m k (probe start k (i + 1)).1 :=
          hcandidate.min hlooks
        have hfuel' : r - (k + (i + 1)) < fuel := by omega
        rw [growLoop_of_looksFree (by omega) hstart hsmall hcandidate hlooks]
        rcases ih (by omega) hnext hfuel' (by omega) with
          ⟨hall, hloop⟩ | hfail
        · refine Or.inl ⟨?_, hloop⟩
          intro j hj hjr
          rcases Nat.eq_or_lt_of_le hj with rfl | hlt
          · exact hlooks
          · exact hall j hlt hjr
        · exact Or.inr hfail
      · exact Or.inr ⟨⟨i, by omega, hlooks⟩, _,
          growLoop_of_not_looksFree hsmall hcandidate hlooks⟩

end Loop

end OsCoursework.Allocator
