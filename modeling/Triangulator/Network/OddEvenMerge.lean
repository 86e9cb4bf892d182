import Mathlib

/-!
# Odd-even merging

Batcher's merging network without recursion: the entries of two sorted sequences
are paired, the pairs are put in the order of their reversed binary digits, and
rounds of comparators merge neighbouring blocks.  A block then holds the entries
with an index in one residue class, so the numbers of true entries in two blocks
that are merged differ by at most two.
-/

namespace OddEven

/-! ## Reversing binary digits -/

/-- The number with the lowest `p` binary digits of `i` in reverse order. -/
def reverseBits : ℕ → ℕ → ℕ
  | 0, _ => 0
  | p + 1, i => i % 2 * 2 ^ p + reverseBits p (i / 2)

theorem reverseBits_lt (p i : ℕ) : reverseBits p i < 2 ^ p := by
  induction p generalizing i with
  | zero => exact Nat.zero_lt_one
  | succ p ih =>
      have h := ih (i / 2)
      have hmod := Nat.mod_lt i Nat.two_pos
      rw [reverseBits, pow_succ]
      nlinarith

theorem reverseBits_two_mul (p k : ℕ) : reverseBits (p + 1) (2 * k) = reverseBits p k := by
  rw [reverseBits, Nat.mul_mod_right, Nat.mul_div_cancel_left k Nat.two_pos, Nat.zero_mul,
    Nat.zero_add]

theorem reverseBits_two_mul_add_one (p k : ℕ) :
    reverseBits (p + 1) (2 * k + 1) = 2 ^ p + reverseBits p k := by
  have hmod : (2 * k + 1) % 2 = 1 := by omega
  have hdiv : (2 * k + 1) / 2 = k := by omega
  rw [reverseBits, hmod, hdiv, Nat.one_mul]

/-- The next digit of `i` becomes the lowest digit. -/
theorem reverseBits_succ (p i : ℕ) :
    reverseBits (p + 1) i = 2 * reverseBits p i + i / 2 ^ p % 2 := by
  induction p generalizing i with
  | zero => simp [reverseBits]
  | succ p ih =>
      rw [reverseBits, ih, reverseBits, Nat.div_div_eq_div_mul, ← pow_succ' 2 p]
      ring

/-- A digit at the top becomes the lowest digit. -/
theorem reverseBits_top (p b x : ℕ) (hb : b < 2) (hx : x < 2 ^ p) :
    reverseBits (p + 1) (2 ^ p * b + x) = 2 * reverseBits p x + b := by
  induction p generalizing x with
  | zero =>
      obtain rfl : x = 0 := by simpa using hx
      simp [reverseBits, Nat.mod_eq_of_lt hb]
  | succ p ih =>
      have hx2 : x / 2 < 2 ^ p := by
        rw [pow_succ] at hx
        omega
      have hsplit : 2 ^ (p + 1) * b + x = 2 * (2 ^ p * b) + x := by ring
      have hmod : (2 ^ (p + 1) * b + x) % 2 = x % 2 := by
        rw [hsplit]
        omega
      have hdiv : (2 ^ (p + 1) * b + x) / 2 = 2 ^ p * b + x / 2 := by
        rw [hsplit]
        omega
      rw [reverseBits, hmod, hdiv, ih _ hx2, reverseBits]
      ring

theorem reverseBits_reverseBits {p i : ℕ} (hi : i < 2 ^ p) :
    reverseBits p (reverseBits p i) = i := by
  induction p generalizing i with
  | zero =>
      obtain rfl : i = 0 := by simpa using hi
      rfl
  | succ p ih =>
      have hi2 : i / 2 < 2 ^ p := by
        rw [pow_succ] at hi
        omega
      have hrec : reverseBits (p + 1) i = 2 ^ p * (i % 2) + reverseBits p (i / 2) := by
        rw [reverseBits, Nat.mul_comm]
      rw [hrec, reverseBits_top p _ _ (Nat.mod_lt i Nat.two_pos) (reverseBits_lt p _), ih hi2]
      exact Nat.div_add_mod i 2

/-! ## Counting a residue class -/

/-- How many numbers below `a` are congruent to `r` modulo `M`, for `r < M`. -/
def residueCount (a M r : ℕ) : ℕ :=
  (a + (M - 1 - r)) / M

theorem residueCount_of_le {a M r : ℕ} (ha : a ≤ M) (hr : r < M) :
    residueCount a M r = if r < a then 1 else 0 := by
  rw [residueCount]
  split
  · exact Nat.div_eq_of_lt_le (by omega) (by omega)
  · exact Nat.div_eq_of_lt (by omega)

theorem residueCount_one (a : ℕ) : residueCount a 1 0 = a := by
  simp [residueCount]

section Split

variable {a M r : ℕ} (hr : r < M)

include hr

theorem residueCount_low :
    residueCount a (2 * M) r = ((a + (M - 1 - r)) / M + 1) / 2 := by
  have hM : 0 < M := Nat.zero_lt_of_lt hr
  have h : a + (2 * M - 1 - r) = a + (M - 1 - r) + M := by omega
  rw [residueCount, h, Nat.mul_comm 2 M, ← Nat.div_div_eq_div_mul,
    Nat.add_div_right _ hM]

theorem residueCount_high :
    residueCount a (2 * M) (M + r) = (a + (M - 1 - r)) / M / 2 := by
  have h : a + (2 * M - 1 - (M + r)) = a + (M - 1 - r) := by omega
  rw [residueCount, h, Nat.mul_comm 2 M, ← Nat.div_div_eq_div_mul]

/-- A residue class splits into two classes for the double modulus. -/
theorem residueCount_split :
    residueCount a (2 * M) r + residueCount a (2 * M) (M + r) = residueCount a M r := by
  rw [residueCount_low hr, residueCount_high hr, residueCount]
  omega

theorem residueCount_high_le :
    residueCount a (2 * M) (M + r) ≤ residueCount a (2 * M) r := by
  rw [residueCount_low hr, residueCount_high hr]
  omega

theorem residueCount_low_le :
    residueCount a (2 * M) r ≤ residueCount a (2 * M) (M + r) + 1 := by
  rw [residueCount_low hr, residueCount_high hr]
  omega

end Split

/-! ## Merging two blocks -/

/-- The block of length `len` at `s` holds `k` true entries and then false ones. -/
structure SortedBlock (f : ℕ → Bool) (s len k : ℕ) : Prop where
  le : k ≤ len
  apply : ∀ j < len, f (s + j) = decide (j < k)

/-- What a round does to the two blocks of length `L` at `s` and behind it: the
first and the last entry stay, and the others go through comparators. -/
structure MergeStep (f f' : ℕ → Bool) (s L : ℕ) : Prop where
  first : f' s = f s
  hi : ∀ j, j + 1 < L → f' (s + (2 * j + 1)) = (f (s + j + 1) || f (s + j + L))
  lo : ∀ j, j + 1 < L → f' (s + (2 * j + 2)) = (f (s + j + 1) && f (s + j + L))
  last : f' (s + (2 * L - 1)) = f (s + (2 * L - 1))

/-- A round is determined by the entries of its block. -/
theorem MergeStep.congr {f f' g g' : ℕ → Bool} {s L : ℕ} (h : MergeStep f f' s L)
    (hL : 0 < L) (hfg : ∀ x < 2 * L, g (s + x) = f (s + x))
    (hfg' : ∀ x < 2 * L, g' (s + x) = f' (s + x)) : MergeStep g g' s L := by
  refine ⟨?_, fun j hj => ?_, fun j hj => ?_, ?_⟩
  · have h0 := hfg 0 (by omega)
    have h0' := hfg' 0 (by omega)
    rw [Nat.add_zero] at h0 h0'
    rw [h0, h0', h.first]
  · have h1 := hfg (j + 1) (by omega)
    have h2 := hfg (j + L) (by omega)
    rw [← Nat.add_assoc] at h1 h2
    rw [hfg' _ (by omega), h1, h2, h.hi j hj]
  · have h1 := hfg (j + 1) (by omega)
    have h2 := hfg (j + L) (by omega)
    rw [← Nat.add_assoc] at h1 h2
    rw [hfg' _ (by omega), h1, h2, h.lo j hj]
  · rw [hfg _ (by omega), hfg' _ (by omega), h.last]

/-- Sorted blocks are merged into a sorted block when the first has up to two more
true entries than the second. -/
theorem MergeStep.sortedBlock {f f' : ℕ → Bool} {s L e o : ℕ} (h : MergeStep f f' s L)
    (hL : 0 < L) (he : SortedBlock f s L e) (ho : SortedBlock f (s + L) L o)
    (hoe : o ≤ e) (heo : e ≤ o + 2) : SortedBlock f' s (2 * L) (e + o) := by
  have heL := he.le
  have hoL := ho.le
  refine ⟨by omega, fun j hj => ?_⟩
  have hlow : ∀ i < L, f (s + i) = decide (i < e) := he.apply
  have hhigh : ∀ i < L, f (s + i + L) = decide (i < o) := fun i hi => by
    rw [← ho.apply i hi, Nat.add_right_comm]
  -- The first entry, the last one, and the two outputs of a comparator.
  by_cases h0 : j = 0
  · subst h0
    rw [Nat.add_zero, h.first]
    have := hlow 0 hL
    rw [Nat.add_zero] at this
    rw [this]
    apply decide_eq_decide.mpr
    omega
  by_cases hlast : j = 2 * L - 1
  · subst hlast
    rw [h.last, show s + (2 * L - 1) = s + (L - 1) + L by omega, hhigh _ (by omega)]
    apply decide_eq_decide.mpr
    omega
  obtain ⟨i, hi | hi⟩ : ∃ i, j = 2 * i + 1 ∨ j = 2 * i + 2 := ⟨(j - 1) / 2, by omega⟩
  · subst hi
    have hiL : i + 1 < L := by omega
    rw [h.hi i hiL, show s + i + 1 = s + (i + 1) from rfl, hlow _ hiL,
      hhigh _ (Nat.lt_of_succ_lt hiL), ← Bool.decide_or]
    apply decide_eq_decide.mpr
    omega
  · subst hi
    have hiL : i + 1 < L := by omega
    rw [h.lo i hiL, show s + i + 1 = s + (i + 1) from rfl, hlow _ hiL,
      hhigh _ (Nat.lt_of_succ_lt hiL), ← Bool.decide_and]
    apply decide_eq_decide.mpr
    omega

/-- The blocks after `q` rounds on two sorted sequences of `2 ^ p` entries with `a`
and `b` true ones: the entries of a residue class modulo `2 ^ (p - q)`. -/
def RoundBlocks (a b p q : ℕ) (f : ℕ → Bool) : Prop :=
  ∀ k < 2 ^ (p - q), SortedBlock f (2 ^ (q + 1) * k) (2 ^ (q + 1))
    (residueCount a (2 ^ (p - q)) (reverseBits (p - q) k) +
      residueCount b (2 ^ (p - q)) (reverseBits (p - q) k))

/-- A round keeps the shape of the blocks. -/
theorem RoundBlocks.step {a b p q : ℕ} {f f' : ℕ → Bool} (hq : q < p)
    (h : RoundBlocks a b p q f)
    (hstep : ∀ k < 2 ^ (p - (q + 1)), MergeStep f f' (2 ^ (q + 2) * k) (2 ^ (q + 1))) :
    RoundBlocks a b p (q + 1) f' := by
  intro k hk
  obtain ⟨m, hm⟩ : ∃ m, p - q = m + 1 := ⟨p - (q + 1), by omega⟩
  have hm' : p - (q + 1) = m := by omega
  rw [hm'] at hk hstep ⊢
  have hpow : 2 ^ (m + 1) = 2 * 2 ^ m := pow_succ' 2 m
  have hL : 2 ^ (q + 2) = 2 * 2 ^ (q + 1) := pow_succ' 2 (q + 1)
  have hr := reverseBits_lt m k
  have hE := h (2 * k) (by rw [hm, hpow]; omega)
  have hO := h (2 * k + 1) (by rw [hm, hpow]; omega)
  rw [hm, hpow, reverseBits_two_mul] at hE
  rw [hm, hpow, reverseBits_two_mul_add_one] at hO
  have hs := hstep k hk
  have hstart : 2 ^ (q + 1) * (2 * k) = 2 ^ (q + 2) * k := by
    rw [hL]
    ring
  have hstart' : 2 ^ (q + 1) * (2 * k + 1) = 2 ^ (q + 2) * k + 2 ^ (q + 1) := by
    rw [hL]
    ring
  rw [hstart] at hE
  rw [hstart'] at hO
  have ha := residueCount_high_le (a := a) hr
  have ha' := residueCount_low_le (a := a) hr
  have hb := residueCount_high_le (a := b) hr
  have hb' := residueCount_low_le (a := b) hr
  have hmerge := hs.sortedBlock (Nat.two_pow_pos _) hE hO (by omega) (by omega)
  rw [← hL] at hmerge
  rw [← residueCount_split (a := a) hr, ← residueCount_split (a := b) hr]
  convert hmerge using 1
  omega

/-- Before the first round every pair is a block. -/
theorem roundBlocks_zero {a b p : ℕ} {f : ℕ → Bool} (ha : a ≤ 2 ^ p) (hb : b ≤ 2 ^ p)
    (hhi : ∀ k < 2 ^ p, f (2 * k) =
      (decide (reverseBits p k < a) || decide (reverseBits p k < b)))
    (hlo : ∀ k < 2 ^ p, f (2 * k + 1) =
      (decide (reverseBits p k < a) && decide (reverseBits p k < b))) :
    RoundBlocks a b p 0 f := by
  intro k hk
  rw [Nat.sub_zero] at hk ⊢
  rw [residueCount_of_le ha (reverseBits_lt p k), residueCount_of_le hb (reverseBits_lt p k)]
  refine ⟨by split <;> split <;> decide, fun j hj => ?_⟩
  rw [Nat.zero_add, pow_one] at hj ⊢
  obtain rfl | rfl : j = 0 ∨ j = 1 := by omega
  · rw [Nat.add_zero, hhi k hk, ← Bool.decide_or]
    apply decide_eq_decide.mpr
    split <;> split <;> omega
  · rw [hlo k hk, ← Bool.decide_and]
    apply decide_eq_decide.mpr
    split <;> split <;> omega

/-- After the last round there is one block with all entries. -/
theorem RoundBlocks.sortedBlock {a b p : ℕ} {f : ℕ → Bool} (h : RoundBlocks a b p p f) :
    SortedBlock f 0 (2 ^ (p + 1)) (a + b) := by
  have := h 0 (by simp)
  rw [Nat.sub_self] at this
  simpa [reverseBits, residueCount] using this

end OddEven
