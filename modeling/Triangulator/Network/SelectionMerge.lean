import Triangulator.Network.OddEvenMerge

/-!
# Odd-even merging of the largest entries

When only the larger half of the merged sequence is wanted, a round needs the larger half
of the second block of a pair and one entry more of the first block.  The comparators of a
round then leave out the smaller half of their block, except for the entry in its middle
when the block is the first one of the next pair.
-/

namespace OddEven

variable {f f' g g' : ℕ → Bool} {s L : ℕ} {mid : Bool}

/-- The first `len` entries at `s` are those of a sequence of `k` true entries and then
false ones. -/
def TopBlock (f : ℕ → Bool) (s len k : ℕ) : Prop :=
  ∀ j < len, f (s + j) = decide (j < k)

/-- What is not among the first `len` entries is not counted. -/
theorem TopBlock.sortedBlock {len k : ℕ} (h : TopBlock f s len k) :
    SortedBlock f s len (min k len) := by
  refine ⟨min_le_right k len, ?_⟩
  intro j hj
  rw [h j hj]
  apply decide_eq_decide.mpr
  rw [lt_min_iff]
  exact (and_iff_left hj).symm

/-- What a round does to the two blocks of length `L` at `s` and behind it: the entries of
the first half are written, and the entry behind them when `mid` is set. -/
structure SelectStep (f f' : ℕ → Bool) (s L : ℕ) (mid : Bool) : Prop where
  first : f' s = f s
  hi : ∀ j, 2 * j + 1 < L → f' (s + (2 * j + 1)) = (f (s + j + 1) || f (s + j + L))
  lo : ∀ j, 2 * j + 2 < L + mid.toNat →
    f' (s + (2 * j + 2)) = (f (s + j + 1) && f (s + j + L))

/-- A round is determined by the entries of its block. -/
theorem SelectStep.congr (h : SelectStep f f' s L mid) (hL : 0 < L)
    (hfg : ∀ x < 2 * L, g (s + x) = f (s + x))
    (hfg' : ∀ x < L + mid.toNat, g' (s + x) = f' (s + x)) : SelectStep g g' s L mid := by
  have hmid : mid.toNat ≤ 1 := Bool.toNat_le mid
  constructor
  · have h0 := hfg 0 (by omega)
    have h0' := hfg' 0 (by omega)
    rw [Nat.add_zero] at h0 h0'
    rw [h0, h0', h.first]
  · intro j hj
    have h1 := hfg (j + 1) (by omega)
    have h2 := hfg (j + L) (by omega)
    rw [← Nat.add_assoc] at h1 h2
    rw [hfg' _ (by omega), h1, h2, h.hi j hj]
  · intro j hj
    have h1 := hfg (j + 1) (by omega)
    have h2 := hfg (j + L) (by omega)
    rw [← Nat.add_assoc] at h1 h2
    rw [hfg' _ hj, h1, h2, h.lo j hj]

/-- The entries written are those of the merged sequence. -/
theorem SelectStep.topBlock {H e o : ℕ} (h : SelectStep f f' s (2 * H) mid)
    (he : TopBlock f s (H + 1) e) (ho : TopBlock f (s + 2 * H) H o) (hoe : o ≤ e)
    (heo : e ≤ o + 2) : TopBlock f' s (2 * H + mid.toNat) (e + o) := by
  have hmid : mid.toNat ≤ 1 := Bool.toNat_le mid
  have hlow : ∀ i ≤ H, f (s + i) = decide (i < e) := fun i hi => he i (Nat.lt_succ_of_le hi)
  have hhigh : ∀ i < H, f (s + i + 2 * H) = decide (i < o) := by
    intro i hi
    rw [← ho i hi, Nat.add_right_comm]
  intro j hj
  -- The first entry, and the two outputs of a comparator.
  by_cases h0 : j = 0
  · subst h0
    have hfirst := hlow 0 (Nat.zero_le H)
    rw [Nat.add_zero] at hfirst ⊢
    rw [h.first, hfirst]
    apply decide_eq_decide.mpr
    omega
  obtain ⟨i, hi | hi⟩ : ∃ i, j = 2 * i + 1 ∨ j = 2 * i + 2 := ⟨(j - 1) / 2, by omega⟩
  · subst hi
    rw [h.hi i (by omega), Nat.add_assoc s i 1, hlow (i + 1) (by omega),
      hhigh i (by omega), ← Bool.decide_or]
    apply decide_eq_decide.mpr
    omega
  · subst hi
    rw [h.lo i hj, Nat.add_assoc s i 1, hlow (i + 1) (by omega), hhigh i (by omega),
      ← Bool.decide_and]
    apply decide_eq_decide.mpr
    omega

/-! ## The rounds -/

/-- Whether block `k` keeps the entry behind its first half after `q` of `p` rounds. -/
def keepsMiddle (p q k : ℕ) : Bool :=
  decide (q < p) && decide (k % 2 = 0)

/-- How many entries of block `k` are there after `q` of `p` rounds. -/
def topLength (p q k : ℕ) : ℕ :=
  2 ^ q + (keepsMiddle p q k).toNat

theorem topLength_even {p q : ℕ} (hq : q < p) (k : ℕ) : topLength p q (2 * k) = 2 ^ q + 1 := by
  rw [topLength, keepsMiddle, decide_eq_true hq, Nat.mul_mod_right]
  exact rfl

theorem topLength_odd (p q k : ℕ) : topLength p q (2 * k + 1) = 2 ^ q := by
  rw [topLength, keepsMiddle, decide_eq_false (by omega : ¬(2 * k + 1) % 2 = 0), Bool.and_false]
  exact Nat.add_zero _

theorem topLength_last (p k : ℕ) : topLength p p k = 2 ^ p := by
  rw [topLength, keepsMiddle, decide_eq_false (lt_irrefl p)]
  exact Nat.add_zero _

theorem topLength_le (p q k : ℕ) : topLength p q k ≤ 2 ^ (q + 1) := by
  have hmid : (keepsMiddle p q k).toNat ≤ 1 := Bool.toNat_le _
  have hpos := Nat.one_le_two_pow (n := q)
  rw [topLength, pow_succ]
  omega

/-- The entries that are there after `q` rounds on two sequences of `2 ^ p` entries with
`a` and `b` true ones. -/
def SelectBlocks (a b p q : ℕ) (f : ℕ → Bool) : Prop :=
  ∀ k < 2 ^ (p - q), TopBlock f (2 ^ (q + 1) * k) (topLength p q k)
    (residueCount a (2 ^ (p - q)) (reverseBits (p - q) k) +
      residueCount b (2 ^ (p - q)) (reverseBits (p - q) k))

variable {a b p q : ℕ}

/-- A round keeps the shape of the blocks. -/
theorem SelectBlocks.step (hq : q < p) (h : SelectBlocks a b p q f)
    (hstep : ∀ k < 2 ^ (p - (q + 1)),
      SelectStep f f' (2 ^ (q + 2) * k) (2 ^ (q + 1)) (keepsMiddle p (q + 1) k)) :
    SelectBlocks a b p (q + 1) f' := by
  intro k hk
  obtain ⟨m, hm⟩ : ∃ m, p - q = m + 1 := ⟨p - (q + 1), by omega⟩
  have hm' : p - (q + 1) = m := by omega
  rw [hm'] at hk hstep ⊢
  have hpow : 2 ^ (m + 1) = 2 * 2 ^ m := pow_succ' 2 m
  have hL : 2 ^ (q + 1) = 2 * 2 ^ q := pow_succ' 2 q
  have hr := reverseBits_lt m k
  have hE := h (2 * k) (by rw [hm, hpow]; omega)
  have hO := h (2 * k + 1) (by rw [hm, hpow]; omega)
  rw [hm, hpow, reverseBits_two_mul, topLength_even hq] at hE
  rw [hm, hpow, reverseBits_two_mul_add_one, topLength_odd] at hO
  have hstart : 2 ^ (q + 1) * (2 * k) = 2 ^ (q + 2) * k := by ring
  have hstart' : 2 ^ (q + 1) * (2 * k + 1) = 2 ^ (q + 2) * k + 2 * 2 ^ q := by ring
  rw [hstart] at hE
  rw [hstart'] at hO
  have hs := hstep k hk
  rw [hL] at hs
  have ha := residueCount_high_le (a := a) hr
  have ha' := residueCount_low_le (a := a) hr
  have hb := residueCount_high_le (a := b) hr
  have hb' := residueCount_low_le (a := b) hr
  have hmerge := hs.topBlock hE hO (by omega) (by omega)
  rw [← residueCount_split (a := a) hr, ← residueCount_split (a := b) hr, topLength, hL]
  convert hmerge using 1
  omega

/-- Before the first round every first pair of a block is complete, and of the others
only the larger entry is there. -/
theorem selectBlocks_zero (ha : a ≤ 2 ^ p) (hb : b ≤ 2 ^ p)
    (hhi : ∀ k < 2 ^ p, f (2 * k) =
      (decide (reverseBits p k < a) || decide (reverseBits p k < b)))
    (hlo : ∀ k < 2 ^ p, keepsMiddle p 0 k = true → f (2 * k + 1) =
      (decide (reverseBits p k < a) && decide (reverseBits p k < b))) :
    SelectBlocks a b p 0 f := by
  intro k hk
  rw [Nat.sub_zero] at hk ⊢
  rw [residueCount_of_le ha (reverseBits_lt p k), residueCount_of_le hb (reverseBits_lt p k)]
  intro j hj
  rw [topLength, pow_zero] at hj
  rw [Nat.zero_add, pow_one]
  have hmid : (keepsMiddle p 0 k).toNat ≤ 1 := Bool.toNat_le _
  by_cases h0 : j = 0
  · subst h0
    rw [Nat.add_zero, hhi k hk, ← Bool.decide_or]
    apply decide_eq_decide.mpr
    split <;> split <;> omega
  · have hone : j = 1 := by omega
    have hkeep : keepsMiddle p 0 k = true := by
      by_contra hne
      rw [Bool.eq_false_of_not_eq_true hne, Bool.toNat_false] at hj
      omega
    rw [hone, hlo k hk hkeep, ← Bool.decide_and]
    apply decide_eq_decide.mpr
    split <;> split <;> omega

/-- After the last round the larger half of the entries is there. -/
theorem SelectBlocks.topBlock (h : SelectBlocks a b p p f) : TopBlock f 0 (2 ^ p) (a + b) := by
  have hblock := h 0 (Nat.two_pow_pos (p - p))
  rw [Nat.sub_self, topLength_last, Nat.mul_zero, pow_zero] at hblock
  rw [reverseBits, residueCount_one, residueCount_one] at hblock
  exact hblock

end OddEven
