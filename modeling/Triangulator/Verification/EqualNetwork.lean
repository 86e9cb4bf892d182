import Triangulator.Verification.SortingNetwork

/-!
# Counting with the sorting network

`HMerge` merges sorted outputs, `HSort` sorts, and an output of `EqualNetwork` is
true exactly when enough inputs are.
-/

namespace Triangulator

open AbortM OddEven

namespace CardinalityNetworkBuilder

variable {base : ℕ} {b : CardinalityNetworkBuilder} {t t' : Trace} {E : Trace → Prop}

/-- In every model the literals of `out` are `a` true ones and then false ones. -/
structure SortedOutput (t : Trace) (out : List Lit) (len : ℕ) (a : (ℕ → Bool) → ℕ) :
    Prop where
  length_eq : out.length = len
  known : ∀ l ∈ out, l.Known t.numVars
  sorted : ∀ σ, t.Models σ → SortedBlock (fun x => (out.getD x .undef).eval σ) 0 len (a σ)

/-- The same for literals that need not be variables. -/
structure SortedInput (t : Trace) (out : List Lit) (len : ℕ) (a : (ℕ → Bool) → ℕ) :
    Prop where
  length_eq : out.length = len
  valid : ∀ l ∈ out, l.Valid t.numVars
  sorted : ∀ σ, t.Models σ → SortedBlock (fun x => (out.getD x .undef).eval σ) 0 len (a σ)

theorem SortedInput.grows {out : List Lit} {len : ℕ} {a : (ℕ → Bool) → ℕ}
    (h : SortedInput t out len a) (ht : Trace.Grows t t') : SortedInput t' out len a :=
  ⟨h.length_eq, fun l hl => ht.valid (h.valid l hl), fun σ hσ => h.sorted σ (ht.models σ hσ)⟩

theorem SortedInput.valid_getD {out : List Lit} {len i : ℕ} {a : (ℕ → Bool) → ℕ}
    (h : SortedInput t out len a) (hi : i < len) : (out.getD i .undef).Valid t.numVars := by
  rw [← h.length_eq] at hi
  rw [List.getD_eq_getElem _ _ hi]
  exact h.valid _ (List.getElem_mem hi)

theorem SortedInput.eval_getD {out : List Lit} {len i : ℕ} {a : (ℕ → Bool) → ℕ}
    (h : SortedInput t out len a) (hi : i < len) {σ : ℕ → Bool} (hσ : t.Models σ) :
    (out.getD i .undef).eval σ = decide (i < a σ) := by
  have heval := (h.sorted σ hσ).apply i hi
  rwa [Nat.zero_add] at heval

theorem SortedOutput.sortedInput {out : List Lit} {len : ℕ} {a : (ℕ → Bool) → ℕ}
    (h : SortedOutput t out len a) : SortedInput t out len a :=
  ⟨h.length_eq, fun l hl => (h.known l hl).valid, h.sorted⟩

theorem SortedOutput.grows {out : List Lit} {len : ℕ} {a : (ℕ → Bool) → ℕ}
    (h : SortedOutput t out len a) (ht : Trace.Grows t t') : SortedOutput t' out len a :=
  ⟨h.length_eq, fun l hl => ht.known (h.known l hl), fun σ hσ => h.sorted σ (ht.models σ hσ)⟩

theorem SortedOutput.known_getD {out : List Lit} {len i : ℕ} {a : (ℕ → Bool) → ℕ}
    (h : SortedOutput t out len a) (hi : i < len) : (out.getD i .undef).Known t.numVars := by
  rw [← h.length_eq] at hi
  rw [List.getD_eq_getElem _ _ hi]
  exact h.known _ (List.getElem_mem hi)

theorem SortedOutput.eval_getD {out : List Lit} {len i : ℕ} {a : (ℕ → Bool) → ℕ}
    (h : SortedOutput t out len a) (hi : i < len) {σ : ℕ → Bool} (hσ : t.Models σ) :
    (out.getD i .undef).eval σ = decide (i < a σ) :=
  h.sortedInput.eval_getD hi hσ

section Merge

variable {p : ℕ} {A B : List Lit} {a a' : (ℕ → Bool) → ℕ}

/-- The pairs before the rounds: the two orders of an entry of `A` and one of
`B`. -/
structure Pairs (t : Trace) (A B : List Lit) (m : ℕ) (c : ℕ → Lit) : Prop where
  known : ∀ i < m, (c (2 * i)).Known t.numVars ∧ (c (2 * i + 1)).Known t.numVars
  eval : ∀ σ, t.Models σ → ∀ i < m,
    (c (2 * i)).eval σ = ((A.getD i .undef).eval σ || (B.getD i .undef).eval σ) ∧
    (c (2 * i + 1)).eval σ = ((A.getD i .undef).eval σ && (B.getD i .undef).eval σ)

theorem wp_pairs (ht : t.Scoped) (hb : Ready base b t)
    (hA : SortedInput t A (2 ^ p) a) (hB : SortedInput t B (2 ^ p) a') :
    wp ((List.range (2 ^ p)).foldlM
        (fun (s : (ℕ → Lit) × CardinalityNetworkBuilder) i => do
          let hi ← s.2.nextVar
          let lo ← hi.2.nextVar
          addComparator true true (A.getD i .undef) (B.getD i .undef) hi.1 (some lo.1)
          pure (Function.update (Function.update s.1 (2 * i) hi.1) (2 * i + 1) lo.1, lo.2))
        ((fun _ => Lit.undef), b))
      (fun s t' => Trace.Defining t t' ∧ Ready base s.2 t' ∧
        Pairs t' A B (2 ^ p) s.1) E t := by
  apply wp_foldlM_range (fun m (s : (ℕ → Lit) × CardinalityNetworkBuilder) t' =>
    Trace.Defining t t' ∧ Ready base s.2 t' ∧ Pairs t' A B m s.1)
  · exact ⟨Trace.Defining.refl ht, hb, ⟨fun i hi => absurd hi (Nat.not_lt_zero i),
      fun _ _ i hi => absurd hi (Nat.not_lt_zero i)⟩⟩
  intro i hi s t₁ hI
  obtain ⟨hcons, hready, hpairs⟩ := hI
  rw [wp_bind]
  apply wp_nextVar_ready hready
  intro b₁ hfree₁ hready₁
  rw [wp_bind]
  apply wp_nextVar_ready hready₁
  intro b₂ hfree₂ hready₂
  rw [wp_bind]
  have hx := hcons.toGrows.valid (hA.valid_getD hi)
  have hy := hcons.toGrows.valid (hB.valid_getD hi)
  apply wp_addComparator hcons.wellScoped.newVar.newVar hx hy rfl
  intro t₂ hnum hsc hmod
  have hcomp := defining_comparator hcons.wellScoped hx hy hsc hnum hmod
  rw [wp_pure]
  refine ⟨hcons.trans hcomp, ⟨hready₂.addVars_eq, hnum.trans hready₂.numVars_eq⟩,
    ⟨fun j hj => ?_, fun σ hσ j hj => ?_⟩⟩
  · dsimp only
    rcases Nat.lt_succ_iff_lt_or_eq.mp hj with hj' | rfl
    · rw [Function.update_of_ne (by omega), Function.update_of_ne (by omega),
        Function.update_of_ne (by omega), Function.update_of_ne (by omega)]
      have h := hpairs.known j hj'
      exact ⟨hcomp.toGrows.known h.1, hcomp.toGrows.known h.2⟩
    · rw [Function.update_of_ne (by omega), Function.update_self, Function.update_self]
      have hnum' : t₂.numVars = t₁.numVars + 2 := hnum
      exact ⟨by rw [Lit.known_var]; omega, by rw [Lit.known_var, Trace.numVars_newVar]; omega⟩
  · dsimp only
    obtain ⟨hgate, hσ₁⟩ := (hmod σ).mp hσ
    rcases Nat.lt_succ_iff_lt_or_eq.mp hj with hj' | rfl
    · rw [Function.update_of_ne (by omega), Function.update_of_ne (by omega),
        Function.update_of_ne (by omega), Function.update_of_ne (by omega)]
      exact hpairs.eval σ hσ₁ j hj'
    · rw [Function.update_of_ne (by omega), Function.update_self, Function.update_self]
      exact hgate

/-- A round over all blocks of one length. -/
theorem wp_hMergeRound {q : ℕ} {c : ℕ → Lit} (hq : q < p) (ht : t.Scoped)
    (hb : Ready base b t) (hc : ∀ x < 2 ^ (p + 1), (c x).Known t.numVars)
    (hblocks : ∀ σ, t.Models σ → RoundBlocks (a σ) (a' σ) p q fun x => (c x).eval σ) :
    wp ((List.range (2 * 2 ^ p / (4 * 2 ^ q))).foldlM
        (fun s k => hMergeBlock true true (4 * 2 ^ q) (4 * 2 ^ q * k) s) (c, b))
      (fun s t' => Trace.Defining t t' ∧ Ready base s.2 t' ∧
        (∀ x < 2 ^ (p + 1), (s.1 x).Known t'.numVars) ∧
        ∀ σ, t'.Models σ → RoundBlocks (a σ) (a' σ) p (q + 1) fun x => (s.1 x).eval σ)
      E t := by
  obtain ⟨m, rfl⟩ : ∃ m, p = q + 1 + m := ⟨p - (q + 1), by omega⟩
  have hL : 4 * 2 ^ q = 2 * 2 ^ (q + 1) := by
    rw [pow_succ]
    ring
  have hsize : 2 ^ (q + 1 + m + 1) = 2 * 2 ^ (q + 1) * 2 ^ m := by
    rw [pow_succ, pow_add]
    ring
  have hcount : 2 * 2 ^ (q + 1 + m) / (4 * 2 ^ q) = 2 ^ m := by
    rw [hL, pow_add, ← mul_assoc]
    exact Nat.mul_div_cancel_left _ (by positivity)
  have hL2 : 2 ≤ 2 ^ (q + 1) := by
    rw [pow_succ]
    have := Nat.one_le_two_pow (n := q)
    omega
  rw [hcount, hL]
  set L := 2 ^ (q + 1) with hLdef
  have hloop := wp_foldlM_range (E := E) (b := (c, b)) (s := t) (m := 2 ^ m)
    (f := fun s k => hMergeBlock true true (2 * L) (2 * L * k) s)
    (fun k s t' => Trace.Defining t t' ∧ Ready base s.2 t' ∧
      (∀ x < 2 ^ (q + 1 + m + 1), (s.1 x).Known t'.numVars) ∧
      (∀ x, 2 * L * k ≤ x → s.1 x = c x) ∧
      ∀ σ, t'.Models σ → ∀ k' < k, MergeStep (fun x => (c x).eval σ)
        (fun x => (s.1 x).eval σ) (2 * L * k') L)
    ⟨Trace.Defining.refl ht, hb, hc, fun _ _ => rfl,
      fun _ _ k' hk' => absurd hk' (Nat.not_lt_zero k')⟩
    (fun k hk s t₁ hI => by
      obtain ⟨c₁, b₁⟩ := s
      obtain ⟨hcons, hready, hknown, hsame, hsteps⟩ := hI
      have hend : 2 * L * (k + 1) ≤ 2 ^ (q + 1 + m + 1) := by
        rw [hsize]
        exact Nat.mul_le_mul_left _ hk
      have hnext : 2 * L * (k + 1) = 2 * L * k + 2 * L := Nat.mul_succ _ _
      apply wp_hMergeBlock hL2 hcons.wellScoped hready
        fun x hx => hknown _ (by omega)
      intro b₂ t₂ hcons₂ hready₂ hknown₂ hstep
      refine ⟨hcons.trans hcons₂, hready₂, fun x hx => hknown₂ x (hknown x hx),
        fun x hx => ?_, fun σ hσ k' hk' => ?_⟩
      · dsimp only
        rw [merged, if_neg (by omega)]
        exact hsame x (by omega)
      · rcases Nat.lt_succ_iff_lt_or_eq.mp hk' with hk' | rfl
        · have hbefore : 2 * L * k' + 2 * L ≤ 2 * L * k := by
            rw [← Nat.mul_succ]
            exact Nat.mul_le_mul_left _ hk'
          apply (hsteps σ (hcons₂.models σ hσ) k' hk').congr (by omega)
          · exact fun _ _ => rfl
          · intro x hx
            dsimp only
            rw [merged, if_neg (by omega)]
        · apply (hstep σ hσ).congr (by omega)
          · exact fun x _ =>
              congrArg (Lit.eval σ) (hsame _ (Nat.le_add_right _ x)).symm
          · exact fun _ _ => rfl)
  apply wp_imp hloop
  rintro s t' ⟨hcons, hready, hknown, -, hsteps⟩
  refine ⟨hcons, hready, hknown, fun σ hσ => ?_⟩
  apply (hblocks σ (hcons.models σ hσ)).step hq
  intro k hk
  rw [show q + 1 + m - (q + 1) = m by omega] at hk
  have hstart : 2 ^ (q + 2) = 2 * L := by
    rw [hLdef, pow_succ, Nat.mul_comm]
  rw [hstart]
  exact hsteps σ hσ k hk

/-- `HMerge` on two sorted inputs. -/
theorem wp_hMerge (ht : t.Scoped) (hb : Ready base b t)
    (hA : SortedInput t A (2 ^ p) a) (hB : SortedInput t B (2 ^ p) a') :
    wp (hMerge b A B true true)
      (fun r t' => Trace.Defining t t' ∧ Ready base r.2 t' ∧
        SortedOutput t' r.1 (2 ^ (p + 1)) fun σ => a σ + a' σ) E t := by
  rw [hMerge, wp_bind]
  apply wp_assert_of (decide_eq_true (hA.length_eq.trans hB.length_eq.symm))
  dsimp only
  rw [hA.length_eq, wp_bind]
  apply wp_imp (wp_pairs ht hb hA hB)
  intro s₁ t₁ h₁
  obtain ⟨hcons₁, hready₁, hpairs⟩ := h₁
  rw [wp_bind, Nat.log_pow Nat.one_lt_two]
  have hA₁ := hA.grows hcons₁.toGrows
  have hB₁ := hB.grows hcons₁.toGrows
  -- The entries after bit reversal.
  set c := reversePairs (2 ^ p) s₁.1 with hc
  have hc0 : ∀ u < 2 ^ p, c (2 * u) = s₁.1 (2 * reverseBits p u) := fun u hu => by
    have := reversePairs_apply p s₁.1 hu Nat.two_pos
    rwa [Nat.add_zero, Nat.add_zero] at this
  have hc1 : ∀ u < 2 ^ p, c (2 * u + 1) = s₁.1 (2 * reverseBits p u + 1) := fun u hu =>
    reversePairs_apply p s₁.1 hu Nat.one_lt_two
  have hcknown : ∀ x < 2 ^ (p + 1), (c x).Known t₁.numVars := by
    intro x hx
    have hlt : x / 2 < 2 ^ p := by
      rw [pow_succ] at hx
      omega
    have hr := hpairs.known _ (reverseBits_lt p (x / 2))
    obtain h | h := Nat.mod_two_eq_zero_or_one x
    · rw [show x = 2 * (x / 2) by omega, hc0 _ hlt]
      exact hr.1
    · rw [show x = 2 * (x / 2) + 1 by omega, hc1 _ hlt]
      exact hr.2
  have hzero : ∀ σ, t₁.Models σ → RoundBlocks (a σ) (a' σ) p 0 fun x => (c x).eval σ := by
    intro σ hσ
    apply roundBlocks_zero (hA₁.sorted σ hσ).le (hB₁.sorted σ hσ).le
    · intro k hk
      have hr := reverseBits_lt p k
      rw [hc0 k hk, (hpairs.eval σ hσ _ hr).1, hA₁.eval_getD hr hσ, hB₁.eval_getD hr hσ]
    · intro k hk
      have hr := reverseBits_lt p k
      rw [hc1 k hk, (hpairs.eval σ hσ _ hr).2, hA₁.eval_getD hr hσ, hB₁.eval_getD hr hσ]
  have hrounds := wp_foldlM_range (E := E) (b := (c, s₁.2)) (s := t₁) (m := p)
    (f := fun s level => (List.range (2 * 2 ^ p / (4 * 2 ^ level))).foldlM
      (fun s k => hMergeBlock true true (4 * 2 ^ level) (4 * 2 ^ level * k) s) s)
    (fun q s t' => Trace.Defining t t' ∧ Ready base s.2 t' ∧
      (∀ x < 2 ^ (p + 1), (s.1 x).Known t'.numVars) ∧
      ∀ σ, t'.Models σ → RoundBlocks (a σ) (a' σ) p q fun x => (s.1 x).eval σ)
    ⟨hcons₁, hready₁, hcknown, hzero⟩
    (fun q hq s t₂ hI => by
      obtain ⟨hcons₂, hready₂, hknown₂, hblocks₂⟩ := hI
      apply wp_imp (wp_hMergeRound hq hcons₂.wellScoped hready₂ hknown₂ hblocks₂)
      rintro s' t₃ ⟨hcons₃, h₃⟩
      exact ⟨hcons₂.trans hcons₃, h₃⟩)
  apply wp_imp hrounds
  intro s t₂ h₂
  obtain ⟨hcons₂, hready₂, hknown₂, hblocks₂⟩ := h₂
  rw [wp_pure]
  have hlen : 2 * 2 ^ p = 2 ^ (p + 1) := (pow_succ' 2 p).symm
  refine ⟨hcons₂, hready₂, ⟨by simp [hlen], ?_, fun σ hσ => ?_⟩⟩
  · simp only [List.mem_map, List.mem_range]
    rintro l ⟨x, hx, rfl⟩
    exact hknown₂ x (hlen ▸ hx)
  · have hsorted := (hblocks₂ σ hσ).sortedBlock
    refine ⟨hsorted.le, fun j hj => ?_⟩
    rw [← hsorted.apply j hj]
    dsimp only
    rw [Nat.zero_add, List.getD_eq_getElem?_getD, List.getElem?_map,
      List.getElem?_range (by omega)]
    rfl

end Merge

/-! ## Sorting -/

/-- The number of true literals. -/
def countTrue (σ : ℕ → Bool) (ls : List Lit) : ℕ :=
  ls.countP fun l => l.eval σ

theorem countTrue_congr {σ σ' : ℕ → Bool} {N : ℕ} {input : List Lit}
    (hv : ∀ l ∈ input, l.Valid N) (ha : AgreeBelow N σ σ') :
    countTrue σ' input = countTrue σ input :=
  List.countP_congr fun l hl => by rw [ha.eval (hv l hl)]

/-- A single literal is sorted. -/
theorem sortedInput_singleton {l : Lit} (hl : l.Valid t.numVars) :
    SortedInput t [l] (2 ^ 0) fun σ => countTrue σ [l] := by
  refine ⟨rfl, by simpa using hl, fun σ _ => ⟨?_, fun j hj => ?_⟩⟩
  · exact List.countP_le_length
  · obtain rfl : j = 0 := by simpa using hj
    cases h : l.eval σ with
    | false => simp [countTrue, h]
    | true => simp [countTrue, h]

/-- `HSort` on a range with a power of two of entries. -/
theorem wp_hSort {A : List Lit} (p fuel l : ℕ) (hp : p < fuel) (ht : t.Scoped)
    (hb : Ready base b t) (hA : ∀ x ∈ A, x.Valid t.numVars)
    (hl : l + 2 ^ (p + 1) ≤ A.length) :
    wp (hSort true true A fuel b l (l + 2 ^ (p + 1) - 1))
      (fun r t' => Trace.Defining t t' ∧ Ready base r.2 t' ∧
        SortedOutput t' r.1 (2 ^ (p + 1)) fun σ =>
          countTrue σ ((A.drop l).take (2 ^ (p + 1)))) E t := by
  induction p generalizing fuel b t l with
  | zero =>
      obtain ⟨fuel, rfl⟩ := Nat.exists_eq_add_of_lt hp
      have hle : l + 2 ^ (0 + 1) - 1 + 1 - l = 2 := by
        rw [Nat.zero_add, pow_one]
        omega
      rw [Nat.zero_add, pow_one] at hl
      have hget : ∀ i, i < A.length → (A.getD i .undef).Valid t.numVars := fun i hi => by
        rw [List.getD_eq_getElem _ _ hi]
        exact hA _ (List.getElem_mem hi)
      rw [hSort]
      dsimp only
      rw [hle, wp_bind]
      apply wp_assert_of rfl
      rw [wp_bind]
      apply wp_assert_of rfl
      rw [if_pos rfl]
      have hr : l + 2 ^ (0 + 1) - 1 = l + 1 := by
        rw [Nat.zero_add, pow_one]
        omega
      rw [hr]
      apply wp_imp (wp_hMerge ht hb (sortedInput_singleton (hget l (by omega)))
        (sortedInput_singleton (hget (l + 1) (by omega))))
      rintro r t' ⟨hcons, hready, hsorted⟩
      refine ⟨hcons, hready, ?_⟩
      have hlist : (A.drop l).take (2 ^ (0 + 1)) =
          [A.getD l .undef] ++ [A.getD (l + 1) .undef] := by
        rw [List.drop_eq_getElem_cons (by omega : l < A.length),
          List.drop_eq_getElem_cons (by omega : l + 1 < A.length),
          List.getD_eq_getElem _ _ (by omega : l < A.length),
          List.getD_eq_getElem _ _ (by omega : l + 1 < A.length)]
        rfl
      simp only [hlist, countTrue, List.countP_append]
      exact hsorted
  | succ p ih =>
      obtain ⟨fuel, rfl⟩ : ∃ f, fuel = f + 1 := ⟨fuel - 1, by omega⟩
      set N := 2 ^ (p + 1) with hN
      have hNpos : 2 ≤ N := by
        rw [hN, pow_succ]
        have := Nat.one_le_two_pow (n := p)
        omega
      have hN2 : 2 ^ (p + 1 + 1) = N + N := by
        rw [pow_succ, Nat.mul_two]
      rw [hN2] at hl ⊢
      have hle : l + (N + N) - 1 + 1 - l = N + N := by omega
      have hmid : (l + (l + (N + N) - 1)) / 2 = l + N - 1 := by omega
      have hmid' : l + N - 1 + 1 = l + N := by omega
      have hend : l + (N + N) - 1 = l + N + N - 1 := by omega
      rw [hSort]
      dsimp only
      rw [hle, wp_bind]
      apply wp_assert_of (decide_eq_true (by omega))
      rw [wp_bind]
      apply wp_assert_of (decide_eq_true (by omega))
      rw [if_neg (by omega), wp_bind, hmid]
      apply wp_imp (ih fuel l (by omega) ht hb hA (by omega))
      rintro x t₁ ⟨hcons₁, hready₁, hsorted₁⟩
      rw [wp_bind, hmid', hend]
      apply wp_imp (ih fuel (l + N) (by omega) hcons₁.wellScoped hready₁
        (fun x hx => hcons₁.toGrows.valid (hA x hx)) (by omega))
      rintro y t₂ ⟨hcons₂, hready₂, hsorted₂⟩
      apply wp_imp (wp_hMerge hcons₂.wellScoped hready₂ (hsorted₁.grows hcons₂.toGrows).sortedInput
        hsorted₂.sortedInput)
      rintro r t₃ ⟨hcons₃, hready₃, hsorted₃⟩
      refine ⟨(hcons₁.trans hcons₂).trans hcons₃, hready₃, ?_⟩
      have hlist : (A.drop l).take (N + N) =
          (A.drop l).take N ++ (A.drop (l + N)).take N := by
        rw [List.take_add, List.drop_drop]
      simp only [hlist, countTrue, List.countP_append]
      rw [hN2] at hsorted₃
      exact hsorted₃

/-! ## The network -/

theorem countTrue_append (σ : ℕ → Bool) (l k : List Lit) :
    countTrue σ (l ++ k) = countTrue σ l + countTrue σ k :=
  List.countP_append

/-- Padding with false variables. -/
theorem wp_pad (ht : t.Scoped) (hb : Ready base b t) {input : List Lit}
    (hinput : ∀ l ∈ input, l.Valid t.numVars) (count : ℕ) :
    wp (pad count (input, b))
      (fun s t' => Trace.Defining t t' ∧ Ready base s.2 t' ∧
        s.1.length = input.length + count ∧ (∀ l ∈ s.1, l.Valid t'.numVars) ∧
        ∀ σ, t'.Models σ → countTrue σ s.1 = countTrue σ input) E t := by
  apply wp_foldlM_range (fun j (s : List Lit × CardinalityNetworkBuilder) t' =>
    Trace.Defining t t' ∧ Ready base s.2 t' ∧ s.1.length = input.length + j ∧
      (∀ l ∈ s.1, l.Valid t'.numVars) ∧
      ∀ σ, t'.Models σ → countTrue σ s.1 = countTrue σ input)
  · exact ⟨Trace.Defining.refl ht, hb, rfl, hinput, fun _ _ => rfl⟩
  intro j _ s t₁ hI
  obtain ⟨hcons, hready, hlen, hvalid, hcount⟩ := hI
  rw [wp_bind]
  apply wp_nextVar_ready hready
  intro b' hfree hready'
  rw [wp_bind]
  apply wp_addClause (by simp)
  rw [wp_pure]
  have hnew := Trace.defining_false hcons.wellScoped
  refine ⟨hcons.trans hnew, ⟨hready'.addVars_eq, hready'.numVars_eq⟩, ?_, fun l hl => ?_,
    fun σ hσ => ?_⟩
  · rw [List.length_append, hlen, List.length_singleton, Nat.add_assoc]
  · rcases List.mem_append.mp hl with hl | hl
    · exact hnew.toGrows.valid (hvalid l hl)
    · obtain rfl := List.mem_singleton.mp hl
      exact Nat.lt_succ_self _
  · have hfalse := (Trace.models_addClause.mp hσ).1
    rw [holds_singleton, Lit.Valid.eval_neg (N := t₁.numVars + 1) (Nat.lt_succ_self _),
      Bool.not_eq_true'] at hfalse
    rw [countTrue_append, hcount σ (hnew.models σ hσ), countTrue, countTrue,
      List.countP_singleton, hfalse]
    rfl

/-- `Card` on a single block sorts it. -/
theorem wp_card_block {b : CardinalityNetworkBuilder} {A : List Lit} {p : ℕ} (fuel l : ℕ)
    (ht : t.Scoped) (hb : Ready base b t) (hA : ∀ x ∈ A, x.Valid t.numVars)
    (hl : l + 2 ^ (p + 1) ≤ A.length) :
    wp (card true true A (2 ^ (p + 1)) (fuel + 1) b l (l + 2 ^ (p + 1) - 1))
      (fun r t' => Trace.Defining t t' ∧ Ready base r.2 t' ∧
        SortedOutput t' r.1 (2 ^ (p + 1)) fun σ =>
          countTrue σ ((A.drop l).take (2 ^ (p + 1)))) E t := by
  have hpos := Nat.two_pow_pos (p + 1)
  have hlen : l + 2 ^ (p + 1) - 1 + 1 - l = 2 ^ (p + 1) := by omega
  have hp : p < A.length := by
    have hlt := Nat.lt_two_pow_self (n := p + 1)
    omega
  rw [card, hlen, wp_bind]
  apply wp_assert_of (decide_eq_true (Nat.mod_self _))
  rw [if_pos rfl]
  exact wp_hSort p A.length l hp ht hb hA hl

/-- `EqualNetwork` on at least two literals sorts them. -/
theorem wp_equalNetwork (ht : t.Scoped) {input : List Lit} (hn : 2 ≤ input.length)
    (hinput : ∀ l ∈ input, l.Valid t.numVars) :
    wp (init.equalNetwork input)
      (fun r t' => Trace.Defining t t' ∧
        SortedOutput t' r.1 input.length fun σ => countTrue σ input) E t := by
  rw [equalNetwork]
  dsimp only
  rw [wp_bind]
  apply wp_assert_of (decide_eq_true (by omega))
  obtain ⟨p, hp⟩ : ∃ p, Nat.clog 2 input.length = p + 1 :=
    Nat.exists_eq_succ_of_ne_zero (Nat.clog_pos Nat.one_lt_two hn).ne'
  have hle : input.length ≤ 2 ^ (p + 1) := hp ▸ Nat.le_pow_clog Nat.one_lt_two _
  rw [hp, wp_bind]
  apply wp_imp (wp_pad ht (settled_init t).ready hinput _)
  rintro s t₁ ⟨hcons₁, hready₁, hlen₁, hknown₁, hcount₁⟩
  have hlen : s.1.length = 2 ^ (p + 1) := by omega
  have hpos := Nat.two_pow_pos (p + 1)
  rw [wp_bind]
  apply wp_assert_of (decide_eq_true hlen)
  rw [wp_bind, hlen]
  -- The network is one block.
  have hcard := wp_card_block (E := E) (p := p) (2 ^ (p + 1) - 1) 0 hcons₁.wellScoped hready₁
    hknown₁ (by omega)
  rw [Nat.sub_add_cancel hpos, Nat.zero_add, List.drop_zero,
    List.take_of_length_le hlen.le] at hcard
  apply wp_imp hcard
  rintro out t₂ ⟨hcons₂, -, hsorted⟩
  rw [wp_bind]
  apply wp_assert_of (decide_eq_true hsorted.length_eq)
  have hbound : ∀ σ, t₂.Models σ → countTrue σ s.1 = countTrue σ input ∧
      countTrue σ input ≤ input.length := fun σ hσ =>
    ⟨hcount₁ σ (hcons₂.models σ hσ), List.countP_le_length⟩
  rw [wp_bind, hsorted.length_eq]
  -- The outputs behind the number of inputs are false anyway.
  have hpop := wp_foldlM_range (E := E) (b := out.1) (s := t₂)
    (m := 2 ^ (p + 1) - input.length)
    (f := fun output _ => do
      addClause [-(output.getLastD .undef)]
      pure output.dropLast)
    (fun j output t' => Trace.Defining t₂ t' ∧
      output = out.1.take (2 ^ (p + 1) - j))
    ⟨Trace.Defining.refl hcons₂.wellScoped, by
      rw [Nat.sub_zero, List.take_of_length_le hsorted.length_eq.le]⟩
    (fun j hj output t₃ hI => by
      obtain ⟨hcons₃, rfl⟩ := hI
      have hs₃ := hsorted.grows hcons₃.toGrows
      have hlast : (out.1.take (2 ^ (p + 1) - j)).getLastD .undef =
          out.1.getD (2 ^ (p + 1) - j - 1) .undef := by
        rw [List.getLastD_eq_getLast?, List.getLast?_eq_getElem?, List.length_take,
          hsorted.length_eq, min_eq_left (Nat.sub_le _ _),
          List.getElem?_take_of_lt (by omega), List.getD_eq_getElem?_getD]
      have hvalid := (hs₃.known_getD (i := 2 ^ (p + 1) - j - 1) (by omega)).valid
      have hclause : ∀ l ∈ [-(out.1.getD (2 ^ (p + 1) - j - 1) .undef)],
          l.Valid t₃.numVars := by
        intro l hl
        obtain rfl := List.mem_singleton.mp hl
        exact Lit.valid_neg.mpr hvalid
      rw [wp_bind, hlast]
      apply wp_addClause hclause
      rw [wp_pure]
      refine ⟨hcons₃.trans (Trace.Defining.addClause hcons₃.wellScoped hclause
        fun σ hσ => ?_), ?_⟩
      · rw [holds_singleton, hvalid.eval_neg, hs₃.eval_getD (by omega) hσ]
        have := hbound σ (hcons₃.models σ hσ)
        simp only [Bool.not_eq_true', decide_eq_false_iff_not]
        omega
      · rw [List.dropLast_eq_take, List.length_take, List.take_take, hsorted.length_eq]
        congr 1
        omega)
  apply wp_imp hpop
  rintro output t₃ ⟨hcons₃, rfl⟩
  have htake : 2 ^ (p + 1) - (2 ^ (p + 1) - input.length) = input.length := by omega
  rw [wp_pure]
  dsimp only
  rw [htake]
  have hs₃ := hsorted.grows hcons₃.toGrows
  refine ⟨(hcons₁.trans hcons₂).trans hcons₃, ⟨?_, fun l hl => ?_, fun σ hσ => ?_⟩⟩
  · rw [List.length_take, hsorted.length_eq, min_eq_left hle]
  · exact hs₃.known l (List.mem_of_mem_take hl)
  · have hb := hbound σ (hcons₃.models σ hσ)
    refine ⟨hb.2, fun j hj => ?_⟩
    rw [← hb.1, ← hs₃.eval_getD (lt_of_lt_of_le hj hle) hσ, Nat.zero_add,
      List.getD_eq_getElem?_getD, List.getElem?_take_of_lt hj, List.getD_eq_getElem?_getD]

/-- On at least two literals `EqualNetwork` returns, every assignment that the clauses
before it allow extends in exactly one way to its variables, and the outputs then count the
true inputs; so the outputs assumed for `k` are possible exactly when `k` inputs are true.
For a solver without clauses every assignment is allowed. -/
theorem equalNetwork_exact (ht : t.Scoped) {input : List Lit} (hn : 2 ≤ input.length)
    (hinput : ∀ l ∈ input, l.Valid t.numVars) :
    ∃ out b t', init.equalNetwork input t = (some (out, b), t') ∧
      out.length = input.length ∧
      (∀ σ, t.Models σ → ∃ σ', AgreeBelow t.numVars σ σ' ∧ t'.Models σ' ∧
        (∀ σ'', AgreeBelow t.numVars σ σ'' → t'.Models σ'' →
          AgreeBelow t'.numVars σ' σ'') ∧
        ∀ i < input.length,
          (out.getD i .undef).eval σ' = decide (i + 1 ≤ countTrue σ input)) ∧
      ∀ σ, t.Models σ → ∀ k ≤ input.length,
        (∃ σ', AgreeBelow t.numVars σ σ' ∧ t'.Models σ' ∧
          ∀ i < input.length, (out.getD i .undef).eval σ' = decide (i < k)) ↔
        countTrue σ input = k := by
  have hrun := wp_equalNetwork (E := fun _ => False) ht hn hinput
  obtain ⟨r, t', hr, hdef, hsorted⟩ := exists_of_wp hrun
  -- The outputs in a model that extends `σ`.
  have heval : ∀ σ σ', AgreeBelow t.numVars σ σ' → t'.Models σ' → ∀ i < input.length,
      (r.1.getD i .undef).eval σ' = decide (i < countTrue σ input) := by
    intro σ σ' hagree hσ' i hi
    rw [hsorted.eval_getD hi hσ', countTrue_congr hinput hagree]
  refine ⟨r.1, r.2, t', hr, hsorted.length_eq, ?_, ?_⟩
  · intro σ hσ
    obtain ⟨σ', hagree, hσ'⟩ := hdef.extend σ hσ
    refine ⟨σ', hagree, hσ', ?_, heval σ σ' hagree hσ'⟩
    intro σ'' hagree' hσ''
    exact hdef.unique σ' σ'' hσ' hσ'' (hagree.symm.trans hagree' le_rfl)
  · intro σ hσ k hk
    have hle : countTrue σ input ≤ input.length := List.countP_le_length
    constructor
    · rintro ⟨σ', hagree, hσ', hout⟩
      have hiff : ∀ i < input.length, (i < countTrue σ input ↔ i < k) := by
        intro i hi
        rw [← decide_eq_decide, ← heval σ σ' hagree hσ' i hi]
        exact hout i hi
      apply le_antisymm
      · apply le_of_not_gt
        intro hlt
        exact lt_irrefl k ((hiff k (by omega)).mp hlt)
      · apply le_of_not_gt
        intro hlt
        exact lt_irrefl _ ((hiff (countTrue σ input) (by omega)).mpr hlt)
    · rintro rfl
      obtain ⟨σ', hagree, hσ'⟩ := hdef.extend σ hσ
      exact ⟨σ', hagree, hσ', heval σ σ' hagree hσ'⟩

/-- Two of three literals, one of them constant. -/
theorem equalNetwork_exact_three :
    ∃ out b t', init.equalNetwork [.var true 0, .var false 1, .trueLit]
        [.newVar, .newVar] = (some (out, b), t') ∧
      ∀ σ, (∃ σ', AgreeBelow 2 σ σ' ∧ t'.Models σ' ∧
          ∀ i < 3, (out.getD i .undef).eval σ' = decide (i < 2)) ↔
        countTrue σ [.var true 0, .var false 1, .trueLit] = 2 := by
  have hscoped : Trace.Scoped [.newVar, .newVar] := by
    simp [Trace.Scoped, Trace.clauses]
  have hvalid : ∀ l ∈ [Lit.var true 0, .var false 1, .trueLit],
      l.Valid (Trace.numVars [.newVar, .newVar]) := by
    simp [Trace.numVars]
  obtain ⟨out, b, t', hrun, -, -, hcount⟩ := equalNetwork_exact hscoped (by decide) hvalid
  refine ⟨out, b, t', hrun, fun σ => hcount σ ?_ 2 (by decide)⟩
  simp [Trace.Models, Trace.clauses]

end CardinalityNetworkBuilder

end Triangulator
