import Triangulator.Network.SelectionMerge
import Triangulator.Verification.EqualNetwork

/-!
# Exactly `k` true literals

`SMerge` computes the larger half of the merged sequence and never reads an entry that it
has not written.  `Card` then counts up to the block length, and the two last clauses of
`AddEqual` leave the assignments with `k` true inputs.
-/

namespace Triangulator

open AbortM OddEven

namespace CardinalityNetworkBuilder

variable {base : ℕ} {b : CardinalityNetworkBuilder} {t t' : Trace} {E : Trace → Prop}

/-! ## Comparators without a smaller output -/

theorem wp_addMaximum {x y : Lit} {v : ℕ} (ht : t.Scoped) (hx : x.Valid v) (hy : y.Valid v)
    (hv : t.numVars = v + 1) {Q : Unit → Trace → Prop}
    (hQ : ∀ t', t'.numVars = t.numVars → t'.Scoped →
      (∀ σ, t'.Models σ ↔ σ v = (x.eval σ || y.eval σ) ∧ t.Models σ) → Q () t') :
    wp (addComparator true true x y (.var true v) none) Q E t := by
  have hx' := hx.mono (Nat.le_succ v)
  have hy' := hy.mono (Nat.le_succ v)
  have hv' : (Lit.var true v).Valid (v + 1) := Nat.lt_succ_self v
  simp only [addComparator, when, Option.elim_none, if_true, wp_bind, wp_pure]
  have h1 : ∀ l ∈ [-x, Lit.var true v], l.Valid t.numVars := by
    rw [hv]
    simp [hx']
  have h2 : ∀ l ∈ [-y, Lit.var true v], l.Valid t.numVars := by
    rw [hv]
    simp [hy']
  have h3 : ∀ l ∈ [x, y, -Lit.var true v], l.Valid t.numVars := by
    rw [hv]
    simp [hx', hy']
  apply wp_addClause h1
  apply wp_addClause (by rw [Trace.numVars_addClause]; exact h2)
  apply wp_addClause (by rw [Trace.numVars_addClause, Trace.numVars_addClause]; exact h3)
  apply hQ
  · exact rfl
  · exact ((ht.addClause h1).addClause h2).addClause h3
  · intro σ
    have hev : (-Lit.var true v).eval σ = !σ v := hv'.eval_neg
    simp only [Trace.models_addClause, holds_cons, not_holds_nil, or_false, hx.eval_neg,
      hy.eval_neg, Lit.eval_var_true, hev]
    cases x.eval σ <;> cases y.eval σ <;> cases σ v <;> simp

/-- A new variable with the clauses of a maximum is determined by the other variables and
does not restrict them. -/
theorem defining_maximum {x y : Lit} (ht : t.Scoped) (hx : x.Valid t.numVars)
    (hy : y.Valid t.numVars) (ht' : t'.Scoped) (hnum : t'.numVars = t.numVars + 1)
    (hmodels : ∀ σ, t'.Models σ ↔
      σ t.numVars = (x.eval σ || y.eval σ) ∧ t.Models σ) : Trace.Defining t t' := by
  refine ⟨⟨⟨by omega, ht', fun σ hσ => ((hmodels σ).mp hσ).2⟩, ?_⟩, ?_⟩
  · intro σ hσ
    have hagree := AgreeBelow.update t.numVars σ (x.eval σ || y.eval σ)
    refine ⟨_, hagree, (hmodels _).mpr ⟨?_, hσ.congr ht hagree⟩⟩
    rw [hagree.eval hx, hagree.eval hy, Function.update_self]
  · intro σ σ' hσ hσ' hagree v hv
    obtain ⟨hval, -⟩ := (hmodels σ).mp hσ
    obtain ⟨hval', -⟩ := (hmodels σ').mp hσ'
    rw [hagree.eval hx, hagree.eval hy] at hval'
    by_cases hlt : v < t.numVars
    · exact hagree v hlt
    · have heq : v = t.numVars := by omega
      rw [heq, hval, hval']

/-! ## A merging round -/

/-- The entries of a block after a round: new variables behind the first entry, up to the
middle of the block or the entry in it. -/
def selected (base free L i : ℕ) (mid : Bool) (c : ℕ → Lit) : ℕ → Lit := fun x =>
  if i < x ∧ x < i + L + mid.toNat then .var true (base + free + (x - (i + 1))) else c x

/-- The comparators of a round. -/
theorem wp_selectGates {H i : ℕ} {c : ℕ → Lit} {mid : Bool} (hH : 0 < H) (ht : t.Scoped)
    (hb : Ready base b t) (hc : ∀ x ≤ H, (c (i + x)).Valid t.numVars)
    (hc' : ∀ x < H, (c (i + x + 2 * H)).Valid t.numVars) :
    wp ((List.range H).foldlM
        (fun b j => do
          if j + 1 < H || !!mid then do
            let lo ← b.var (b.freeVar + 2 * j + 1)
            let hi ← lo.2.var (b.freeVar + 2 * j)
            addComparator true true (c (i + j + 1)) (c (i + j + 2 * H)) hi.1 (some lo.1)
            pure hi.2
          else do
            let hi ← b.var (b.freeVar + 2 * j)
            addComparator true true (c (i + j + 1)) (c (i + j + 2 * H)) hi.1 none
            pure hi.2)
        b)
      (fun b' t' => b'.freeVar = b.freeVar ∧
        Stored base (b.freeVar + (2 * H - 1 + mid.toNat)) b' t' ∧ Trace.Defining t t' ∧
        ∀ σ, t'.Models σ → ∀ j < H,
          σ (base + b.freeVar + 2 * j) =
            ((c (i + j + 1)).eval σ || (c (i + j + 2 * H)).eval σ) ∧
          (2 * j + 1 < 2 * H - 1 + mid.toNat →
            σ (base + b.freeVar + 2 * j + 1) =
              ((c (i + j + 1)).eval σ && (c (i + j + 2 * H)).eval σ))) E t := by
  have hmid : mid.toNat ≤ 1 := Bool.toNat_le mid
  have hloop := wp_foldlM_range (E := E) (b := b) (s := t) (m := H)
    (f := fun b j => do
      if j + 1 < H || !!mid then do
        let lo ← b.var (b.freeVar + 2 * j + 1)
        let hi ← lo.2.var (b.freeVar + 2 * j)
        addComparator true true (c (i + j + 1)) (c (i + j + 2 * H)) hi.1 (some lo.1)
        pure hi.2
      else do
        let hi ← b.var (b.freeVar + 2 * j)
        addComparator true true (c (i + j + 1)) (c (i + j + 2 * H)) hi.1 none
        pure hi.2)
    (fun j b' t' => b'.freeVar = b.freeVar ∧
      Stored base (b.freeVar + min (2 * j) (2 * H - 1 + mid.toNat)) b' t' ∧
      Trace.Defining t t' ∧ ∀ σ, t'.Models σ → ∀ j' < j,
        σ (base + b.freeVar + 2 * j') =
          ((c (i + j' + 1)).eval σ || (c (i + j' + 2 * H)).eval σ) ∧
        (2 * j' + 1 < 2 * H - 1 + mid.toNat →
          σ (base + b.freeVar + 2 * j' + 1) =
            ((c (i + j' + 1)).eval σ && (c (i + j' + 2 * H)).eval σ)))
    ⟨rfl, by rw [Nat.mul_zero, Nat.zero_min]; exact hb, Trace.Defining.refl ht,
      fun _ _ _ hj => absurd hj (Nat.not_lt_zero _)⟩
    (fun j hj b₁ t₁ hI => by
      obtain ⟨hfree, hstored, hcons, hval⟩ := hI
      have hmin : min (2 * j) (2 * H - 1 + mid.toNat) = 2 * j := by omega
      rw [hmin] at hstored
      have hv : t₁.numVars = base + (b₁.freeVar + 2 * j) := by
        rw [hstored.numVars_eq, hfree]
      have hx1 := hcons.toGrows.valid (hc (j + 1) hj)
      have hx2 := hcons.toGrows.valid (hc' j hj)
      rw [← Nat.add_assoc] at hx1
      by_cases hboth : (decide (j + 1 < H) || !!mid) = true
      · have hroom : 2 * j + 2 ≤ 2 * H - 1 + mid.toNat := by
          rw [Bool.not_not, Bool.or_eq_true, decide_eq_true_eq] at hboth
          obtain hlt | htrue := hboth
          · omega
          · rw [htrue, Bool.toNat_true]
            omega
        rw [if_pos hboth, wp_bind]
        apply wp_var hstored (by omega)
        intro b₂ hfree₂ hstored₂
        have htwo : b₁.freeVar + 2 * j + 1 + 1 - (b.freeVar + 2 * j) = 2 := by omega
        have hmax : max (b.freeVar + 2 * j) (b₁.freeVar + 2 * j + 1 + 1) =
            b.freeVar + min (2 * (j + 1)) (2 * H - 1 + mid.toNat) := by omega
        rw [htwo, hmax] at hstored₂
        rw [htwo, wp_bind]
        apply wp_var hstored₂ (by omega)
        intro b₃ hfree₃ hstored₃
        have hnone : b₁.freeVar + 2 * j + 1 -
            (b.freeVar + min (2 * (j + 1)) (2 * H - 1 + mid.toNat)) = 0 := by omega
        have hmax' : max (b.freeVar + min (2 * (j + 1)) (2 * H - 1 + mid.toNat))
            (b₁.freeVar + 2 * j + 1) =
              b.freeVar + min (2 * (j + 1)) (2 * H - 1 + mid.toNat) := by omega
        rw [hnone, hmax'] at hstored₃
        rw [hnone, wp_bind]
        apply wp_addComparator hcons.wellScoped.newVar.newVar (hv ▸ hx1) (hv ▸ hx2) (by
          change t₁.numVars + 2 = _
          rw [hv])
        intro t₂ hnum₂ hsc₂ hmod₂
        rw [← hv] at hmod₂
        have hcomp := defining_comparator hcons.wellScoped hx1 hx2 hsc₂ hnum₂ hmod₂
        rw [wp_pure]
        refine ⟨hfree₃.trans (hfree₂.trans hfree),
          ⟨hstored₃.addVars_eq, hnum₂.trans hstored₃.numVars_eq⟩, hcons.trans hcomp, ?_⟩
        intro σ hσ j' hj'
        obtain ⟨hgate, hσ₁⟩ := (hmod₂ σ).mp hσ
        rcases Nat.lt_succ_iff_lt_or_eq.mp hj' with hj' | rfl
        · exact hval σ hσ₁ j' hj'
        · rw [hv, hfree, ← Nat.add_assoc] at hgate
          exact ⟨hgate.1, fun _ => hgate.2⟩
      · -- The last comparator of a block that leaves out its middle.
        have hroom : 2 * H - 1 + mid.toNat = 2 * j + 1 := by
          rw [Bool.not_not, Bool.or_eq_true, decide_eq_true_eq, not_or,
            Bool.not_eq_true] at hboth
          rw [hboth.2, Bool.toNat_false]
          omega
        rw [if_neg hboth, wp_bind]
        apply wp_var hstored (by omega)
        intro b₂ hfree₂ hstored₂
        have hone : b₁.freeVar + 2 * j + 1 - (b.freeVar + 2 * j) = 1 := by omega
        have hmax : max (b.freeVar + 2 * j) (b₁.freeVar + 2 * j + 1) =
            b.freeVar + min (2 * (j + 1)) (2 * H - 1 + mid.toNat) := by omega
        rw [hone, hmax] at hstored₂
        rw [hone, wp_bind]
        apply wp_addMaximum hcons.wellScoped.newVar (hv ▸ hx1) (hv ▸ hx2) (by
          change t₁.numVars + 1 = _
          rw [hv])
        intro t₂ hnum₂ hsc₂ hmod₂
        rw [← hv] at hmod₂
        have hcomp := defining_maximum hcons.wellScoped hx1 hx2 hsc₂ hnum₂ hmod₂
        rw [wp_pure]
        refine ⟨hfree₂.trans hfree,
          ⟨hstored₂.addVars_eq, hnum₂.trans hstored₂.numVars_eq⟩, hcons.trans hcomp, ?_⟩
        intro σ hσ j' hj'
        obtain ⟨hgate, hσ₁⟩ := (hmod₂ σ).mp hσ
        rcases Nat.lt_succ_iff_lt_or_eq.mp hj' with hj' | rfl
        · exact hval σ hσ₁ j' hj'
        · rw [hv, hfree, ← Nat.add_assoc] at hgate
          refine ⟨hgate, ?_⟩
          intro hlt
          omega)
  apply wp_imp hloop
  rintro b' t' ⟨hfree, hstored, hcons, hval⟩
  have hmin : min (2 * H) (2 * H - 1 + mid.toNat) = 2 * H - 1 + mid.toNat := by omega
  rw [hmin] at hstored
  exact ⟨hfree, hstored, hcons, hval⟩

/-- Writing the new variables of a round. -/
theorem wp_selectWrites {H i free : ℕ} {c : ℕ → Lit} {mid : Bool} (hH : 0 < H)
    (hfree : b.freeVar = free) (hb : Stored base (free + (2 * H - 1 + mid.toNat)) b t) :
    wp (do
        let s ← (List.range' 1 (2 * H - 1)).foldlM
          (fun (s : (ℕ → Lit) × CardinalityNetworkBuilder) j => do
            let v ← s.2.nextVar
            pure (Function.update s.1 (i + j) v.1, v.2))
          (c, b)
        if !mid then pure s
        else do
          let v ← s.2.nextVar
          pure (Function.update s.1 (i + 2 * H) v.1, v.2))
      (fun s t' => t' = t ∧ s.1 = selected base free (2 * H) i mid c ∧ Ready base s.2 t)
      E t := by
  rw [wp_bind]
  have hwrite := wp_foldlM_range' (E := E) (b := (c, b)) (s := t) (k := 1) (m := 2 * H - 1)
    (f := fun s j => do
      let v ← s.2.nextVar
      pure (Function.update s.1 (i + j) v.1, v.2))
    (fun j s t' => t' = t ∧ s.2.freeVar = free + j ∧
      Stored base (free + (2 * H - 1 + mid.toNat)) s.2 t ∧
      s.1 = selected base free (j + 1) i false c)
    ⟨rfl, hfree, hb, by
      funext x
      rw [selected, if_neg (by rw [Bool.toNat_false]; omega)]⟩
    (fun j hj s t' hI => by
      obtain ⟨rfl, hfree', hstored', hs⟩ := hI
      rw [wp_bind]
      apply wp_nextVar hstored'
      intro b₂ hfree₂ hstored₂
      have hnone : s.2.freeVar + 1 - (free + (2 * H - 1 + mid.toNat)) = 0 := by omega
      have hmax : max (free + (2 * H - 1 + mid.toNat)) (s.2.freeVar + 1) =
          free + (2 * H - 1 + mid.toNat) := by omega
      rw [hnone, hmax] at hstored₂
      rw [hnone, wp_pure]
      refine ⟨rfl, by rw [hfree₂, hfree', Nat.add_assoc], hstored₂, ?_⟩
      funext x
      dsimp only
      rw [hs, hfree']
      by_cases hx : x = i + (1 + j)
      · subst hx
        rw [Function.update_self, selected, Bool.toNat_false, if_pos (by omega)]
        congr 1
        omega
      · rw [Function.update_of_ne hx, selected, selected, Bool.toNat_false]
        by_cases hin : i < x ∧ x < i + (j + 1) + 0
        · rw [if_pos hin, if_pos (by omega)]
        · rw [if_neg hin, if_neg (by omega)])
  apply wp_imp hwrite
  rintro ⟨c', b'⟩ t' ⟨rfl, hfree', hstored', hs⟩
  dsimp only at hfree' hstored' hs ⊢
  have hlen : 2 * H - 1 + 1 = 2 * H := by omega
  rw [hlen] at hs
  cases mid with
  | false =>
      rw [Bool.not_false, if_pos rfl, wp_pure]
      refine ⟨rfl, hs, ?_⟩
      rw [Bool.toNat_false, Nat.add_zero, ← hfree'] at hstored'
      exact hstored'
  | true =>
      rw [Bool.not_true, if_neg Bool.false_ne_true, wp_bind]
      rw [Bool.toNat_true] at hstored'
      apply wp_nextVar hstored'
      intro b₂ hfree₂ hstored₂
      have hnone : b'.freeVar + 1 - (free + (2 * H - 1 + 1)) = 0 := by omega
      have hmax : max (free + (2 * H - 1 + 1)) (b'.freeVar + 1) = b'.freeVar + 1 := by omega
      rw [hnone, hmax, ← hfree₂] at hstored₂
      rw [hnone, wp_pure]
      refine ⟨rfl, ?_, hstored₂⟩
      funext x
      dsimp only
      rw [hs, hfree']
      by_cases hx : x = i + 2 * H
      · subst hx
        rw [Function.update_self, selected, Bool.toNat_true, if_pos (by omega)]
        congr 1
        omega
      · rw [Function.update_of_ne hx, selected, selected, Bool.toNat_false, Bool.toNat_true]
        by_cases hin : i < x ∧ x < i + 2 * H + 0
        · rw [if_pos hin, if_pos (by omega)]
        · rw [if_neg hin, if_neg (by omega)]

/-- `sMergeBlock` merges the larger halves of two blocks of length `2 * H`. -/
theorem wp_sMergeBlock {H i : ℕ} {c : ℕ → Lit} {mid : Bool} (hH : 0 < H) (ht : t.Scoped)
    (hb : Ready base b t) (hc : ∀ x ≤ H, (c (i + x)).Valid t.numVars)
    (hc' : ∀ x < H, (c (i + x + 2 * H)).Valid t.numVars)
    {Q : (ℕ → Lit) × CardinalityNetworkBuilder → Trace → Prop}
    (hQ : ∀ b' t', Trace.Defining t t' → Ready base b' t' →
      (∀ x, (c x).Known t.numVars ∨ i < x ∧ x < i + 2 * H + mid.toNat →
        (selected base b.freeVar (2 * H) i mid c x).Known t'.numVars) →
      (∀ σ, t'.Models σ → SelectStep (fun x => (c x).eval σ)
        (fun x => (selected base b.freeVar (2 * H) i mid c x).eval σ) i (2 * H) mid) →
      Q (selected base b.freeVar (2 * H) i mid c, b') t') :
    wp (sMergeBlock true true (2 * (2 * H)) i (!mid) (c, b)) Q E t := by
  have hhalf : 2 * (2 * H) / 2 = 2 * H := by omega
  have hquarter : 2 * (2 * H) / 4 = H := by omega
  have hmid : mid.toNat ≤ 1 := Bool.toNat_le mid
  rw [sMergeBlock, wp_bind, hhalf, hquarter]
  apply wp_imp (wp_selectGates hH ht hb hc hc')
  rintro b₁ t₁ ⟨hfree, hstored, hcons, hval⟩
  apply wp_imp (wp_selectWrites hH hfree hstored)
  rintro ⟨c', b'⟩ t' ⟨rfl, hsel, hready⟩
  dsimp only at hsel hready
  subst hsel
  apply hQ b' t' hcons hready
  · intro x hx
    rw [selected]
    split
    · change _ < t'.numVars
      rw [hstored.numVars_eq]
      omega
    · rename_i hout
      exact hcons.toGrows.known (hx.resolve_right hout)
  · intro σ hσ
    constructor
    · rw [selected, if_neg (by omega)]
    · intro j hj
      have hgate := (hval σ hσ j (by omega)).1
      rw [selected, if_pos (by omega), Lit.eval_var_true, ← hgate]
      congr 1
      omega
    · intro j hj
      have hgate := (hval σ hσ j (by omega)).2 (by omega)
      rw [selected, if_pos (by omega), Lit.eval_var_true, ← hgate]
      congr 1
      omega

section Merge

variable {p : ℕ} {A B : List Lit} {a a' : (ℕ → Bool) → ℕ}

/-- The entries that are there after `q` of `p` rounds are variables. -/
def KnownBlocks (p q : ℕ) (c : ℕ → Lit) (N : ℕ) : Prop :=
  ∀ k < 2 ^ (p - q), ∀ x < topLength p q k, (c (2 ^ (q + 1) * k + x)).Known N

/-- A round over all blocks of one length. -/
theorem wp_sMergeRound {q : ℕ} {c : ℕ → Lit} (hq : q < p) (ht : t.Scoped)
    (hb : Ready base b t) (hc : KnownBlocks p q c t.numVars)
    (hblocks : ∀ σ, t.Models σ → SelectBlocks (a σ) (a' σ) p q fun x => (c x).eval σ) :
    wp ((List.range (2 * 2 ^ p / (4 * 2 ^ q))).foldlM
        (fun (s : Bool × (ℕ → Lit) × CardinalityNetworkBuilder) k => do
          let oc := s.1 || decide (4 * 2 ^ q = 2 * 2 ^ p)
          let r ← sMergeBlock true true (4 * 2 ^ q) (4 * 2 ^ q * k) oc s.2
          pure (!oc, r))
        (false, c, b))
      (fun s t' => s.1 = false ∧ Trace.Defining t t' ∧ Ready base s.2.2 t' ∧
        KnownBlocks p (q + 1) s.2.1 t'.numVars ∧
        ∀ σ, t'.Models σ → SelectBlocks (a σ) (a' σ) p (q + 1) fun x => (s.2.1 x).eval σ)
      E t := by
  obtain ⟨m, rfl⟩ : ∃ m, p = q + 1 + m := ⟨p - (q + 1), by omega⟩
  set H := 2 ^ q with hH
  have hHpos : 0 < H := Nat.two_pow_pos q
  have hL : 2 ^ (q + 1) = 2 * H := pow_succ' 2 q
  have hLL : 2 ^ (q + 2) = 2 * (2 * H) := by
    rw [pow_succ' 2 (q + 1), hL]
  have hle : 4 * H = 2 * (2 * H) := by ring
  have hcount : 2 * 2 ^ (q + 1 + m) / (4 * H) = 2 ^ m := by
    rw [hle, pow_add, hL, ← mul_assoc]
    exact Nat.mul_div_cancel_left _ (by positivity)
  have hlast : 4 * H = 2 * 2 ^ (q + 1 + m) ↔ m = 0 := by
    rw [hle, pow_add, hL]
    constructor
    · intro heq
      have hone : 2 * (2 * H) * 1 = 2 * (2 * H) * 2 ^ m := by linarith
      have hpow := Nat.eq_of_mul_eq_mul_left (by positivity) hone
      exact Nat.pow_right_injective le_rfl hpow.symm
    · rintro rfl
      ring
  -- The entries of the two blocks that a block of this round is made of.
  have hfst : ∀ k < 2 ^ m, ∀ x ≤ H, (c (2 * (2 * H) * k + x)).Known t.numVars := by
    intro k hk x hx
    have hpow : 2 ^ (q + 1 + m - q) = 2 * 2 ^ m := by
      rw [show q + 1 + m - q = m + 1 by omega, pow_succ']
    have hknown := hc (2 * k) (by rw [hpow]; omega) x
      (by rw [topLength_even hq]; exact Nat.lt_succ_of_le hx)
    rw [hL] at hknown
    rwa [show 2 * (2 * H) * k = 2 * H * (2 * k) by ring]
  have hsnd : ∀ k < 2 ^ m, ∀ x < H, (c (2 * (2 * H) * k + x + 2 * H)).Known t.numVars := by
    intro k hk x hx
    have hpow : 2 ^ (q + 1 + m - q) = 2 * 2 ^ m := by
      rw [show q + 1 + m - q = m + 1 by omega, pow_succ']
    have hknown := hc (2 * k + 1) (by rw [hpow]; omega) x (by rw [topLength_odd]; exact hx)
    rw [hL] at hknown
    rwa [show 2 * (2 * H) * k + x + 2 * H = 2 * H * (2 * k + 1) + x by ring]
  rw [hcount]
  have hloop := wp_foldlM_range (E := E) (b := (false, c, b)) (s := t) (m := 2 ^ m)
    (f := fun s k => do
      let oc := s.1 || decide (4 * H = 2 * 2 ^ (q + 1 + m))
      let r ← sMergeBlock true true (4 * H) (4 * H * k) oc s.2
      pure (!oc, r))
    (fun k s t' => s.1 = (decide (0 < m) && decide (k % 2 = 1)) ∧ Trace.Defining t t' ∧
      Ready base s.2.2 t' ∧ (∀ x, 2 * (2 * H) * k ≤ x → s.2.1 x = c x) ∧
      (∀ k' < k, ∀ x < topLength (q + 1 + m) (q + 1) k',
        (s.2.1 (2 * (2 * H) * k' + x)).Known t'.numVars) ∧
      ∀ σ, t'.Models σ → ∀ k' < k, SelectStep (fun x => (c x).eval σ)
        (fun x => (s.2.1 x).eval σ) (2 * (2 * H) * k') (2 * H)
        (keepsMiddle (q + 1 + m) (q + 1) k'))
    ⟨by rw [Nat.zero_mod]; exact (Bool.and_false _).symm, Trace.Defining.refl ht, hb,
      fun _ _ => rfl, fun k' hk' => absurd hk' (Nat.not_lt_zero k'),
      fun _ _ k' hk' => absurd hk' (Nat.not_lt_zero k')⟩
    (fun k hk s t₁ hI => by
      obtain ⟨oc, c₁, b₁⟩ := s
      obtain ⟨hoc, hcons, hready, hsame, hknown, hsteps⟩ := hI
      dsimp only at hoc hready hsame hknown hsteps ⊢
      set mid := keepsMiddle (q + 1 + m) (q + 1) k with hmid
      have hmid' : mid = (decide (0 < m) && decide (k % 2 = 0)) := by
        rw [hmid, keepsMiddle]
        congr 1
        apply decide_eq_decide.mpr
        omega
      -- The flag of the source tells whether the middle is left out.
      have hflag : (oc || decide (4 * H = 2 * 2 ^ (q + 1 + m))) = !mid := by
        rw [hoc, hmid', decide_eq_decide.mpr hlast]
        by_cases hm : m = 0
        · subst hm
          rfl
        · rw [decide_eq_false hm, decide_eq_true (Nat.pos_of_ne_zero hm)]
          rcases Nat.mod_two_eq_zero_or_one k with hk2 | hk2
          · rw [hk2]
            rfl
          · rw [hk2]
            rfl
      have hnext : 2 * (2 * H) * (k + 1) = 2 * (2 * H) * k + 2 * (2 * H) := Nat.mul_succ _ _
      have hbound : mid.toNat ≤ 1 := Bool.toNat_le mid
      have hbefore : ∀ k' < k, 2 * (2 * H) * k' + 2 * (2 * H) ≤ 2 * (2 * H) * k := by
        intro k' hk'
        rw [← Nat.mul_succ]
        exact Nat.mul_le_mul_left _ hk'
      rw [hflag, hle, wp_bind]
      apply wp_sMergeBlock hHpos hcons.wellScoped hready
      · intro x hx
        rw [hsame _ (Nat.le_add_right _ _)]
        exact hcons.toGrows.valid (hfst k hk x hx).valid
      · intro x hx
        rw [hsame _ (by omega)]
        exact hcons.toGrows.valid (hsnd k hk x hx).valid
      intro b₂ t₂ hcons₂ hready₂ hknown₂ hstep
      rw [wp_pure, Bool.not_not]
      dsimp only
      refine ⟨?_, hcons.trans hcons₂, hready₂, ?_, ?_, ?_⟩
      · rw [hmid']
        congr 1
        apply decide_eq_decide.mpr
        omega
      · intro x hx
        rw [selected, if_neg (by omega)]
        exact hsame x (by omega)
      · intro k' hk' x hx
        have htop : topLength (q + 1 + m) (q + 1) k' ≤ 2 ^ (q + 2) := topLength_le _ _ _
        apply hknown₂
        rcases Nat.lt_succ_iff_lt_or_eq.mp hk' with hlt | rfl
        · exact Or.inl (hknown k' hlt x hx)
        · by_cases hx0 : x = 0
          · subst hx0
            refine Or.inl ?_
            rw [hsame _ (Nat.le_add_right _ _)]
            exact hcons.toGrows.known (hfst k' hk 0 (Nat.zero_le H))
          · rw [topLength, ← hmid, hL] at hx
            exact Or.inr ⟨by omega, by omega⟩
      · intro σ hσ k' hk'
        rcases Nat.lt_succ_iff_lt_or_eq.mp hk' with hlt | rfl
        · have hb := hbefore k' hlt
          have hbound' : (keepsMiddle (q + 1 + m) (q + 1) k').toNat ≤ 1 := Bool.toNat_le _
          apply (hsteps σ (hcons₂.models σ hσ) k' hlt).congr (by omega)
          · exact fun _ _ => rfl
          · intro x hx
            rw [selected, if_neg (by omega)]
        · apply (hstep σ hσ).congr (by omega)
          · exact fun x _ => congrArg (Lit.eval σ) (hsame _ (Nat.le_add_right _ x)).symm
          · exact fun _ _ => rfl)
  apply wp_imp hloop
  rintro ⟨oc, c', b'⟩ t' ⟨hoc, hcons, hready, -, hknown, hsteps⟩
  dsimp only at hoc hready hknown hsteps ⊢
  have hm : q + 1 + m - (q + 1) = m := by omega
  refine ⟨?_, hcons, hready, ?_, ?_⟩
  · rw [hoc]
    cases m with
    | zero => rfl
    | succ m =>
        have heven : 2 ^ (m + 1) % 2 = 0 := by
          rw [pow_succ, Nat.mul_mod_left]
        rw [heven]
        exact Bool.and_false _
  · intro k hk x hx
    rw [hm] at hk
    rw [hLL]
    exact hknown k hk x hx
  · intro σ hσ
    apply (hblocks σ (hcons.models σ hσ)).step hq
    intro k hk
    rw [hm] at hk
    rw [hLL, hL]
    exact hsteps σ hσ k hk

/-- The pairs before the rounds; the smaller entry is there in the first half only. -/
structure SelectPairs (t : Trace) (A B : List Lit) (half m : ℕ) (c : ℕ → Lit) : Prop where
  known : ∀ i < m, (c (2 * i)).Known t.numVars ∧
    (i < half → (c (2 * i + 1)).Known t.numVars)
  eval : ∀ σ, t.Models σ → ∀ i < m,
    (c (2 * i)).eval σ = ((A.getD i .undef).eval σ || (B.getD i .undef).eval σ) ∧
    (i < half →
      (c (2 * i + 1)).eval σ = ((A.getD i .undef).eval σ && (B.getD i .undef).eval σ))

/-- One more pair keeps the pairs before it. -/
theorem SelectPairs.succ {half m : ℕ} {c c' : ℕ → Lit} (h : SelectPairs t A B half m c)
    (ht : Trace.Grows t t') (hc : ∀ x < 2 * m, c' x = c x)
    (hknown : (c' (2 * m)).Known t'.numVars ∧ (m < half → (c' (2 * m + 1)).Known t'.numVars))
    (heval : ∀ σ, t'.Models σ →
      (c' (2 * m)).eval σ = ((A.getD m .undef).eval σ || (B.getD m .undef).eval σ) ∧
      (m < half →
        (c' (2 * m + 1)).eval σ = ((A.getD m .undef).eval σ && (B.getD m .undef).eval σ))) :
    SelectPairs t' A B half (m + 1) c' := by
  constructor
  · intro i hi
    rcases Nat.lt_succ_iff_lt_or_eq.mp hi with hlt | rfl
    · have hold := h.known i hlt
      rw [hc _ (by omega), hc _ (by omega)]
      exact ⟨ht.known hold.1, fun hh => ht.known (hold.2 hh)⟩
    · exact hknown
  · intro σ hσ i hi
    rcases Nat.lt_succ_iff_lt_or_eq.mp hi with hlt | rfl
    · rw [hc _ (by omega), hc _ (by omega)]
      exact h.eval σ (ht.models σ hσ) i hlt
    · exact heval σ hσ

theorem wp_selectPairs (ht : t.Scoped) (hb : Ready base b t)
    (hA : SortedInput t A (2 ^ p) a) (hB : SortedInput t B (2 ^ p) a') :
    wp ((List.range (2 ^ p)).foldlM
        (fun (s : (ℕ → Lit) × CardinalityNetworkBuilder) i => do
          let hi ← s.2.nextVar
          let c := Function.update s.1 (2 * i) hi.1
          if i < 2 ^ p / 2 then do
            let lo ← hi.2.nextVar
            addComparator true true (A.getD i .undef) (B.getD i .undef) hi.1 (some lo.1)
            pure (Function.update c (2 * i + 1) lo.1, lo.2)
          else do
            addComparator true true (A.getD i .undef) (B.getD i .undef) hi.1 none
            pure (c, hi.2))
        ((fun _ => Lit.undef), b))
      (fun s t' => Trace.Defining t t' ∧ Ready base s.2 t' ∧
        SelectPairs t' A B (2 ^ p / 2) (2 ^ p) s.1) E t := by
  apply wp_foldlM_range (fun m (s : (ℕ → Lit) × CardinalityNetworkBuilder) t' =>
    Trace.Defining t t' ∧ Ready base s.2 t' ∧ SelectPairs t' A B (2 ^ p / 2) m s.1)
  · exact ⟨Trace.Defining.refl ht, hb, ⟨fun i hi => absurd hi (Nat.not_lt_zero i),
      fun _ _ i hi => absurd hi (Nat.not_lt_zero i)⟩⟩
  rintro i hi s t₁ ⟨hcons, hready, hpairs⟩
  have hx := hcons.toGrows.valid (hA.valid_getD hi)
  have hy := hcons.toGrows.valid (hB.valid_getD hi)
  rw [wp_bind]
  apply wp_nextVar_ready hready
  intro b₁ hfree₁ hready₁
  dsimp only
  by_cases hhalf : i < 2 ^ p / 2
  · rw [if_pos hhalf, wp_bind]
    apply wp_nextVar_ready hready₁
    intro b₂ hfree₂ hready₂
    rw [wp_bind]
    apply wp_addComparator hcons.wellScoped.newVar.newVar hx hy rfl
    intro t₂ hnum hsc hmod
    have hcomp := defining_comparator hcons.wellScoped hx hy hsc hnum hmod
    have hnum' : t₂.numVars = t₁.numVars + 2 := hnum
    rw [wp_pure]
    refine ⟨hcons.trans hcomp, ⟨hready₂.addVars_eq, hnum.trans hready₂.numVars_eq⟩, ?_⟩
    apply hpairs.succ hcomp.toGrows
    · intro x hx
      dsimp only
      rw [Function.update_of_ne (by omega), Function.update_of_ne (by omega)]
    · dsimp only
      rw [Function.update_of_ne (by omega), Function.update_self, Function.update_self,
        Lit.known_var, Lit.known_var, Trace.numVars_newVar]
      exact ⟨by omega, fun _ => by omega⟩
    · intro σ hσ
      obtain ⟨hgate, -⟩ := (hmod σ).mp hσ
      dsimp only
      rw [Function.update_of_ne (by omega), Function.update_self, Function.update_self]
      exact ⟨hgate.1, fun _ => hgate.2⟩
  · rw [if_neg hhalf, wp_bind]
    apply wp_addMaximum hcons.wellScoped.newVar hx hy rfl
    intro t₂ hnum hsc hmod
    have hcomp := defining_maximum hcons.wellScoped hx hy hsc hnum hmod
    have hnum' : t₂.numVars = t₁.numVars + 1 := hnum
    rw [wp_pure]
    refine ⟨hcons.trans hcomp, ⟨hready₁.addVars_eq, hnum.trans hready₁.numVars_eq⟩, ?_⟩
    apply hpairs.succ hcomp.toGrows
    · intro x hx
      exact Function.update_of_ne hx.ne _ _
    · dsimp only
      rw [Function.update_self, Lit.known_var]
      exact ⟨by omega, fun hlt => absurd hlt hhalf⟩
    · intro σ hσ
      obtain ⟨hgate, -⟩ := (hmod σ).mp hσ
      dsimp only
      rw [Function.update_self]
      exact ⟨hgate, fun hlt => absurd hlt hhalf⟩

/-- The first pair of a block comes from the first half. -/
theorem reverseBits_lt_half {k : ℕ} (hkeep : keepsMiddle p 0 k = true) :
    reverseBits p k < 2 ^ p / 2 := by
  rw [keepsMiddle, Bool.and_eq_true, decide_eq_true_eq, decide_eq_true_eq] at hkeep
  obtain ⟨hp, heven⟩ := hkeep
  obtain ⟨p', rfl⟩ := Nat.exists_eq_succ_of_ne_zero hp.ne'
  obtain ⟨m, rfl⟩ := Nat.dvd_of_mod_eq_zero heven
  rw [Nat.succ_eq_add_one, reverseBits_two_mul, pow_succ, Nat.mul_div_cancel _ Nat.two_pos]
  exact reverseBits_lt p' m

/-- `SMerge` on two sorted inputs. -/
theorem wp_sMerge (ht : t.Scoped) (hb : Ready base b t)
    (hA : SortedInput t A (2 ^ p) a) (hB : SortedInput t B (2 ^ p) a') :
    wp (sMerge b A B true true)
      (fun r t' => Trace.Defining t t' ∧ Ready base r.2 t' ∧
        SortedOutput t' r.1 (2 ^ p) fun σ => min (a σ + a' σ) (2 ^ p)) E t := by
  rw [sMerge, wp_bind]
  apply wp_assert_of (decide_eq_true (hA.length_eq.trans hB.length_eq.symm))
  dsimp only
  rw [hA.length_eq, wp_bind]
  apply wp_imp (wp_selectPairs ht hb hA hB)
  rintro s₁ t₁ ⟨hcons₁, hready₁, hpairs⟩
  rw [wp_bind, Nat.log_pow Nat.one_lt_two]
  have hA₁ := hA.grows hcons₁.toGrows
  have hB₁ := hB.grows hcons₁.toGrows
  -- The entries after bit reversal.
  set c := reversePairs (2 ^ p) s₁.1 with hc
  have hc0 : ∀ u < 2 ^ p, c (2 * u) = s₁.1 (2 * reverseBits p u) := by
    intro u hu
    have hentry := reversePairs_apply p s₁.1 hu Nat.two_pos
    rwa [Nat.add_zero, Nat.add_zero] at hentry
  have hc1 : ∀ u < 2 ^ p, c (2 * u + 1) = s₁.1 (2 * reverseBits p u + 1) := fun u hu =>
    reversePairs_apply p s₁.1 hu Nat.one_lt_two
  have hcknown : KnownBlocks p 0 c t₁.numVars := by
    intro k hk x hx
    rw [Nat.sub_zero] at hk
    have hr := hpairs.known _ (reverseBits_lt p k)
    have hmid : (keepsMiddle p 0 k).toNat ≤ 1 := Bool.toNat_le _
    rw [topLength, pow_zero] at hx
    rw [Nat.zero_add, pow_one]
    by_cases hx0 : x = 0
    · rw [hx0, Nat.add_zero, hc0 k hk]
      exact hr.1
    · have hkeep : keepsMiddle p 0 k = true := by
        by_contra hne
        rw [Bool.eq_false_of_not_eq_true hne, Bool.toNat_false] at hx
        omega
      have hx1 : x = 1 := by omega
      rw [hx1, hc1 k hk]
      exact hr.2 (reverseBits_lt_half hkeep)
  have hzero : ∀ σ, t₁.Models σ → SelectBlocks (a σ) (a' σ) p 0 fun x => (c x).eval σ := by
    intro σ hσ
    apply selectBlocks_zero (hA₁.sorted σ hσ).le (hB₁.sorted σ hσ).le
    · intro k hk
      have hr := reverseBits_lt p k
      rw [hc0 k hk, (hpairs.eval σ hσ _ hr).1, hA₁.eval_getD hr hσ, hB₁.eval_getD hr hσ]
    · intro k hk hkeep
      have hr := reverseBits_lt p k
      rw [hc1 k hk, (hpairs.eval σ hσ _ hr).2 (reverseBits_lt_half hkeep),
        hA₁.eval_getD hr hσ, hB₁.eval_getD hr hσ]
  have hrounds := wp_foldlM_range (E := E) (b := (false, c, s₁.2)) (s := t₁) (m := p)
    (f := fun s level => (List.range (2 * 2 ^ p / (4 * 2 ^ level))).foldlM
      (fun (s : Bool × (ℕ → Lit) × CardinalityNetworkBuilder) k => do
        let oc := s.1 || decide (4 * 2 ^ level = 2 * 2 ^ p)
        let r ← sMergeBlock true true (4 * 2 ^ level) (4 * 2 ^ level * k) oc s.2
        pure (!oc, r)) s)
    (fun q s t' => s.1 = false ∧ Trace.Defining t t' ∧ Ready base s.2.2 t' ∧
      KnownBlocks p q s.2.1 t'.numVars ∧
      ∀ σ, t'.Models σ → SelectBlocks (a σ) (a' σ) p q fun x => (s.2.1 x).eval σ)
    ⟨rfl, hcons₁, hready₁, hcknown, hzero⟩
    (fun q hq s t₂ hI => by
      obtain ⟨oc, c₂, b₂⟩ := s
      obtain ⟨hoc, hcons₂, hready₂, hknown₂, hblocks₂⟩ := hI
      obtain rfl : oc = false := hoc
      apply wp_imp (wp_sMergeRound hq hcons₂.wellScoped hready₂ hknown₂ hblocks₂)
      rintro s' t₃ ⟨hoc₃, hcons₃, h₃⟩
      exact ⟨hoc₃, hcons₂.trans hcons₃, h₃⟩)
  apply wp_imp hrounds
  rintro s t₂ ⟨-, hcons₂, hready₂, hknown₂, hblocks₂⟩
  rw [wp_pure]
  refine ⟨hcons₂, hready₂, ?_, ?_, ?_⟩
  · rw [List.length_map, List.length_range]
  · intro l hl
    obtain ⟨x, hx, rfl⟩ := List.mem_map.mp hl
    have hknown := hknown₂ 0 (Nat.two_pow_pos _) x
      (by rw [topLength_last]; exact List.mem_range.mp hx)
    rwa [Nat.mul_zero, Nat.zero_add] at hknown
  · intro σ hσ
    have hsorted := (hblocks₂ σ hσ).topBlock.sortedBlock
    refine ⟨hsorted.le, ?_⟩
    intro j hj
    rw [← hsorted.apply j hj]
    dsimp only
    rw [Nat.zero_add, List.getD_eq_getElem?_getD, List.getElem?_map, List.getElem?_range hj]
    exact rfl

end Merge

/-! ## Counting up to the block length -/

theorem SortedOutput.congr {out : List Lit} {len : ℕ} {a a' : (ℕ → Bool) → ℕ}
    (h : SortedOutput t out len a) (heq : ∀ σ, t.Models σ → a σ = a' σ) :
    SortedOutput t out len a' :=
  ⟨h.length_eq, h.known, fun σ hσ => heq σ hσ ▸ h.sorted σ hσ⟩

/-- `Card` on a number of blocks. -/
theorem wp_card {A : List Lit} {p : ℕ} (blocks fuel l : ℕ) (hblocks : blocks < fuel)
    (ht : t.Scoped) (hb : Ready base b t) (hA : ∀ x ∈ A, x.Valid t.numVars)
    (hl : l + (blocks + 1) * 2 ^ (p + 1) ≤ A.length) :
    wp (card true true A (2 ^ (p + 1)) fuel b l (l + (blocks + 1) * 2 ^ (p + 1) - 1))
      (fun r t' => Trace.Defining t t' ∧ Ready base r.2 t' ∧
        SortedOutput t' r.1 (2 ^ (p + 1)) fun σ =>
          min (countTrue σ ((A.drop l).take ((blocks + 1) * 2 ^ (p + 1)))) (2 ^ (p + 1)))
      E t := by
  set N := 2 ^ (p + 1) with hN
  have hNpos : 0 < N := Nat.two_pow_pos (p + 1)
  -- A single block is sorted.
  have hblock : ∀ fuel l b t, t.Scoped → Ready base b t → (∀ x ∈ A, x.Valid t.numVars) →
      l + N ≤ A.length → wp (card true true A N (fuel + 1) b l (l + N - 1))
        (fun r t' => Trace.Defining t t' ∧ Ready base r.2 t' ∧
          SortedOutput t' r.1 N fun σ => min (countTrue σ ((A.drop l).take N)) N) E t := by
    intro fuel l b t ht hb hA hl
    apply wp_imp (wp_card_block fuel l ht hb hA hl)
    rintro r t' ⟨hcons, hready, hsorted⟩
    refine ⟨hcons, hready, hsorted.congr ?_⟩
    intro σ hσ
    exact (min_eq_left (hsorted.sorted σ hσ).le).symm
  induction blocks generalizing fuel l b t with
  | zero =>
      obtain ⟨fuel, rfl⟩ := Nat.exists_eq_add_of_lt hblocks
      rw [Nat.zero_add, Nat.one_mul] at hl ⊢
      exact hblock fuel l b t ht hb hA hl
  | succ blocks ih =>
      obtain ⟨fuel, rfl⟩ : ∃ f, fuel = f + 2 := ⟨fuel - 2, by omega⟩
      have hsplit : (blocks + 1 + 1) * N = N + (blocks + 1) * N := by ring
      have hpos : 0 < (blocks + 1) * N := Nat.mul_pos (Nat.succ_pos blocks) hNpos
      rw [hsplit] at hl ⊢
      have hlen : l + (N + (blocks + 1) * N) - 1 + 1 - l = N + (blocks + 1) * N := by omega
      have hend : l + (N + (blocks + 1) * N) - 1 = l + N + (blocks + 1) * N - 1 := by omega
      rw [card, hlen, wp_bind]
      apply wp_assert_of
      · apply decide_eq_true
        rw [Nat.add_mul_mod_self_right, Nat.mod_self]
      rw [if_neg (by omega), wp_bind]
      apply wp_imp (hblock fuel l b t ht hb hA (by omega))
      rintro x t₁ ⟨hcons₁, hready₁, hsorted₁⟩
      rw [wp_bind, hend]
      apply wp_imp (ih (fuel + 1) (l + N) (by omega) hcons₁.wellScoped hready₁
        (fun x hx => hcons₁.toGrows.valid (hA x hx)) (by omega))
      rintro y t₂ ⟨hcons₂, hready₂, hsorted₂⟩
      rw [wp_bind]
      apply wp_assert_of
      · rw [hsorted₁.length_eq, hsorted₂.length_eq, decide_eq_true rfl]
        exact rfl
      apply wp_imp (wp_sMerge hcons₂.wellScoped hready₂
        (hsorted₁.grows hcons₂.toGrows).sortedInput hsorted₂.sortedInput)
      rintro r t₃ ⟨hcons₃, hready₃, hsorted₃⟩
      refine ⟨(hcons₁.trans hcons₂).trans hcons₃, hready₃, hsorted₃.congr ?_⟩
      intro σ _
      rw [List.take_add, List.drop_drop, countTrue_append]
      omega

/-! ## The constraint -/

theorem countTrue_neg {N : ℕ} {input : List Lit} (hinput : ∀ l ∈ input, l.Valid N)
    (σ : ℕ → Bool) :
    countTrue σ (input.map fun l => -l) + countTrue σ input = input.length := by
  induction input with
  | nil => rfl
  | cons l input ih =>
      have hl := hinput l List.mem_cons_self
      have ih := ih fun l hl => hinput l (List.mem_cons_of_mem _ hl)
      rw [countTrue, countTrue] at ih ⊢
      rw [List.map_cons, List.countP_cons, List.countP_cons, hl.eval_neg, List.length_cons]
      cases l.eval σ with
      | false =>
          simp only [Bool.not_false, if_true, Bool.false_eq_true, if_false]
          omega
      | true =>
          simp only [Bool.not_true, if_true, Bool.false_eq_true, if_false]
          omega

/-- The inputs and the number of true ones that `AddEqual` counts: at most half of the
inputs, after complementing them if necessary. -/
structure Halved (N : ℕ) (input : List Lit) (k : ℕ) (r : List Lit × ℕ) : Prop where
  length_eq : r.1.length = input.length
  valid : ∀ l ∈ r.1, l.Valid N
  pos : 0 < r.2
  two_mul_le : 2 * r.2 ≤ input.length
  count_iff : ∀ σ, countTrue σ r.1 = r.2 ↔ countTrue σ input = k

theorem halved {N : ℕ} {input : List Lit} {k : ℕ} (hk : 0 < k) (hkn : k < input.length)
    (hinput : ∀ l ∈ input, l.Valid N) :
    Halved N input k (if input.length - k < k then
      (input.map fun lit => -lit, input.length - k) else (input, k)) := by
  by_cases hlt : input.length - k < k
  · rw [if_pos hlt]
    constructor
    · exact List.length_map _
    · intro l hl
      obtain ⟨x, hx, rfl⟩ := List.mem_map.mp hl
      exact Lit.valid_neg.mpr (hinput x hx)
    · exact Nat.sub_pos_of_lt hkn
    · dsimp only
      omega
    · intro σ
      have hcount := countTrue_neg hinput σ
      dsimp only
      omega
  · rw [if_neg hlt]
    exact ⟨rfl, hinput, hk, by dsimp only; omega, fun _ => Iff.rfl⟩

/-- The size of the blocks that `AddEqual` sorts. -/
theorem exists_blockSize {k : ℕ} (hk : 0 < k) :
    ∃ p, k.size = p + 1 ∧ k < 2 ^ (p + 1) ∧ 2 ^ (p + 1) ≤ 2 * k := by
  obtain ⟨p, hp⟩ := Nat.exists_eq_succ_of_ne_zero (Nat.size_pos.mpr hk).ne'
  refine ⟨p, hp, ?_, ?_⟩
  · rw [← Nat.succ_eq_add_one, ← hp]
    exact Nat.lt_size_self k
  · have hle : 2 ^ p ≤ k := Nat.lt_size.mp (by omega)
    rw [pow_succ]
    omega

/-- The padded input is a number of blocks. -/
theorem exists_blocks {n m : ℕ} (hm : 0 < m) (hle : m ≤ n) :
    ∃ blocks, n + (m - n % m) % m = (blocks + 1) * m := by
  have hdiv := Nat.div_add_mod n m
  have hlt := Nat.mod_lt n hm
  by_cases hzero : n % m = 0
  · obtain ⟨blocks, hblocks⟩ := Nat.exists_eq_succ_of_ne_zero (Nat.div_pos hle hm).ne'
    refine ⟨blocks, ?_⟩
    rw [hzero, hblocks, Nat.add_zero] at hdiv
    rw [hzero, Nat.sub_zero, Nat.mod_self, Nat.add_zero, ← hdiv, Nat.mul_comm]
  · refine ⟨n / m, ?_⟩
    rw [Nat.mod_eq_of_lt (by omega), Nat.succ_mul, Nat.mul_comm]
    omega

/-- What `AddEqual` adds: variables that the clauses define, and clauses that hold when
`k` inputs are true. -/
theorem wp_addEqual (ht : t.Scoped) (hb : Settled b t) {input : List Lit} {k : ℕ}
    (hk : 0 < k) (hkn : k < input.length) (hinput : ∀ l ∈ input, l.Valid t.numVars) :
    wp (b.addEqual input k)
      (fun b' t' => Settled b' t' ∧ t'.Scoped ∧ ∃ t₂, Trace.Defining t t₂ ∧
        ∀ σ, t'.Models σ ↔ t₂.Models σ ∧ countTrue σ input = k) E t := by
  have hr := halved hk hkn hinput
  rw [addEqual, wp_bind]
  apply wp_assert_of
  · rw [decide_eq_true hk, decide_eq_true hkn]
    exact rfl
  dsimp only
  generalize (if input.length - k < k then
    (input.map fun lit => -lit, input.length - k) else (input, k)) = r at hr ⊢
  obtain ⟨p, hsize, hlt, hle⟩ := exists_blockSize hr.pos
  have hNpos := Nat.two_pow_pos (p + 1)
  rw [hsize, wp_bind]
  set N := 2 ^ (p + 1) with hN
  apply wp_imp (wp_pad ht hb.ready hr.valid _)
  rintro s t₁ ⟨hcons₁, hready₁, hlen₁, hvalid₁, hcount₁⟩
  obtain ⟨blocks, hblocks⟩ := exists_blocks hNpos (hle.trans (hr.two_mul_le.trans hr.length_eq.ge))
  rw [hblocks] at hlen₁
  have hfuel : blocks < s.1.length := by
    rw [hlen₁]
    exact Nat.lt_of_lt_of_le (Nat.lt_succ_self blocks) (Nat.le_mul_of_pos_right _ hNpos)
  have hcard := wp_card (E := E) (p := p) blocks s.1.length 0 hfuel hcons₁.wellScoped hready₁
    hvalid₁ (by rw [Nat.zero_add, ← hN, hlen₁])
  rw [← hN, Nat.zero_add, ← hlen₁] at hcard
  rw [wp_bind]
  apply wp_imp hcard
  rintro out t₂ ⟨hcons₂, hready₂, hsorted⟩
  rw [List.drop_zero, List.take_of_length_le le_rfl] at hsorted
  have hlow := (hsorted.known_getD (i := r.2 - 1) (by omega)).valid
  have hhigh := (hsorted.known_getD (i := r.2) hlt).valid
  have hclause : ∀ l ∈ [out.1.getD (r.2 - 1) .undef], l.Valid t₂.numVars := by
    intro l hl
    obtain rfl := List.mem_singleton.mp hl
    exact hlow
  have hclause' : ∀ l ∈ [-(out.1.getD r.2 .undef)], l.Valid t₂.numVars := by
    intro l hl
    obtain rfl := List.mem_singleton.mp hl
    exact Lit.valid_neg.mpr hhigh
  rw [wp_bind]
  apply wp_addClause hclause
  rw [wp_bind]
  apply wp_addClause (by rw [Trace.numVars_addClause]; exact hclause')
  rw [wp_pure]
  refine ⟨⟨hready₂.addVars_eq.1, hready₂.settled.le⟩,
    (hcons₂.wellScoped.addClause hclause).addClause hclause', t₂, hcons₁.trans hcons₂, ?_⟩
  intro σ
  rw [Trace.models_addClause, Trace.models_addClause, holds_singleton, holds_singleton,
    hhigh.eval_neg]
  have hiff : t₂.Models σ → ((!(out.1.getD r.2 .undef).eval σ) = true ∧
      (out.1.getD (r.2 - 1) .undef).eval σ = true ↔ countTrue σ input = k) := by
    intro hσ
    have hpos := hr.pos
    rw [hsorted.eval_getD hlt hσ, hsorted.eval_getD (by omega) hσ,
      hcount₁ σ (hcons₂.models σ hσ), Bool.not_eq_true', decide_eq_false_iff_not,
      decide_eq_true_eq, ← hr.count_iff σ]
    omega
  constructor
  · rintro ⟨hnot, hyes, hσ⟩
    exact ⟨hσ, (hiff hσ).mp ⟨hnot, hyes⟩⟩
  · rintro ⟨hσ, hcount⟩
    obtain ⟨hnot, hyes⟩ := (hiff hσ).mpr hcount
    exact ⟨hnot, hyes, hσ⟩

/-- `AddEqual` on any list of literals and any `k` between returns, so it never reads an
entry that was not written, and an assignment that the clauses before it allow extends to
its variables exactly when it makes `k` inputs true. -/
theorem addEqual_exact (ht : t.Scoped) (hb : Settled b t) {input : List Lit} {k : ℕ}
    (hk : 0 < k) (hkn : k < input.length) (hinput : ∀ l ∈ input, l.Valid t.numVars) :
    ∃ b' t', b.addEqual input k t = (some b', t') ∧ Settled b' t' ∧ t'.Scoped ∧
      ∀ σ, t.Models σ →
        ((∃ σ', AgreeBelow t.numVars σ σ' ∧ t'.Models σ') ↔ countTrue σ input = k) := by
  have hrun := wp_addEqual (E := fun _ => False) ht hb hk hkn hinput
  obtain ⟨b', t', hrun', hsettled, hscoped, t₂, hdef, hmodels⟩ := exists_of_wp hrun
  refine ⟨b', t', hrun', hsettled, hscoped, ?_⟩
  intro σ hσ
  constructor
  · rintro ⟨σ', hagree, hσ'⟩
    rw [← countTrue_congr hinput hagree]
    exact ((hmodels σ').mp hσ').2
  · intro hcount
    obtain ⟨σ', hagree, hσ'⟩ := hdef.extend σ hσ
    refine ⟨σ', hagree, (hmodels σ').mpr ⟨hσ', ?_⟩⟩
    rw [countTrue_congr hinput hagree]
    exact hcount

/-- Two of three literals, one of them constant: the inputs are complemented, padded and
merged. -/
theorem addEqual_exact_three :
    ∃ b' t', init.addEqual [.var true 0, .var false 1, .trueLit] 2 [.newVar, .newVar] =
        (some b', t') ∧
      ∀ σ, (∃ σ', AgreeBelow 2 σ σ' ∧ t'.Models σ') ↔
        countTrue σ [.var true 0, .var false 1, .trueLit] = 2 := by
  have hscoped : Trace.Scoped [.newVar, .newVar] := by
    simp [Trace.Scoped, Trace.clauses]
  have hvalid : ∀ l ∈ [Lit.var true 0, .var false 1, .trueLit],
      l.Valid (Trace.numVars [.newVar, .newVar]) := by
    simp [Trace.numVars]
  obtain ⟨b', t', hrun, -, -, hcount⟩ :=
    addEqual_exact (k := 2) hscoped (settled_init _) (by decide) (by decide) hvalid
  refine ⟨b', t', hrun, ?_⟩
  intro σ
  apply hcount
  simp [Trace.Models, Trace.clauses]

end CardinalityNetworkBuilder

end Triangulator
