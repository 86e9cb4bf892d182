import Triangulator.Model.Cardinality
import Triangulator.Verification.EqualNetwork

/-!
# The totalizer

A node of the totalizer counts the true inputs of a range.  In every model an
output below the size built so far is true when enough inputs are, and the values
that count exactly are extended by every step that builds more.
-/

namespace Triangulator

open AbortM CardinalityNetworkBuilder

namespace TotalizerBuilder

variable {t t' : Trace} {tb tb' : TotalizerBuilder} {E : Trace → Prop}

/-! ## Nodes -/

/-- `j` is a node of the subtree of `i`. -/
def Under (i j : ℕ) : Prop :=
  ∃ d, j / 2 ^ d = i

theorem Under.refl (i : ℕ) : Under i i :=
  ⟨0, by simp⟩

theorem Under.of_left {i j : ℕ} (h : Under (i * 2) j) : Under i j := by
  obtain ⟨d, hd⟩ := h
  exact ⟨d + 1, by rw [pow_succ, ← Nat.div_div_eq_div_mul, hd]; omega⟩

theorem Under.of_right {i j : ℕ} (h : Under (i * 2 + 1) j) : Under i j := by
  obtain ⟨d, hd⟩ := h
  exact ⟨d + 1, by rw [pow_succ, ← Nat.div_div_eq_div_mul, hd]; omega⟩

theorem Under.le {i j : ℕ} (h : Under i j) : i ≤ j := by
  obtain ⟨d, rfl⟩ := h
  exact Nat.div_le_self _ _

theorem div_two_pow_le_half {a k : ℕ} (hk : 0 < k) : a / 2 ^ k ≤ a / 2 := by
  apply Nat.div_le_div_left _ Nat.two_pos
  calc 2 = 2 ^ 1 := rfl
    _ ≤ 2 ^ k := Nat.pow_le_pow_right Nat.two_pos hk

/-- The two subtrees below a node have no common node. -/
theorem Under.not_both {i j : ℕ} (hi : 1 ≤ i) (h : Under (i * 2) j)
    (h' : Under (i * 2 + 1) j) : False := by
  obtain ⟨d, hd⟩ := h
  obtain ⟨e, he⟩ := h'
  rcases lt_trichotomy d e with hde | rfl | hde
  · obtain ⟨k, rfl⟩ := Nat.exists_eq_add_of_lt hde
    rw [Nat.add_assoc, pow_add, ← Nat.div_div_eq_div_mul, hd] at he
    have := div_two_pow_le_half (a := i * 2) (show 0 < k + 1 by omega)
    omega
  · omega
  · obtain ⟨k, rfl⟩ := Nat.exists_eq_add_of_lt hde
    rw [Nat.add_assoc, pow_add, ← Nat.div_div_eq_div_mul, he] at hd
    have := div_two_pow_le_half (a := i * 2 + 1) (show 0 < k + 1 by omega)
    omega

/-- All nodes below `i`, which counts the inputs from `l` to `r`, have a
property. -/
def AllNodes (P : ℕ → ℕ → ℕ → Prop) : ℕ → ℕ → ℕ → ℕ → Prop
  | 0, _, _, _ => True
  | fuel + 1, i, l, r => P i l r ∧ (l ≠ r →
      AllNodes P fuel (i * 2) l ((l + r) / 2) ∧
      AllNodes P fuel (i * 2 + 1) ((l + r) / 2 + 1) r)

/-- A property that passes from `P` to `P'` at the nodes of a subtree. -/
theorem AllNodes.imp {P P' : ℕ → ℕ → ℕ → Prop} {fuel i l r : ℕ} {m : ℕ}
    (h : AllNodes P fuel i l r) (hlr : l ≤ r) (hr : r < m)
    (himp : ∀ j l' r', Under i j → l' ≤ r' → r' < m → P j l' r' → P' j l' r') :
    AllNodes P' fuel i l r := by
  induction fuel generalizing i l r with
  | zero => trivial
  | succ fuel ih =>
      refine ⟨himp i l r (Under.refl i) hlr hr h.1, fun hne => ?_⟩
      obtain ⟨hleft, hright⟩ := h.2 hne
      refine ⟨ih hleft (by omega) (by omega) fun j l' r' hj => himp j l' r' hj.of_left,
        ih hright (by omega) hr fun j l' r' hj => himp j l' r' hj.of_right⟩

theorem AllNodes.and {P P' : ℕ → ℕ → ℕ → Prop} {fuel i l r : ℕ}
    (h : AllNodes P fuel i l r) (h' : AllNodes P' fuel i l r) :
    AllNodes (fun j l' r' => P j l' r' ∧ P' j l' r') fuel i l r := by
  induction fuel generalizing i l r with
  | zero => trivial
  | succ fuel ih =>
      refine ⟨⟨h.1, h'.1⟩, fun hne => ?_⟩
      exact ⟨ih (h.2 hne).1 (h'.2 hne).1, ih (h.2 hne).2 (h'.2 hne).2⟩

/-- The number of true inputs from `l` to `r`. -/
def countIn (σ : ℕ → Bool) (input : List Lit) (l r : ℕ) : ℕ :=
  countTrue σ ((input.drop l).take (r + 1 - l))

theorem countIn_self {σ : ℕ → Bool} {input : List Lit} {l : ℕ} (hl : l < input.length) :
    countIn σ input l l = if (input.getD l .undef).eval σ then 1 else 0 := by
  rw [countIn, Nat.add_sub_cancel_left, List.take_one_drop_eq_of_lt_length hl,
    List.getD_eq_getElem _ _ hl, countTrue, List.countP_singleton]
  rfl

theorem countIn_split {σ : ℕ → Bool} {input : List Lit} {l r m : ℕ} (hlm : l ≤ m)
    (hmr : m < r) :
    countIn σ input l r = countIn σ input l m + countIn σ input (m + 1) r := by
  have h : r + 1 - l = (m + 1 - l) + (r + 1 - (m + 1)) := by omega
  rw [countIn, h, List.take_add, countTrue_append, List.drop_drop, countIn, countIn,
    show l + (m + 1 - l) = m + 1 by omega]

theorem countIn_le (σ : ℕ → Bool) (input : List Lit) (l r : ℕ) :
    countIn σ input l r ≤ r + 1 - l :=
  List.countP_le_length.trans (by rw [List.length_take]; exact min_le_left _ _)

theorem AgreeBelow.countIn {σ σ' : ℕ → Bool} {N l r : ℕ} {input : List Lit}
    (h : AgreeBelow N σ σ') (hv : ∀ x ∈ input, x.Valid N) :
    countIn σ' input l r = countIn σ input l r :=
  List.countP_congr fun x hx => by
    rw [h.eval (hv x (List.mem_of_mem_drop (List.mem_of_mem_take hx)))]

/-! ## Invariants -/

/-- What is stored at a node when the outputs below `c` are built: the literals,
and that an output is true in every model with enough true inputs. -/
structure NodeInv (tb : TotalizerBuilder) (t : Trace) (c i l r : ℕ) : Prop where
  leaf : l = r → tb.nLits i = if c = 0 then [] else [.trueLit, tb.input.getD l .undef]
  length_eq : l ≠ r → (tb.nLits i).length = if i = 1 then r + 2 - l else min c (r + 2 - l)
  valid : ∀ x ∈ tb.nLits i, x.Valid t.numVars
  zero : 0 < (tb.nLits i).length → (tb.nLits i).getD 0 .undef = .trueLit
  sound : ∀ σ, t.Models σ → ∀ x < c, x < (tb.nLits i).length →
    x ≤ countIn σ tb.input l r → ((tb.nLits i).getD x .undef).eval σ = true

/-- The literals of a node count its inputs; those of the root are the first `k`
ones. -/
def Exact (tb : TotalizerBuilder) (σ : ℕ → Bool) (k i l r : ℕ) : Prop :=
  ∀ x < (tb.nLits i).length, ((tb.nLits i).getD x .undef).eval σ =
    decide (x ≤ if i = 1 then k else countIn σ tb.input l r)

/-- A node is not affected by a change elsewhere. -/
theorem NodeInv.congr {c i l r : ℕ} (h : NodeInv tb t c i l r) (ht : Trace.Grows t t')
    (hlits : tb'.nLits i = tb.nLits i) (hinput : tb'.input = tb.input) :
    NodeInv tb' t' c i l r := by
  refine ⟨?_, ?_, ?_, ?_, ?_⟩
  · rw [hlits, hinput]
    exact h.leaf
  · rw [hlits]
    exact h.length_eq
  · rw [hlits]
    exact fun x hx => ht.valid (h.valid x hx)
  · rw [hlits]
    exact h.zero
  · rw [hlits, hinput]
    exact fun σ hσ => h.sound σ (ht.models σ hσ)

theorem Exact.congr {σ σ' : ℕ → Bool} {N k i l r : ℕ} (h : Exact tb σ k i l r)
    (hagree : AgreeBelow N σ σ') (hvalid : ∀ x ∈ tb.nLits i, x.Valid N)
    (hinput : ∀ x ∈ tb.input, x.Valid N) (hlits : tb'.nLits i = tb.nLits i)
    (hinput' : tb'.input = tb.input) : Exact tb' σ' k i l r := by
  intro x hx
  rw [hlits] at hx ⊢
  rw [hinput', AgreeBelow.countIn hagree hinput, ← h x hx]
  apply hagree.eval
  rw [List.getD_eq_getElem _ _ hx]
  exact hvalid _ (List.getElem_mem hx)

/-! ## Building a node -/

/-- The literal that `buildNode` adds below the root. -/
theorem push_nLits (tb : TotalizerBuilder) (i : ℕ) (l : Lit) (j : ℕ) :
    (tb.push i l).nLits j = if j = i then tb.nLits i ++ [l] else tb.nLits j := by
  simp only [push, Function.update_apply]

/-- The clauses for the output `x` of a node. -/
theorem emits_outputClauses {N : ℕ} {L R T : List Lit} {x : ℕ}
    (hL : ∀ y ∈ L, y.Valid N) (hR : ∀ y ∈ R, y.Valid N) (hT : ∀ y ∈ T, y.Valid N)
    (hx : x < T.length) :
    Emits N (outputClauses L R T x)
      fun σ => ∀ a ≤ x, a < L.length → x - a < R.length →
        (L.getD a .undef).eval σ = true → (R.getD (x - a) .undef).eval σ = true →
        (T.getD x .undef).eval σ = true := by
  have hget : ∀ {l : List Lit} {y : ℕ}, (∀ z ∈ l, z.Valid N) → y < l.length →
      (l.getD y .undef).Valid N := fun hl hy => by
    rw [List.getD_eq_getElem _ _ hy]
    exact hl _ (List.getElem_mem hy)
  have hloop := Emits.forM (N := N) (l := List.range (x + 1))
    (f := fun a => when (a < L.length ∧ x - a < R.length)
      (addClause [-L.getD a .undef, -R.getD (x - a) .undef, T.getD x .undef]))
    fun a _ => Emits.when fun h => Emits.addClause (by
      simp only [List.mem_cons, List.not_mem_nil, or_false, forall_eq_or_imp, forall_eq,
        Lit.valid_neg]
      exact ⟨hget hL h.1, hget hR h.2, hget hT hx⟩)
  apply hloop.congr
  intro σ
  constructor
  · intro h a ha haL haR hLa hRa
    have hc := h a (List.mem_range.mpr (Nat.lt_succ_of_le ha)) ⟨haL, haR⟩
    rw [holds_cons, holds_cons, holds_singleton, (hget hL haL).eval_neg,
      (hget hR haR).eval_neg, hLa, hRa] at hc
    exact (hc.resolve_left Bool.false_ne_true).resolve_left Bool.false_ne_true
  · intro h a ha hcond
    have hax := Nat.le_of_lt_succ (List.mem_range.mp ha)
    simp only [holds_cons, not_holds_nil, or_false, (hget hL hcond.1).eval_neg,
      (hget hR hcond.2).eval_neg, Bool.not_eq_true']
    cases hLa : (L.getD a .undef).eval σ with
    | false => exact Or.inl rfl
    | true =>
        cases hRa : (R.getD (x - a) .undef).eval σ with
        | false => exact Or.inr (Or.inl rfl)
        | true => exact Or.inr (Or.inr (h a hax hcond.1 hcond.2 hLa hRa))

/-- The state between the outputs of a node: those below `x` are built, and the
children are complete below `c`. -/
structure Between (tb : TotalizerBuilder) (t : Trace) (c x i l r : ℕ) : Prop where
  length_eq : (tb.nLits i).length = if i = 1 then r + 2 - l else x
  valid : ∀ y ∈ tb.nLits i, y.Valid t.numVars
  zero : 0 < (tb.nLits i).length → (tb.nLits i).getD 0 .undef = .trueLit
  sound : ∀ σ, t.Models σ → ∀ y < x, y ≤ countIn σ tb.input l r →
    ((tb.nLits i).getD y .undef).eval σ = true
  left : NodeInv tb t c (i * 2) l ((l + r) / 2)
  right : NodeInv tb t c (i * 2 + 1) ((l + r) / 2 + 1) r

/-- The outputs of a complete node. -/
theorem NodeInv.length_ge {c i l r x : ℕ} (h : NodeInv tb t c i l r) (hi : i ≠ 1)
    (hlr : l ≤ r) (hxc : x < c) (hx : x ≤ r + 1 - l) : x < (tb.nLits i).length := by
  by_cases hne : l = r
  · rw [h.leaf hne, if_neg (by omega)]
    change x < 2
    omega
  · rw [h.length_eq hne, if_neg hi]
    omega

/-- How an output of a node relates to the state before it was built. -/
structure NodeStep (tb tb' : TotalizerBuilder) (t t' : Trace) (i l r : ℕ) : Prop where
  curSize_eq : tb'.curSize = tb.curSize
  input_eq : tb'.input = tb.input
  frame : ∀ j, (j ≠ i ∨ i = 1) → tb'.nLits j = tb.nLits j
  grows : Trace.Grows t t'
  extend : ∀ σ k, t.Models σ → Exact tb σ k i l r →
    Exact tb σ k (i * 2) l ((l + r) / 2) → Exact tb σ k (i * 2 + 1) ((l + r) / 2 + 1) r →
    (i = 1 → countIn σ tb.input l r ≤ k) →
    ∃ σ', AgreeBelow t.numVars σ σ' ∧ t'.Models σ' ∧ Exact tb' σ' k i l r

theorem NodeStep.refl {i l r : ℕ} (ht : t.Scoped) : NodeStep tb tb t t i l r :=
  ⟨rfl, rfl, fun _ _ => rfl, Trace.Grows.refl ht,
    fun σ _ hσ h _ _ _ => ⟨σ, AgreeBelow.refl _ σ, hσ, h⟩⟩

/-- The state after the literal for the output `x` of a node was stored. -/
structure Stored (tb tb' : TotalizerBuilder) (t t' : Trace) (x i l r : ℕ) : Prop where
  curSize_eq : tb'.curSize = tb.curSize
  input_eq : tb'.input = tb.input
  frame : ∀ j, (j ≠ i ∨ i = 1) → tb'.nLits j = tb.nLits j
  grows : Trace.Grows t t'
  models : ∀ σ, t'.Models σ ↔ t.Models σ
  length_eq : (tb'.nLits i).length = if i = 1 then r + 2 - l else x + 1
  valid : ∀ y ∈ tb'.nLits i, y.Valid t'.numVars
  zero : (tb'.nLits i).getD 0 .undef = .trueLit
  same : ∀ y < x, (tb'.nLits i).getD y .undef = (tb.nLits i).getD y .undef
  extend : ∀ σ k, t.Models σ → Exact tb σ k i l r →
    ∃ σ', AgreeBelow t.numVars σ σ' ∧ t'.Models σ' ∧ Exact tb' σ' k i l r

/-- The literal for the output `x`: an old one at the root and a new one at the other
nodes. -/
theorem wp_storeOutput {c i l r x : ℕ} (ht : t.Scoped) (hlr : l < r)
    (hinput : ∀ y ∈ tb.input, y.Valid t.numVars) (hx : x ≤ r + 1 - l)
    (h : Between tb t c x i l r) :
    wp (tb.storeOutput i x) (fun tb' t' => Stored tb tb' t t' x i l r) E t := by
  by_cases hi1 : i = 1
  · have hlen := h.length_eq
    rw [if_pos hi1] at hlen
    rw [storeOutput, if_pos hi1, wp_bind]
    apply wp_assert_of (decide_eq_true (by omega))
    rw [wp_pure]
    exact ⟨rfl, rfl, fun _ _ => rfl, Trace.Grows.refl ht, fun _ => Iff.rfl,
      hlen.trans (if_pos hi1).symm, h.valid,
      h.zero (by omega), fun _ _ => rfl,
      fun σ k hσ he => ⟨σ, AgreeBelow.refl _ σ, hσ, he⟩⟩
  · have hlen := h.length_eq
    rw [if_neg hi1] at hlen
    have hframe : ∀ v j, (j ≠ i ∨ i = 1) → (tb.push i v).nLits j = tb.nLits j :=
      fun v j hj => by rw [push_nLits, if_neg (hj.resolve_right hi1)]
    have hself : ∀ v, (tb.push i v).nLits i = tb.nLits i ++ [v] := fun v => by
      rw [push_nLits, if_pos rfl]
    have hgetx : ∀ v, (tb.nLits i ++ [v]).getD x .undef = v := fun v => by
      rw [List.getD_append_right _ _ _ _ hlen.le, hlen, Nat.sub_self]
      rfl
    have hgety : ∀ v, ∀ y < x, (tb.nLits i ++ [v]).getD y .undef =
        (tb.nLits i).getD y .undef := fun v y hy =>
      List.getD_append _ _ _ _ (hlen ▸ hy)
    rw [storeOutput, if_neg hi1, wp_bind, pushOutput]
    by_cases hx0 : x = 0
    · have hnil : tb.nLits i = [] := List.length_eq_zero_iff.mp (hlen.trans hx0)
      rw [if_pos hx0, wp_pure, wp_bind, hself]
      apply wp_assert_of (decide_eq_true (by rw [List.length_append, hlen]; rfl))
      rw [wp_pure]
      refine ⟨rfl, rfl, hframe _, Trace.Grows.refl ht, fun _ => Iff.rfl,
        by rw [hself, if_neg hi1, List.length_append, hlen]; rfl, by simp [hself, hnil], by simp [hself, hnil],
        fun y hy => by rw [hself, hgety _ y hy], fun σ k hσ he => ⟨σ, AgreeBelow.refl _ σ, hσ, fun y hy => ?_⟩⟩
      rw [hself, hnil] at hy ⊢
      obtain rfl : y = 0 := by simpa using hy
      simp
    · rw [if_neg hx0, wp_bind, wp_newVar, wp_bind]
      apply wp_freezeVar (Nat.lt_succ_self _)
      rw [wp_pure, wp_bind, hself]
      apply wp_assert_of (decide_eq_true (by rw [List.length_append, hlen]; rfl))
      rw [wp_pure]
      have hgrow : Trace.Grows t (.freezeVar (.var true t.numVars) :: .newVar :: t) :=
        (Trace.Grows.refl ht).newVar.freezeVar _
      refine ⟨rfl, rfl, hframe _, hgrow, fun _ => Iff.rfl,
        by rw [hself, if_neg hi1, List.length_append, hlen]; rfl, fun y hy => ?_, ?_, fun y hy => by rw [hself, hgety _ y hy],
        fun σ k hσ he => ⟨Function.update σ t.numVars
          (decide (x ≤ countIn σ tb.input l r)), AgreeBelow.update _ _ _,
          hσ.update ht _, fun y hy => ?_⟩⟩
      · rw [hself] at hy
        rcases List.mem_append.mp hy with hy | hy
        · exact hgrow.valid (h.valid y hy)
        · obtain rfl := List.mem_singleton.mp hy
          exact Nat.lt_succ_self _
      · rw [hself, hgety _ 0 (Nat.pos_of_ne_zero hx0)]
        exact h.zero (by omega)
      · have hagree := AgreeBelow.update t.numVars σ
          (decide (x ≤ countIn σ tb.input l r))
        rw [hself, List.length_append, hlen] at hy
        rw [hself, if_neg hi1]
        change _ = decide (y ≤ countIn _ tb.input l r)
        rw [AgreeBelow.countIn hagree hinput]
        rcases Nat.lt_succ_iff_lt_or_eq.mp hy with hy | rfl
        · have hylen : y < (tb.nLits i).length := by omega
          have hey := he y hylen
          rw [if_neg hi1] at hey
          rw [hgety _ y hy, ← hey]
          apply hagree.eval
          rw [List.getD_eq_getElem _ _ hylen]
          exact h.valid _ (List.getElem_mem hylen)
        · rw [hgetx, Lit.eval_var_true, Function.update_self]

/-- `buildNode` for the output `x`. -/
theorem wp_buildNode {c i l r x : ℕ} (ht : t.Scoped) (hi : 1 ≤ i) (hlr : l < r)
    (hinput : ∀ y ∈ tb.input, y.Valid t.numVars) (hxc : x < c) (hx : x ≤ r + 1 - l)
    (h : Between tb t c x i l r) :
    wp (buildNode i (i * 2) (i * 2 + 1) x tb)
      (fun tb' t' => NodeStep tb tb' t t' i l r ∧ Between tb' t' c (x + 1) i l r) E t := by
  have hlm : l ≤ (l + r) / 2 := by omega
  have hmr : (l + r) / 2 < r := by omega
  rw [buildNode, wp_bind]
  apply wp_assert_of (by simp; omega)
  rw [wp_bind]
  apply wp_imp (wp_storeOutput ht hlr hinput hx h)
  rintro tb₁ t₁ ⟨hcur, hin, hframe, hgrow, hmod, hlen, hvalid, hzero, hsame, hext⟩
  have hL : tb₁.nLits (i * 2) = tb.nLits (i * 2) := hframe _ (Or.inl (by omega))
  have hR : tb₁.nLits (i * 2 + 1) = tb.nLits (i * 2 + 1) := hframe _ (Or.inl (by omega))
  have hleft := h.left.congr hgrow hL hin
  have hright := h.right.congr hgrow hR hin
  have hxlen : x < (tb₁.nLits i).length := by
    rw [hlen]
    split <;> omega
  rw [wp_bind]
  apply (emits_outputClauses hleft.valid hright.valid hvalid hxlen).wp hgrow.wellScoped le_rfl
  intro t₂ hnum₂ ht₂ hmod₂
  have hgrow₂ : Trace.Grows t₁ t₂ := ⟨hnum₂.ge, ht₂, fun σ hσ => ((hmod₂ σ).mp hσ).1⟩
  rw [wp_pure]
  have hleft₂ := hleft.congr hgrow₂ rfl rfl
  have hright₂ := hright.congr hgrow₂ rfl rfl
  refine ⟨⟨hcur, hin, hframe, hgrow.trans hgrow₂, fun σ k hσ he heL heR hroot => ?_⟩,
    ⟨hlen, fun y hy => hgrow₂.valid (hvalid y hy), fun _ => hzero,
      fun σ hσ y hy hcount => ?_, hleft₂, hright₂⟩⟩
  · obtain ⟨σ', hagree, hσ', he'⟩ := hext σ k hσ he
    refine ⟨σ', hagree, (hmod₂ σ').mpr ⟨hσ', fun a ha haL haR hLa hRa => ?_⟩, he'⟩
    have heL' := heL.congr hagree h.left.valid hinput hL hin a haL
    have heR' := heR.congr hagree h.right.valid hinput hR hin (x - a) haR
    rw [hLa, if_neg (by omega), eq_comm, decide_eq_true_iff] at heL'
    rw [hRa, if_neg (by omega), eq_comm, decide_eq_true_iff] at heR'
    have hsplit : countIn σ' tb₁.input l r = _ := countIn_split hlm hmr
    rw [he' x hxlen, decide_eq_true_iff]
    split
    · rename_i hi1
      have hle := hroot hi1
      rw [← AgreeBelow.countIn hagree hinput, ← hin] at hle
      omega
    · omega
  · obtain ⟨hσ₁, hF⟩ := (hmod₂ σ).mp hσ
    rcases Nat.lt_succ_iff_lt_or_eq.mp hy with hy | rfl
    · rw [hsame y hy]
      rw [hin] at hcount
      exact h.sound σ ((hmod σ).mp hσ₁) y hy hcount
    · -- Enough inputs on the two sides give two outputs that are true.
      have hsplit : countIn σ tb₁.input l r = _ := countIn_split hlm hmr
      have hLle := countIn_le σ tb₁.input l ((l + r) / 2)
      have hRle := countIn_le σ tb₁.input ((l + r) / 2 + 1) r
      set a := min y (countIn σ tb₁.input l ((l + r) / 2)) with ha
      have haL := hleft.length_ge (x := a) (by omega) hlm (by omega) (by omega)
      have haR := hright.length_ge (x := y - a) (by omega) (by omega) (by omega) (by omega)
      exact hF a (by omega) haL haR
        (hleft.sound σ hσ₁ a (by omega) haL (by omega))
        (hright.sound σ hσ₁ (y - a) (by omega) haR (by omega))

/-! ## Building a subtree -/

theorem NodeStep.trans {t'' : Trace} {tb'' : TotalizerBuilder} {i l r : ℕ}
    (hi : 1 ≤ i) (hleft : ∀ y ∈ tb.nLits (i * 2), y.Valid t.numVars)
    (hright : ∀ y ∈ tb.nLits (i * 2 + 1), y.Valid t.numVars)
    (hinput : ∀ y ∈ tb.input, y.Valid t.numVars) (h : NodeStep tb tb' t t' i l r)
    (h' : NodeStep tb' tb'' t' t'' i l r) : NodeStep tb tb'' t t'' i l r := by
  refine ⟨h'.curSize_eq.trans h.curSize_eq, h'.input_eq.trans h.input_eq,
    fun j hj => (h'.frame j hj).trans (h.frame j hj), h.grows.trans h'.grows,
    fun σ k hσ he heL heR hroot => ?_⟩
  obtain ⟨σ₁, hagree, hσ₁, he₁⟩ := h.extend σ k hσ he heL heR hroot
  have hL := h.frame (i * 2) (Or.inl (by omega))
  have hR := h.frame (i * 2 + 1) (Or.inl (by omega))
  have hroot₁ : i = 1 → countIn σ₁ tb'.input l r ≤ k := fun hi1 => by
    rw [h.input_eq, AgreeBelow.countIn hagree hinput]
    exact hroot hi1
  obtain ⟨σ₂, hagree₂, hσ₂, he₂⟩ := h'.extend σ₁ k hσ₁ he₁
    (heL.congr hagree hleft hinput hL h.input_eq)
    (heR.congr hagree hright hinput hR h.input_eq) hroot₁
  exact ⟨σ₂, hagree.trans hagree₂ h.grows.numVars_le, hσ₂, he₂⟩

/-- The loop over the outputs of a node whose children are complete. -/
theorem wp_outputs {c₀ size i l r : ℕ} (ht : t.Scoped) (hi : 1 ≤ i) (hlr : l < r)
    (hinput : ∀ y ∈ tb.input, y.Valid t.numVars) (hc : c₀ ≤ size + 1)
    (h : NodeInv tb t c₀ i l r) (hleft : NodeInv tb t (size + 1) (i * 2) l ((l + r) / 2))
    (hright : NodeInv tb t (size + 1) (i * 2 + 1) ((l + r) / 2 + 1) r) :
    wp ((List.range' c₀ (min size (r - l + 1) + 1 - c₀)).foldlM
        (fun tb x => buildNode i (i * 2) (i * 2 + 1) x tb) tb)
      (fun tb' t' => NodeStep tb tb' t t' i l r ∧ NodeInv tb' t' (size + 1) i l r) E t := by
  have hlen := h.length_eq hlr.ne
  by_cases hfull : r + 1 - l < c₀
  · -- Every output was built before.
    rw [show min size (r - l + 1) + 1 - c₀ = 0 by omega]
    refine ⟨NodeStep.refl ht, fun he => absurd he hlr.ne, fun _ => ?_, h.valid, h.zero,
      fun σ hσ x _ hx hcount => h.sound σ hσ x ?_ hx hcount⟩
    · rw [hlen]
      split <;> omega
    · rw [hlen] at hx
      split at hx <;> omega
  · have hbetween : Between tb t (size + 1) c₀ i l r := by
      refine ⟨?_, h.valid, h.zero, fun σ hσ y hy hcount => ?_, hleft, hright⟩
      · rw [hlen, min_eq_left (by omega)]
      · refine h.sound σ hσ y hy ?_ hcount
        rw [hlen]
        split <;> omega
    have hloop := wp_foldlM_range' (E := E) (b := tb) (s := t) (k := c₀)
      (m := min size (r - l + 1) + 1 - c₀)
      (f := fun tb x => buildNode i (i * 2) (i * 2 + 1) x tb)
      (fun j tb' t' => NodeStep tb tb' t t' i l r ∧
        Between tb' t' (size + 1) (c₀ + j) i l r)
      ⟨NodeStep.refl ht, hbetween⟩
      (fun j hj tb₁ t₁ hI => by
        obtain ⟨hstep, hb⟩ := hI
        have hinput₁ : ∀ y ∈ tb₁.input, y.Valid t₁.numVars := fun y hy =>
          hstep.grows.valid (hinput y (hstep.input_eq ▸ hy))
        apply wp_imp (wp_buildNode hstep.grows.wellScoped hi hlr hinput₁
          (by omega) (by omega) hb)
        rintro tb₂ t₂ ⟨hstep₂, hb₂⟩
        exact ⟨hstep.trans hi hleft.valid hright.valid hinput hstep₂, hb₂⟩)
    apply wp_imp hloop
    rintro tb' t' ⟨hstep, hb⟩
    rw [show c₀ + (min size (r - l + 1) + 1 - c₀) = min (size + 1) (r + 2 - l) by omega]
      at hb
    refine ⟨hstep, fun he => absurd he hlr.ne, fun _ => hb.length_eq, hb.valid, hb.zero,
      fun σ hσ x hxc hx hcount => hb.sound σ hσ x ?_ hcount⟩
    have hlen' := hb.length_eq
    rw [hlen'] at hx
    split at hx <;> omega

/-- What building a subtree up to a size does. -/
structure BuildStep (tb tb' : TotalizerBuilder) (t t' : Trace) (c fuel i l r : ℕ) :
    Prop where
  curSize_eq : tb'.curSize = tb.curSize
  input_eq : tb'.input = tb.input
  frame : ∀ j, (¬Under i j ∨ j = 1) → tb'.nLits j = tb.nLits j
  grows : Trace.Grows t t'
  nodes : AllNodes (NodeInv tb' t' c) fuel i l r
  extend : ∀ σ k, t.Models σ → AllNodes (Exact tb σ k) fuel i l r →
    (i = 1 → countIn σ tb.input l r ≤ k) →
    ∃ σ', AgreeBelow t.numVars σ σ' ∧ t'.Models σ' ∧ AllNodes (Exact tb' σ' k) fuel i l r

/-- A leaf. -/
theorem wp_buildLeaf {c₀ c i l : ℕ} {fuel : ℕ} (ht : t.Scoped) (hi : i ≠ 1)
    (hl : l < tb.input.length) (hinput : ∀ y ∈ tb.input, y.Valid t.numVars) (hc : 0 < c)
    (h : NodeInv tb t c₀ i l l) :
    wp (buildLeaf i l tb) (fun tb' t' => BuildStep tb tb' t t' c (fuel + 1) i l l) E t := by
  have hlits := h.leaf rfl
  have hvalid : (tb.input.getD l .undef).Valid t.numVars := by
    rw [List.getD_eq_getElem _ _ hl]
    exact hinput _ (List.getElem_mem hl)
  -- In both cases the leaf gets the same two literals.
  have hleaf : ∀ tb' : TotalizerBuilder, tb'.nLits i = [.trueLit, tb.input.getD l .undef] →
      tb'.input = tb.input → tb'.curSize = tb.curSize →
      (∀ j, j ≠ i → tb'.nLits j = tb.nLits j) →
      BuildStep tb tb' t t c (fuel + 1) i l l := by
    intro tb' hself hin hcur hframe
    refine ⟨hcur, hin, fun j hj => hframe j ?_, Trace.Grows.refl ht,
      ⟨⟨fun _ => ?_, fun hne => absurd rfl hne, ?_, fun _ => ?_, fun σ _ x hxc hx hcount => ?_⟩,
        fun hne => absurd rfl hne⟩,
      fun σ k hσ _ _ => ⟨σ, AgreeBelow.refl _ σ, hσ, fun x hx => ?_,
        fun hne => absurd rfl hne⟩⟩
    · rintro rfl
      exact hj.elim (fun h => h (Under.refl _)) hi
    · rw [hself, hin, if_neg (by omega)]
    · rw [hself]
      simpa using hvalid
    · rw [hself]
      rfl
    · rw [hself] at hx ⊢
      rw [hin, countIn_self hl] at hcount
      obtain rfl | rfl : x = 0 ∨ x = 1 := by
        change x < 2 at hx
        omega
      · rfl
      · by_contra hne
        rw [if_neg (show ¬(tb.input.getD l .undef).eval σ = true from hne)] at hcount
        omega
    · rw [hself] at hx ⊢
      rw [if_neg hi, hin, countIn_self hl]
      obtain rfl | rfl : x = 0 ∨ x = 1 := by
        change x < 2 at hx
        omega
      · simp
      · change (tb.input.getD l .undef).eval σ = _
        cases (tb.input.getD l .undef).eval σ with
        | false => rfl
        | true => rfl
  rw [buildLeaf]
  by_cases hc₀ : c₀ = 0
  · rw [if_pos hc₀] at hlits
    have hself : ((tb.push i .trueLit).push i (tb.input.getD l .undef)).nLits i =
        [.trueLit, tb.input.getD l .undef] := by
      rw [push_nLits, if_pos rfl, push_nLits, if_pos rfl, hlits]
      rfl
    have hone : ((tb.push i .trueLit).nLits i).length = 1 := by
      rw [push_nLits, if_pos rfl, hlits]
      rfl
    rw [if_pos (show (tb.nLits i).length = 0 by rw [hlits]; rfl), if_pos hone, wp_bind]
    apply wp_assert_of (decide_eq_true (congrArg List.length hself))
    refine hleaf _ hself rfl rfl fun j hj => ?_
    rw [push_nLits, if_neg hj, push_nLits, if_neg hj]
  · rw [if_neg hc₀] at hlits
    have hlen : (tb.nLits i).length = 2 := by
      rw [hlits]
      rfl
    rw [if_neg (show ¬(tb.nLits i).length = 0 by omega), if_neg (by omega), wp_bind]
    apply wp_assert_of (decide_eq_true hlen)
    exact hleaf tb hlits rfl rfl fun _ _ => rfl

/-- `build` on a subtree. -/
theorem wp_build {c₀ size fuel i l r : ℕ} (ht : t.Scoped) (hi : 1 ≤ i)
    (hroot : i = 1 → l < r) (hlr : l ≤ r) (hr : r < tb.input.length) (hfuel : r + 1 - l ≤ fuel)
    (hinput : ∀ y ∈ tb.input, y.Valid t.numVars) (hsize : 1 ≤ size) (hc : c₀ ≤ size + 1)
    (hcur : (tb.curSize + 1).toNat = c₀) (h : AllNodes (NodeInv tb t c₀) fuel i l r) :
    wp (build size fuel i l r tb)
      (fun tb' t' => BuildStep tb tb' t t' (size + 1) fuel i l r) E t := by
  induction fuel generalizing t tb i l r with
  | zero => omega
  | succ fuel ih =>
      rw [build, wp_bind]
      apply wp_assert_of (decide_eq_true hsize)
      rw [wp_bind]
      apply wp_assert_of (decide_eq_true hlr)
      by_cases hne : l = r
      · subst hne
        rw [if_pos rfl]
        exact wp_buildLeaf ht (fun hi1 => absurd (hroot hi1) (lt_irrefl _)) hr hinput
          (Nat.succ_pos _) h.1
      · obtain ⟨hnode, hsub⟩ := h
        obtain ⟨hleft, hright⟩ := hsub hne
        have hlt : l < r := lt_of_le_of_ne hlr hne
        rw [if_neg hne]
        dsimp only
        rw [wp_bind]
        apply wp_imp (ih ht (by omega) (fun hi1 => by omega) (by omega) (by omega)
          (by omega) hinput hcur hleft)
        intro tb₁ t₁ h₁
        have hinput₁ : ∀ y ∈ tb₁.input, y.Valid t₁.numVars := fun y hy =>
          h₁.grows.valid (hinput y (h₁.input_eq ▸ hy))
        have hframe₁ : ∀ j, Under (i * 2 + 1) j → tb₁.nLits j = tb.nLits j := fun j hj =>
          h₁.frame j (Or.inl fun hj' => Under.not_both hi hj' hj)
        have hnode₁ : NodeInv tb₁ t₁ c₀ i l r :=
          hnode.congr h₁.grows (h₁.frame i (Or.inl fun hu => by have := hu.le; omega))
            h₁.input_eq
        have hright₁ : AllNodes (NodeInv tb₁ t₁ c₀) fuel (i * 2 + 1) ((l + r) / 2 + 1) r :=
          hright.imp (by omega) hr fun j l' r' hj _ _ hn =>
            hn.congr h₁.grows (hframe₁ j hj) h₁.input_eq
        rw [wp_bind]
        apply wp_imp (ih h₁.grows.wellScoped (by omega) (fun hi1 => by omega) (by omega)
          (h₁.input_eq ▸ hr) (by omega) hinput₁ (h₁.curSize_eq ▸ hcur) hright₁)
        intro tb₂ t₂ h₂
        have hinput₂ : ∀ y ∈ tb₂.input, y.Valid t₂.numVars := fun y hy =>
          h₂.grows.valid (hinput₁ y (h₂.input_eq ▸ hy))
        have hframe₂ : ∀ j, Under (i * 2) j → tb₂.nLits j = tb₁.nLits j := fun j hj =>
          h₂.frame j (Or.inl fun hj' => Under.not_both hi hj hj')
        have hnode₂ : NodeInv tb₂ t₂ c₀ i l r :=
          hnode₁.congr h₂.grows (h₂.frame i (Or.inl fun hu => by have := hu.le; omega))
            h₂.input_eq
        have hleft₂ : AllNodes (NodeInv tb₂ t₂ (size + 1)) fuel (i * 2) l ((l + r) / 2) :=
          h₁.nodes.imp (by omega) (by omega : (l + r) / 2 < tb.input.length)
            fun j l' r' hj _ _ hn => hn.congr h₂.grows (hframe₂ j hj) h₂.input_eq
        rw [h₂.curSize_eq, h₁.curSize_eq, hcur]
        obtain ⟨fuel, rfl⟩ : ∃ f, fuel = f + 1 := ⟨fuel - 1, by omega⟩
        apply wp_imp (wp_outputs h₂.grows.wellScoped hi hlt hinput₂ hc hnode₂ hleft₂.1
          h₂.nodes.1)
        rintro tb₃ t₃ ⟨hstep, hinv⟩
        have hbelow : ∀ {i' j}, i < i' → Under i' j → tb₃.nLits j = tb₂.nLits j :=
          fun hii' hu => hstep.frame _ (Or.inl (by have := hu.le; omega))
        refine ⟨hstep.curSize_eq.trans (h₂.curSize_eq.trans h₁.curSize_eq),
          hstep.input_eq.trans (h₂.input_eq.trans h₁.input_eq), fun j hj => ?_,
          h₁.grows.trans (h₂.grows.trans hstep.grows), ⟨hinv, fun _ => ⟨?_, ?_⟩⟩,
          fun σ k hσ hexact hcount => ?_⟩
        · have hj1 : j ≠ i ∨ i = 1 := by
            rcases hj with hj | rfl
            · exact Or.inl fun he => hj (he ▸ Under.refl i)
            · by_cases hi1 : i = 1
              · exact Or.inr hi1
              · exact Or.inl (Ne.symm hi1)
          rw [hstep.frame j hj1, h₂.frame j (hj.imp_left fun hn hu => hn hu.of_right),
            h₁.frame j (hj.imp_left fun hn hu => hn hu.of_left)]
        · exact hleft₂.imp (by omega) (by omega : (l + r) / 2 < tb.input.length)
            fun j l' r' hj _ _ hn => hn.congr hstep.grows (hbelow (by omega) hj)
              hstep.input_eq
        · exact h₂.nodes.imp (by omega) hr fun j l' r' hj _ _ hn =>
            hn.congr hstep.grows (hbelow (by omega) hj) hstep.input_eq
        · -- The values are extended to the left subtree, the right one and the node.
          obtain ⟨he, hesub⟩ := hexact
          obtain ⟨heL, heR⟩ := hesub hne
          obtain ⟨σ₁, ha₁, hσ₁, heL₁⟩ := h₁.extend σ k hσ heL (fun hi1 => by omega)
          have heR₁ : AllNodes (Exact tb₁ σ₁ k) (fuel + 1) (i * 2 + 1)
              ((l + r) / 2 + 1) r := by
            have hboth : AllNodes (fun j l' r' => Exact tb σ k j l' r' ∧
                NodeInv tb t c₀ j l' r') (fuel + 1) (i * 2 + 1) ((l + r) / 2 + 1) r :=
              heR.and hright
            exact hboth.imp (by omega) hr fun j l' r' hj _ _ hn =>
              hn.1.congr ha₁ hn.2.valid hinput (hframe₁ j hj) h₁.input_eq
          obtain ⟨σ₂, ha₂, hσ₂, heR₂⟩ := h₂.extend σ₁ k hσ₁ heR₁ (fun hi1 => by omega)
          have heL₂ : AllNodes (Exact tb₂ σ₂ k) (fuel + 1) (i * 2) l ((l + r) / 2) :=
            (heL₁.and h₁.nodes).imp (by omega) (by omega : (l + r) / 2 < tb.input.length)
              fun j l' r' hj _ _ hn =>
                hn.1.congr ha₂ hn.2.valid hinput₁ (hframe₂ j hj) h₂.input_eq
          have ha₁₂ := ha₁.trans ha₂ h₁.grows.numVars_le
          have he₂ : Exact tb₂ σ₂ k i l r :=
            he.congr ha₁₂ hnode.valid hinput
              ((h₂.frame i (Or.inl fun hu => by have := hu.le; omega)).trans
                (h₁.frame i (Or.inl fun hu => by have := hu.le; omega)))
              (h₂.input_eq.trans h₁.input_eq)
          have hcount₂ : i = 1 → countIn σ₂ tb₂.input l r ≤ k := fun hi1 => by
            rw [h₂.input_eq, h₁.input_eq, AgreeBelow.countIn ha₁₂ hinput]
            exact hcount hi1
          obtain ⟨σ₃, ha₃, hσ₃, he₃⟩ := hstep.extend σ₂ k hσ₂ he₂ heL₂.1 heR₂.1 hcount₂
          refine ⟨σ₃, ha₁₂.trans ha₃ (h₁.grows.trans h₂.grows).numVars_le, hσ₃, he₃,
            fun _ => ⟨?_, ?_⟩⟩
          · exact (heL₂.and hleft₂).imp (by omega) (by omega : (l + r) / 2 < tb.input.length)
              fun j l' r' hj _ _ hn => hn.1.congr ha₃ hn.2.valid hinput₂
                (hbelow (by omega) hj) hstep.input_eq
          · exact (heR₂.and h₂.nodes).imp (by omega) hr fun j l' r' hj _ _ hn =>
              hn.1.congr ha₃ hn.2.valid hinput₂ (hbelow (by omega) hj) hstep.input_eq

/-! ## The whole totalizer -/

/-- The totalizer over at least two inputs, with its outputs. -/
structure Inv (tb : TotalizerBuilder) (t : Trace) (out : List Lit) : Prop where
  two_le : 2 ≤ tb.input.length
  valid : ∀ y ∈ tb.input, y.Valid t.numVars
  root : tb.nLits 1 = .trueLit :: out
  length_out : out.length = tb.input.length
  nodes : AllNodes (NodeInv tb t (tb.curSize + 1).toNat) tb.input.length 1 0
    (tb.input.length - 1)

/-- The values of the literals count exactly, and `k` outputs are true. -/
def Counts (tb : TotalizerBuilder) (σ : ℕ → Bool) (k : ℕ) : Prop :=
  AllNodes (Exact tb σ k) tb.input.length 1 0 (tb.input.length - 1)

theorem countIn_all (σ : ℕ → Bool) {input : List Lit} (h : 2 ≤ input.length) :
    countIn σ input 0 (input.length - 1) = countTrue σ input := by
  rw [countIn, List.drop_zero, List.take_of_length_le (by omega)]

theorem AllNodes.root {P : ℕ → ℕ → ℕ → Prop} {fuel i l r : ℕ} (hfuel : 0 < fuel)
    (h : AllNodes P fuel i l r) : P i l r := by
  obtain ⟨f, rfl⟩ := Nat.exists_eq_add_of_lt hfuel
  rw [Nat.zero_add] at h
  exact h.1

/-- An output that is built limits the number of true inputs. -/
theorem Inv.countTrue_le {out : List Lit} {k : ℕ} (h : Inv tb t out)
    (hbuilt : (k : ℤ) + 1 ≤ tb.curSize) (hk : k < out.length) {σ : ℕ → Bool}
    (hσ : t.Models σ) (hout : (out.getD k .undef).eval σ = false) :
    countTrue σ tb.input ≤ k := by
  have h2 := h.two_le
  have hroot := h.nodes.root (by omega)
  by_contra hlt
  have hlen : k + 1 < (tb.nLits 1).length := by
    rw [h.root, List.length_cons]
    omega
  have htrue := hroot.sound σ hσ (k + 1) (by omega) hlen (by
    rw [countIn_all σ h2]
    omega)
  rw [h.root, List.getD_cons_succ, hout] at htrue
  cases htrue

/-- The outputs of exact values. -/
theorem Counts.eval_out {out : List Lit} {k j : ℕ} {σ : ℕ → Bool} (h : Inv tb t out)
    (hc : Counts tb σ k) (hj : j < out.length) :
    (out.getD j .undef).eval σ = decide (j < k) := by
  have h2 := h.two_le
  have hroot := hc.root (by omega) (j + 1) (by
    rw [h.root, List.length_cons]
    omega)
  rw [h.root, List.getD_cons_succ, if_pos rfl] at hroot
  rw [hroot]
  rfl

/-- A later state of the solver. -/
theorem Inv.grows {out : List Lit} (h : Inv tb t out) (ht : Trace.Grows t t') :
    Inv tb t' out :=
  have h2 := h.two_le
  ⟨h2, fun y hy => ht.valid (h.valid y hy), h.root, h.length_out,
    h.nodes.imp (Nat.zero_le _) (by omega : tb.input.length - 1 < tb.input.length)
      fun _ _ _ _ _ _ hn => hn.congr ht rfl rfl⟩

/-- The values only concern created variables. -/
theorem Counts.congr {out : List Lit} {k : ℕ} {σ σ' : ℕ → Bool} (hc : Counts tb σ k)
    (h : Inv tb t out) (ha : AgreeBelow t.numVars σ σ') : Counts tb σ' k :=
  have h2 := h.two_le
  (hc.and h.nodes).imp (Nat.zero_le _) (by omega : tb.input.length - 1 < tb.input.length)
    fun _ _ _ _ _ _ hn => hn.1.congr ha hn.2.valid h.valid rfl rfl

/-- New variables, a literal list for them and any values. -/
theorem wp_init {input : List Lit} (ht : t.Scoped) (h2 : 2 ≤ input.length)
    (hinput : ∀ y ∈ input, y.Valid t.numVars) :
    wp (empty.init input)
      (fun r t' => Inv r.2 t' r.1 ∧ r.2.curSize = -1 ∧ r.2.input = input ∧
        Trace.Grows t t' ∧
        (∀ l ∈ r.1, ∃ v, l = .var true v ∧ v < t'.numVars) ∧
        ∀ σ k, t.Models σ → ∃ σ', AgreeBelow t.numVars σ σ' ∧ t'.Models σ' ∧
          Counts r.2 σ' k) E t := by
  have hloop := wp_foldlM (E := E) (l := input) (s := t)
    (f := fun (s : List Lit × TotalizerBuilder) _ => do
      let v ← newVar
      pure (s.1 ++ [v], s.2.push 1 v))
    (b := ([], ({ empty with input := input } : TotalizerBuilder).push 1 .trueLit))
    (fun pre s t' => s.2.curSize = -1 ∧ s.2.input = input ∧
      s.2.nLits 1 = .trueLit :: s.1 ∧ (∀ j, j ≠ 1 → s.2.nLits j = []) ∧
      s.1.length = pre.length ∧ Trace.Grows t t' ∧
      (∀ l ∈ s.1, ∃ v, l = .var true v ∧ v < t'.numVars) ∧
      ∀ σ (k : ℕ), t.Models σ → ∃ σ', AgreeBelow t.numVars σ σ' ∧ t'.Models σ' ∧
        ∀ j < s.1.length, (s.1.getD j .undef).eval σ' = decide (j < k))
    ⟨rfl, rfl, by rw [push_nLits, if_pos rfl]; rfl,
      fun j hj => by rw [push_nLits, if_neg hj]; rfl, rfl, Trace.Grows.refl ht,
      fun l hl => absurd hl List.not_mem_nil,
      fun σ k hσ => ⟨σ, AgreeBelow.refl _ σ, hσ, fun j hj => absurd hj (Nat.not_lt_zero j)⟩⟩
    (fun pre i post s t₁ _ hI => by
      obtain ⟨hcur, hin, hroot, hother, hlen, hgrow, hvars, hext⟩ := hI
      rw [wp_bind, wp_newVar, wp_pure]
      refine ⟨hcur, hin, ?_, fun j hj => ?_, by simp [hlen], hgrow.newVar, fun l hl => ?_,
        fun σ k hσ => ?_⟩
      · rw [push_nLits, if_pos rfl, hroot]
        rfl
      · rw [push_nLits, if_neg hj, hother j hj]
      · rcases List.mem_append.mp hl with hl | hl
        · obtain ⟨v, rfl, hv⟩ := hvars l hl
          exact ⟨v, rfl, Nat.lt_succ_of_lt hv⟩
        · exact ⟨_, List.mem_singleton.mp hl, Nat.lt_succ_self _⟩
      · obtain ⟨σ', hagree, hσ', hval⟩ := hext σ k hσ
        have hup := AgreeBelow.update t₁.numVars σ' (decide (s.1.length < k))
        refine ⟨_, hagree.trans hup hgrow.numVars_le, hσ'.update hgrow.wellScoped _,
          fun j hj => ?_⟩
        rw [List.length_append, List.length_singleton] at hj
        rcases Nat.lt_succ_iff_lt_or_eq.mp hj with hj | rfl
        · rw [List.getD_append _ _ _ _ hj, ← hval j hj]
          apply hup.eval
          obtain ⟨v, hv, hlt⟩ := hvars _ (List.getElem_mem hj)
          rw [List.getD_eq_getElem _ _ hj, hv]
          exact hlt
        · rw [List.getD_append_right _ _ _ _ le_rfl, Nat.sub_self]
          exact Function.update_self _ _ _)
  rw [init]
  dsimp only
  rw [if_neg (by omega)]
  apply wp_imp hloop
  rintro s t' ⟨hcur, hin, hroot, hother, hlen, hgrow, hvars, hext⟩
  have hnodes : ∀ fuel i l r, 1 < i → AllNodes (NodeInv s.2 t' 0) fuel i l r := by
    intro fuel
    induction fuel with
    | zero => exact fun _ _ _ _ => trivial
    | succ fuel ih =>
        intro i l r hi
        have hnil := hother i (by omega)
        refine ⟨⟨fun _ => hnil, fun _ => ?_, by simp [hnil], by simp [hnil],
          fun _ _ x hx => absurd hx (Nat.not_lt_zero x)⟩,
          fun _ => ⟨ih _ _ _ (by omega), ih _ _ _ (by omega)⟩⟩
        rw [hnil, if_neg (by omega)]
        exact (Nat.zero_min _).symm
  have hvalid : ∀ y ∈ s.2.nLits 1, y.Valid t'.numVars := by
    rw [hroot]
    intro y hy
    rcases List.mem_cons.mp hy with rfl | hy
    · exact Lit.valid_trueLit
    · obtain ⟨v, rfl, hv⟩ := hvars y hy
      exact hv
  obtain ⟨m, hm⟩ : ∃ m, input.length = m + 1 := ⟨input.length - 1, by omega⟩
  refine ⟨⟨hin ▸ h2, fun y hy => hgrow.valid (hinput y (hin ▸ hy)), hroot, hin ▸ hlen, ?_⟩,
    hcur, hin, hgrow, hvars, fun σ k hσ => ?_⟩
  · rw [hin, hm, hcur]
    refine ⟨⟨fun he => by omega, fun _ => ?_, hvalid, fun _ => ?_,
      fun _ _ x hx => absurd hx (Nat.not_lt_zero x)⟩,
      fun _ => ⟨hnodes _ _ _ _ (by omega), hnodes _ _ _ _ (by omega)⟩⟩
    · rw [hroot, if_pos rfl, List.length_cons, hlen, hm]
      omega
    · rw [hroot]
      rfl
  · obtain ⟨σ', hagree, hσ', hval⟩ := hext σ k hσ
    have hempty : ∀ fuel i l r, 1 < i → AllNodes (Exact s.2 σ' k) fuel i l r := by
      intro fuel
      induction fuel with
      | zero => exact fun _ _ _ _ => trivial
      | succ fuel ih =>
          intro i l r hi
          refine ⟨fun x hx => ?_, fun _ => ⟨ih _ _ _ (by omega), ih _ _ _ (by omega)⟩⟩
          rw [hother i (by omega)] at hx
          exact absurd hx (Nat.not_lt_zero x)
    refine ⟨σ', hagree, hσ', ?_⟩
    rw [Counts, hin, hm]
    refine ⟨fun x hx => ?_, fun _ => ⟨hempty _ _ _ _ (by omega), hempty _ _ _ _ (by omega)⟩⟩
    rw [hroot] at hx ⊢
    rw [if_pos rfl]
    cases x with
    | zero => simp
    | succ x =>
        rw [List.getD_cons_succ, hval x (Nat.lt_of_succ_lt_succ hx)]
        rfl

/-- `buildToSize` keeps the invariant and the exact values. -/
theorem wp_buildToSize {size : ℕ} {out : List Lit} (ht : t.Scoped) (h : Inv tb t out)
    (hsize : 1 ≤ size) (hle : size ≤ tb.input.length) (hcur : tb.curSize ≤ size) :
    wp (buildToSize size tb)
      (fun tb' t' => Inv tb' t' out ∧ tb'.curSize = size ∧ tb'.input = tb.input ∧
        Trace.Grows t t' ∧
        ∀ σ k, t.Models σ → Counts tb σ k → countTrue σ tb.input ≤ k →
          ∃ σ', AgreeBelow t.numVars σ σ' ∧ t'.Models σ' ∧ Counts tb' σ' k) E t := by
  have h2 := h.two_le
  rw [buildToSize, wp_bind]
  apply wp_assert_of (decide_eq_true hle)
  rw [wp_bind]
  apply wp_assert_of (decide_eq_true hcur)
  rw [wp_bind]
  apply wp_assert_of (decide_eq_true hsize)
  by_cases hdone : (size : ℤ) ≤ tb.curSize
  · rw [if_pos (Or.inr hdone)]
    exact ⟨h, le_antisymm hcur hdone, rfl, Trace.Grows.refl ht,
      fun σ k hσ hk _ => ⟨σ, AgreeBelow.refl _ σ, hσ, hk⟩⟩
  · rw [if_neg (by rw [not_or]; exact ⟨by omega, hdone⟩), wp_bind]
    apply wp_imp (wp_build ht le_rfl (fun _ => by omega) (Nat.zero_le _) (by omega) (by omega)
      h.valid hsize (by omega) rfl h.nodes)
    intro tb₁ t₁ hs
    have hroot := hs.frame 1 (Or.inr rfl)
    have hnode : ∀ {P P' : ℕ → ℕ → ℕ → Prop}, (∀ j l r, P j l r → P' j l r) →
        AllNodes P tb.input.length 1 0 (tb.input.length - 1) →
        AllNodes P' tb₁.input.length 1 0 (tb₁.input.length - 1) := by
      intro P P' himp hP
      rw [hs.input_eq]
      exact hP.imp (Nat.zero_le _) (by omega : tb.input.length - 1 < tb.input.length)
        fun j l r _ _ _ => himp j l r
    rw [wp_pure]
    refine ⟨⟨hs.input_eq ▸ h2, fun y hy => hs.grows.valid (h.valid y (hs.input_eq ▸ hy)),
      hroot.trans h.root, h.length_out.trans (congrArg List.length hs.input_eq.symm), ?_⟩,
      rfl, hs.input_eq, hs.grows, fun σ k hσ hk hcount => ?_⟩
    · have hsz : ((size : ℤ) + 1).toNat = size + 1 := by omega
      rw [hsz]
      exact hnode (fun j l r hn => hn.congr (Trace.Grows.refl hs.grows.wellScoped) rfl rfl)
        hs.nodes
    · obtain ⟨σ', hagree, hσ', he⟩ := hs.extend σ k hσ hk fun _ => by
        rw [countIn_all σ h2]
        exact hcount
      exact ⟨σ', hagree, hσ', hnode (fun j l r hn => hn) he⟩

/-! ## Growing the totalizer -/

/-- Calls of `BuildToSize` for growing sizes keep the invariant, and the values of `k`
outputs extend when at most `k` inputs are true. -/
theorem wp_buildToSizes {sizes : List ℕ} {out : List Lit} (ht : t.Scoped) (h : Inv tb t out)
    (hsorted : sizes.Pairwise (· ≤ ·))
    (hsizes : ∀ size ∈ sizes, 1 ≤ size ∧ size ≤ tb.input.length ∧ tb.curSize ≤ size) :
    wp (sizes.foldlM (fun tb size => buildToSize size tb) tb)
      (fun tb' t' => Inv tb' t' out ∧ tb'.curSize = (sizes.getLast?.map (↑)).getD tb.curSize ∧
        tb'.input = tb.input ∧ Trace.Grows t t' ∧
        ∀ σ k, t.Models σ → Counts tb σ k → countTrue σ tb.input ≤ k →
          ∃ σ', AgreeBelow t.numVars σ σ' ∧ t'.Models σ' ∧ Counts tb' σ' k) E t := by
  induction sizes generalizing tb t with
  | nil =>
      exact ⟨h, rfl, rfl, Trace.Grows.refl ht,
        fun σ k hσ hk _ => ⟨σ, AgreeBelow.refl _ σ, hσ, hk⟩⟩
  | cons size sizes ih =>
      obtain ⟨hpos, hle, hcur⟩ := hsizes size List.mem_cons_self
      obtain ⟨hhead, htail⟩ := List.pairwise_cons.mp hsorted
      rw [List.foldlM_cons, wp_bind]
      apply wp_imp (wp_buildToSize ht h hpos hle hcur)
      intro tb₁ t₁ h₁
      obtain ⟨hinv₁, hcur₁, hin₁, hgrow₁, hext₁⟩ := h₁
      have hsizes₁ : ∀ size ∈ sizes, 1 ≤ size ∧ size ≤ tb₁.input.length ∧
          tb₁.curSize ≤ size := by
        intro s hs
        obtain ⟨hpos', hle', -⟩ := hsizes s (List.mem_cons_of_mem _ hs)
        rw [hin₁, hcur₁]
        exact ⟨hpos', hle', Int.ofNat_le.mpr (hhead s hs)⟩
      apply wp_imp (ih hgrow₁.wellScoped hinv₁ htail hsizes₁)
      intro tb₂ t₂ h₂
      obtain ⟨hinv₂, hcur₂, hin₂, hgrow₂, hext₂⟩ := h₂
      refine ⟨hinv₂, ?_, hin₂.trans hin₁, hgrow₁.trans hgrow₂, ?_⟩
      · rw [hcur₂, hcur₁, List.getLast?_cons]
        cases sizes.getLast? with
        | none => rfl
        | some last => rfl
      · intro σ k hσ hk hcount
        obtain ⟨σ₁, ha₁, hσ₁, hk₁⟩ := hext₁ σ k hσ hk hcount
        have hcount₁ : countTrue σ₁ tb₁.input ≤ k := by
          rw [hin₁, countTrue_congr h.valid ha₁]
          exact hcount
        obtain ⟨σ₂, ha₂, hσ₂, hk₂⟩ := hext₂ σ₁ k hσ₁ hk₁ hcount₁
        exact ⟨σ₂, ha₁.trans ha₂ hgrow₁.numVars_le, hσ₂, hk₂⟩

/-- After any growing calls of `BuildToSize` up to a size `s`, none of which aborts, the
outputs assumed for `k < s` are possible exactly when at most `k` inputs are true. -/
theorem buildToSize_atMost (ht : t.Scoped) {input : List Lit} (hn : 2 ≤ input.length)
    (hinput : ∀ l ∈ input, l.Valid t.numVars) {sizes : List ℕ}
    (hsorted : sizes.Pairwise (· ≤ ·))
    (hsizes : ∀ size ∈ sizes, 1 ≤ size ∧ size ≤ input.length) :
    ∃ out tb t₁ tb' t', empty.init input t = (some (out, tb), t₁) ∧
      sizes.foldlM (fun tb size => buildToSize size tb) tb t₁ = (some tb', t') ∧
      out.length = input.length ∧
      ∀ σ, t.Models σ → ∀ k < sizes.getLastD 0,
        (∃ σ', AgreeBelow t.numVars σ σ' ∧ t'.Models σ' ∧
          ∀ j < input.length, (out.getD j .undef).eval σ' = decide (j < k)) ↔
        countTrue σ input ≤ k := by
  obtain ⟨r, t₁, hinit, hinv, hcur, hin, hgrow, -, hext⟩ :=
    exists_of_wp (wp_init (E := fun _ => False) ht hn hinput)
  have hsizes₁ : ∀ size ∈ sizes, 1 ≤ size ∧ size ≤ r.2.input.length ∧
      r.2.curSize ≤ size := by
    intro size hsize
    obtain ⟨hpos, hle⟩ := hsizes size hsize
    rw [hin, hcur]
    exact ⟨hpos, hle, by omega⟩
  obtain ⟨tb', t', hbuild, hinv', hcur', hin', hgrow', hext'⟩ :=
    exists_of_wp (wp_buildToSizes (E := fun _ => False) hgrow.wellScoped hinv hsorted hsizes₁)
  have hlen : r.1.length = input.length := hinv.length_out.trans (congrArg List.length hin)
  refine ⟨r.1, r.2, t₁, tb', t', hinit, hbuild, hlen, ?_⟩
  intro σ hσ k hk
  -- A last size exists, since `k` is below it.
  obtain ⟨s, hs, hks⟩ : ∃ s, sizes.getLast? = some s ∧ k < s := by
    rw [List.getLastD_eq_getLast?] at hk
    cases hlast : sizes.getLast? with
    | none =>
        rw [hlast] at hk
        exact absurd hk (Nat.not_lt_zero k)
    | some s =>
        rw [hlast] at hk
        exact ⟨s, rfl, hk⟩
  constructor
  · rintro ⟨σ', hagree, hσ', hout⟩
    have hklen : k < input.length :=
      hks.trans_le (hsizes s (List.mem_of_getLast? hs)).2
    have hbuilt : (k : ℤ) + 1 ≤ tb'.curSize := by
      rw [hcur', hs]
      exact Int.ofNat_le.mpr hks
    have hle := hinv'.countTrue_le hbuilt (by rwa [hlen]) hσ' (by
      rw [hout k hklen]
      exact decide_eq_false (lt_irrefl k))
    rwa [hin', hin, countTrue_congr hinput hagree] at hle
  · intro hcount
    obtain ⟨σ₁, ha₁, hσ₁, hk₁⟩ := hext σ k hσ
    have hcount₁ : countTrue σ₁ r.2.input ≤ k := by
      rwa [hin, countTrue_congr hinput ha₁]
    obtain ⟨σ₂, ha₂, hσ₂, hk₂⟩ := hext' σ₁ k hσ₁ hk₁ hcount₁
    refine ⟨σ₂, ha₁.trans ha₂ hgrow.numVars_le, hσ₂, ?_⟩
    intro j hj
    exact hk₂.eval_out hinv' (by rwa [hlen])

/-- Three literals and three calls. -/
theorem buildToSize_atMost_three :
    ∃ out tb t₁ tb' t', empty.init [.var true 0, .var false 1, .trueLit]
        [.newVar, .newVar] = (some (out, tb), t₁) ∧
      [1, 3, 3].foldlM (fun tb size => buildToSize size tb) tb t₁ = (some tb', t') ∧
      ∀ σ, (∃ σ', AgreeBelow 2 σ σ' ∧ t'.Models σ' ∧
          ∀ j < 3, (out.getD j .undef).eval σ' = decide (j < 2)) ↔
        countTrue σ [.var true 0, .var false 1, .trueLit] ≤ 2 := by
  have hscoped : Trace.Scoped [.newVar, .newVar] := by
    simp [Trace.Scoped, Trace.clauses]
  have hvalid : ∀ l ∈ [Lit.var true 0, .var false 1, .trueLit],
      l.Valid (Trace.numVars [.newVar, .newVar]) := by
    simp [Trace.numVars]
  have hsorted : [1, 3, 3].Pairwise (· ≤ ·) := by
    decide
  obtain ⟨out, tb, t₁, tb', t', hinit, hbuild, -, hcount⟩ :=
    buildToSize_atMost hscoped (by decide) hvalid hsorted (by decide)
  refine ⟨out, tb, t₁, tb', t', hinit, hbuild, fun σ => hcount σ ?_ 2 (by decide)⟩
  simp [Trace.Models, Trace.clauses]

end TotalizerBuilder

end Triangulator
