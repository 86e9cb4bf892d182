import Triangulator.Verification.PathEncoding
import Triangulator.Verification.Refinement

/-!
# The search for a potential maximal clique

With an exact solver the refinement ends, since every round excludes the values of
one more model, and it ends with a potential maximal clique that meets the
assumptions or without a model.
-/

namespace Triangulator

open AbortM SimpleGraph

namespace Enumerator

variable {n : ℕ} {e e' e'' : Enumerator n} {t t' t'' : Trace} {E : Trace → Prop}

/-! ## The constructor -/

/-- A new enumerator has a model with the values of every potential maximal
clique. -/
theorem wp_new {g : Graph n} (hg : g.Valid) (minsepEncoding : ℕ) :
    wp (new g minsepEncoding)
      (fun e t => Inv e t ∧ e.graph = g ∧ e.minsepEncoding = minsepEncoding ∧
        e.minsepVars = [] ∧
        ∀ Ω, g.toSimple.IsPmc (vset Ω) → ∃ σ, t.Models σ ∧ Canonical e σ Ω) E [] := by
  rw [new, wp_bind]
  apply wp_imp (wp_buildBasicEncoding hg)
  rintro ⟨xVar, cVar⟩ t ⟨ht, hl, hbasic, hmodel⟩
  dsimp only at hl hbasic hmodel ⊢
  have hlink : ∀ {σ : ℕ → Bool} {Ω : List (Fin n)},
      Values xVar cVar σ (fun i => decide (i ∈ Ω)) (g.connectedMatrix Ω) →
      Sound g (solutionSet (xValue xVar σ)) (cValue cVar σ) := by
    intro σ Ω hv i ii hne hc
    have hset : solutionSet (xValue xVar σ) = vset Ω := by
      ext j
      change xValue xVar σ j = true ↔ j ∈ Ω
      rw [xValue, hv.x_eq, decide_eq_true_iff]
    rw [cValue, hv.c_eq i ii hne, connectedMatrix_iff_linked hg] at hc
    rwa [hset]
  rw [wp_bind]
  apply wp_when
  · intro h4
    apply wp_imp (wp_buildPathLengthEncoding hg ht hl)
    rintro _ t' ⟨hgrow, hsound, hext⟩
    rw [wp_pure]
    refine ⟨⟨hgrow.wellScoped, hl.grows hgrow, fun σ hσ => hbasic σ (hgrow.models σ hσ),
      fun _ => hsound, by simp, by simp⟩, rfl, rfl, rfl, fun Ω hΩ => ?_⟩
    obtain ⟨σ, hσ, hv⟩ := hmodel _ _ (basic_of_isPmc hg hΩ)
    obtain ⟨σ', ha, hσ'⟩ := hext σ hσ (hlink hv)
    exact ⟨σ', hσ', hv.congr hl ha, by simp⟩
  · intro h4
    rw [wp_pure]
    refine ⟨⟨ht, hl, hbasic, fun h => absurd h h4, by simp, by simp⟩, rfl, rfl, rfl,
      fun Ω hΩ => ?_⟩
    obtain ⟨σ, hσ, hv⟩ := hmodel _ _ (basic_of_isPmc hg hΩ)
    exact ⟨σ, hσ, hv, by simp⟩

/-- Without the path length encoding all values of the basic encoding have a model. -/
theorem wp_new_basic {g : Graph n} {minsepEncoding : ℕ} (hg : g.Valid)
    (h4 : minsepEncoding ≠ 4) :
    wp (new g minsepEncoding)
      (fun e t => ∀ X C, Basic g X C → ∃ σ, t.Models σ ∧ Values e.xVar e.cVar σ X C) E [] := by
  rw [new, wp_bind]
  apply wp_imp (wp_buildBasicEncoding hg)
  rintro s t ⟨-, -, -, hmodel⟩
  rw [wp_bind]
  apply wp_when
  · exact fun h => absurd h h4
  · exact fun _ => hmodel

/-! ## The measure -/

/-- The values of the selection and connectivity variables in the models. -/
def modelValues (e : Enumerator n) (t : Trace) :
    Set ((Fin n → Bool) × (Fin n → Fin n → Bool)) :=
  {p | ∃ σ, t.Models σ ∧ Values e.xVar e.cVar σ p.1 p.2}

/-- The number of values that are left. -/
noncomputable def remaining (e : Enumerator n) (t : Trace) : ℕ :=
  (modelValues e t).ncard

/-- More than all values there are. -/
noncomputable def roundBound (n : ℕ) : ℕ :=
  Nat.card ((Fin n → Bool) × (Fin n → Fin n → Bool)) + 1

theorem roundBound_mono {k n : ℕ} (h : k ≤ n) : roundBound k ≤ roundBound n := by
  have hcard : ∀ n, roundBound n = 2 ^ n * (2 ^ n) ^ n + 1 := by
    intro n
    simp [roundBound, Nat.card_eq_fintype_card]
  rw [hcard, hcard]
  have hpow : (2 : ℕ) ^ k ≤ 2 ^ n := Nat.pow_le_pow_right Nat.two_pos h
  have hpow' := (Nat.pow_le_pow_left hpow k).trans (Nat.pow_le_pow_right (Nat.two_pow_pos n) h)
  exact Nat.succ_le_succ (Nat.mul_le_mul hpow hpow')

theorem remaining_lt_roundBound (e : Enumerator n) (t : Trace) :
    remaining e t < roundBound n := by
  have := Set.ncard_le_ncard (Set.subset_univ (modelValues e t)) (Set.toFinite _)
  rw [Set.ncard_univ] at this
  rw [remaining, roundBound]
  omega

theorem modelValues_subset (h : SameEncoding e e') (ht : Trace.Grows t t') :
    modelValues e' t' ⊆ modelValues e t := by
  rintro p ⟨σ, hσ, hv⟩
  exact ⟨σ, ht.models σ hσ, fun i => h.xVar_eq ▸ hv.x_eq i,
    fun i ii hne => h.cVar_eq ▸ hv.c_eq i ii hne⟩

/-- A round that excludes the values of a model makes progress. -/
theorem remaining_lt (h : SameEncoding e e') (ht : Trace.Grows t t') {σ : ℕ → Bool}
    (hσ : t.Models σ) (hno : ∀ σ', t'.Models σ' →
      ¬Values e.xVar e.cVar σ' (xValue e.xVar σ) (cValue e.cVar σ)) :
    remaining e' t' < remaining e t := by
  apply Set.ncard_lt_ncard _ (Set.toFinite _)
  refine ⟨modelValues_subset h ht, fun hsub => ?_⟩
  have hmem : (xValue e.xVar σ, cValue e.cVar σ) ∈ modelValues e t :=
    ⟨σ, hσ, fun _ => rfl, fun _ _ _ => rfl⟩
  obtain ⟨σ', hσ', hv⟩ := hsub hmem
  exact hno σ' hσ' ⟨fun i => h.xVar_eq ▸ hv.x_eq i, fun i ii hne => h.cVar_eq ▸ hv.c_eq i ii hne⟩

/-! ## `GetPmc` -/

theorem SameEncoding.solutionOf (h : SameEncoding e e') (σ : ℕ → Bool) :
    e'.solutionOf σ = e.solutionOf σ := by
  rw [Enumerator.solutionOf, h.xVar_eq]
  rfl

/-- A solve call. -/
theorem Step.solve (h : Inv e t) (as : List Lit) (b : Bool) (answer : Option (ℕ → Bool)) :
    Step e e t (.solve as b answer :: t) [] :=
  have hgrow := (Trace.Grows.refl h.wellScoped).solve as b answer
  ⟨SameEncoding.refl e, h.grows hgrow, hgrow,
    fun _ _ σ hσ hc => ⟨σ, AgreeBelow.refl _ σ, hσ, hc⟩⟩

/-- The clause that excludes a solution. -/
theorem Step.block {σ : ℕ → Bool} {clause : List Lit} (h : Inv e t)
    (hvalid : ∀ l ∈ clause, l.Valid t.numVars)
    (hholds : ∀ σ', Holds σ' clause ↔ ∃ i, xValue e.xVar σ' i ≠ xValue e.xVar σ i) :
    Step e e t (.addClause clause :: t) [e.solutionOf σ] := by
  have hgrow := (Trace.Grows.refl h.wellScoped).addClause hvalid
  refine ⟨SameEncoding.refl e, h.grows hgrow, hgrow, fun Ω hΩ σ' hσ' hc => ?_⟩
  refine ⟨σ', AgreeBelow.refl _ σ', Trace.models_addClause.mpr ⟨?_, hσ'⟩, hc⟩
  rw [hholds]
  by_contra hall
  push Not at hall
  apply hΩ _ (List.mem_singleton_self _)
  rw [vset_solutionOf]
  ext i
  change xValue e.xVar σ i = true ↔ i ∈ Ω
  rw [← hall i, xValue, hc.values.x_eq, decide_eq_true_iff]

/-- The result of a search that finds a clique. -/
structure Found (as : List Lit) (e e' : Enumerator n) (t t' : Trace)
    (pmc : List (Fin n)) : Prop where
  step : Step e e' t t' [pmc]
  isPmc : e.graph.toSimple.IsPmc (vset pmc)
  model : ∃ σ, t.Models σ ∧ (∀ l ∈ as, l.eval σ = true) ∧ pmc = e.solutionOf σ
  blocked : ∀ σ, t'.Models σ → e.solutionOf σ ≠ pmc
  progress : remaining e' t' < remaining e t

/-- The result of a search that ends without an answer. -/
structure Refuted (solver : Solver) (as : List Lit) (firstCall : Bool)
    (e e' : Enumerator n) (t t' : Trace) : Prop where
  step : Step e e' t t' []
  answer : ∃ t₁, t' = .solve as firstCall none :: t₁ ∧ solver.answer t₁ as firstCall = none

/-- The result of a search without a model. -/
structure Exhausted (as : List Lit) (e e' : Enumerator n) (t t' : Trace) : Prop where
  step : Step e e' t t' []
  unsat : ∀ σ, t'.Models σ → ¬∀ l ∈ as, l.eval σ = true

theorem Refuted.exhausted {solver : Solver} {as : List Lit} {firstCall : Bool}
    (hsolver : solver.Exact) (h : Refuted solver as firstCall e e' t t') :
    Exhausted as e e' t t' := by
  obtain ⟨t₁, rfl, hanswer⟩ := h.answer
  exact ⟨h.step, fun σ hσ => hsolver.complete t₁ as firstCall hanswer σ hσ⟩

/-- With a solver whose answers are models the search ends. -/
theorem wp_getPmc {solver : Solver} {sh : Shuffle} {as : List Lit} {firstCall : Bool}
    {fuel : ℕ} (hsolver : solver.Sound) (hg : e.graph.Valid) (hle : e.minsepEncoding ≤ 5)
    (h : Inv e t) (has : ∀ l ∈ as, l.Known t.numVars) (hfuel : remaining e t < fuel) :
    wp (getPmc solver sh as firstCall fuel e)
      (fun r t' => Found as e r.2 t t' r.1 ∨
        r.1 = [] ∧ Refuted solver as firstCall e r.2 t t') E t := by
  induction fuel generalizing e t with
  | zero => omega
  | succ fuel ih =>
      rw [getPmc, wp_bind]
      apply wp_solve has
      cases hans : solver.answer t as firstCall with
      | none =>
          rw [Option.isSome_none, if_neg Bool.false_ne_true, wp_pure]
          exact Or.inr ⟨rfl, Step.solve h as firstCall none, t, rfl, hans⟩
      | some σ =>
          obtain ⟨hσ, hσas⟩ := hsolver t as firstCall σ hans
          have hsolve := Step.solve h as firstCall (some σ)
          set t₁ : Trace := .solve as firstCall (some σ) :: t
          have hanswer : t₁.lastAnswer = some σ := rfl
          rw [Option.isSome_some, if_pos rfl, wp_bind]
          apply wp_readSolution hanswer hsolve.inv.lits.x_valid
          intro clause hvalid hholds
          have hnodup : (e.solutionOf σ).Nodup := (List.nodup_finRange n).filter _
          obtain ⟨b, hb, hiff⟩ := isPmc_spec hg hnodup
          rw [isPotentialMaximalClique_iff] at hiff
          change wp (ofOption (e.graph.isPmc (e.solutionOf σ)) >>= _) _ _ _
          rw [wp_bind, hb, wp_ofOption_some]
          cases b with
          | true =>
              rw [if_pos rfl, wp_bind]
              apply wp_addClause hvalid
              rw [wp_pure]
              have hblock := hsolve.trans (Step.block hsolve.inv hvalid hholds)
              have hno : ∀ σ', Trace.Models (.addClause clause :: t₁) σ' →
                  ∃ i, xValue e.xVar σ' i ≠ xValue e.xVar σ i := fun σ' hσ' =>
                (hholds σ').mp (Trace.models_addClause.mp hσ').1
              refine Or.inl ⟨hblock, hiff.mp rfl, ⟨σ, hσ, hσas, rfl⟩, fun σ' hσ' heq => ?_,
                remaining_lt hblock.same hblock.grows hσ fun σ' hσ' hv => ?_⟩
              · obtain ⟨i, hi⟩ := hno σ' hσ'
                rw [Ne, Bool.eq_iff_iff, ← mem_solutionOf, ← mem_solutionOf, heq] at hi
                exact hi Iff.rfl
              · obtain ⟨i, hi⟩ := hno σ' hσ'
                exact hi (hv.x_eq i)
          | false =>
              rw [if_neg Bool.false_ne_true, wp_bind]
              have hbad : ¬e.graph.toSimple.IsPmc (vset (e.solutionOf σ)) :=
                fun hpmc => Bool.false_ne_true (hiff.mpr hpmc)
              apply wp_imp (wp_blockBadSolution hg hle hsolve.inv hanswer hσ hbad)
              intro e₁ t₂ href
              have hstep := hsolve.trans (href.learns.step hsolve.inv.wellScoped)
              have hlt := remaining_lt hstep.same hstep.grows hσ href.excludes
              apply wp_imp (ih (hstep.same.graph_eq ▸ hg) (hstep.same.encoding_eq ▸ hle)
                hstep.inv (fun l hl => hstep.grows.known (has l hl)) (by omega))
              rintro ⟨pmc, e₂⟩ t₃ (hfound | ⟨hnil, hre⟩)
              · obtain ⟨σ', hσ', has', hpmc⟩ := hfound.model
                refine Or.inl ⟨hstep.trans hfound.step, hstep.same.graph_eq ▸ hfound.isPmc,
                  ⟨σ', hstep.grows.models σ' hσ', has', ?_⟩, fun σ'' hσ'' heq => ?_,
                  hfound.progress.trans hlt⟩
                · rw [hpmc, hstep.same.solutionOf]
                · exact hfound.blocked σ'' hσ'' ((hstep.same.solutionOf σ'').trans heq)
              · exact Or.inr ⟨hnil, hstep.trans hre.step, hre.answer⟩

end Enumerator

end Triangulator
