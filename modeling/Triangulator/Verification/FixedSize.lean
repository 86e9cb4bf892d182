import Triangulator.Verification.GraphUpdate
import Triangulator.Verification.SizedRun

/-!
# Enumeration of the cliques of a size

The constructor of `FixedSizeEnumerator` establishes the invariant of the run with the
number of vertices as the cost of a clique.
-/

namespace Triangulator

open AbortM SimpleGraph

namespace SizedEnumerator

open Enumerator CardinalityNetworkBuilder

variable {n : ℕ} {t t' : Trace} {E : Trace → Prop}

/-- Freezing a list of literals. -/
theorem emits_freezeVars {N : ℕ} {ls : List Lit} (h : ∀ l ∈ ls, l.Known N) :
    Emits N (forM ls freezeVar) fun _ => True := by
  apply (Emits.forM fun l hl => ?_ : Emits N (forM ls freezeVar) fun _ => ∀ l ∈ ls, True).congr
  · simp
  · have hk := h l hl
    cases l with
    | undef => cases hk
    | const b => cases hk
    | var b v => exact Emits.freezeVar hk

/-- The outputs of either encoding, with values for every number of true inputs. -/
theorem wp_cardinalityOutputs {cardEncoding : ℕ} {input : List Lit} (e : Enumerator n)
    (ht : t.Scoped) (hle : cardEncoding ≤ 1) (h2 : 2 ≤ input.length)
    (hinput : ∀ l ∈ input, l.Known t.numVars) :
    wp (cardinalityOutputs cardEncoding input)
      (fun r t' => Trace.Grows t t' ∧ CardInv ⟨e, r.1, cardEncoding, r.2⟩ input t' 0 ∧
        ∀ σ j, t.Models σ → countTrue σ input = j → ∃ σ', AgreeBelow t.numVars σ σ' ∧
          t'.Models σ' ∧ CardModel ⟨e, r.1, cardEncoding, r.2⟩ input σ' j) E t := by
  have hvalid : ∀ l ∈ input, l.Valid t.numVars := fun l hl => (hinput l hl).valid
  rw [cardinalityOutputs]
  rcases Nat.le_one_iff_eq_zero_or_eq_one.mp hle with rfl | rfl
  · rw [if_pos rfl, wp_bind]
    apply wp_imp (wp_equalNetwork ht h2 hvalid)
    rintro r t' ⟨hcons, hsorted⟩
    rw [wp_pure]
    refine ⟨hcons.toGrows, ⟨hle, fun l hl => hcons.toGrows.valid (hvalid l hl),
      hsorted.length_eq, hsorted.known, fun _ => hsorted, fun h => absurd h Nat.zero_ne_one⟩,
      fun σ j hσ hj => ?_⟩
    obtain ⟨σ', ha, hσ'⟩ := hcons.extend σ hσ
    exact ⟨σ', ha, hσ', (countTrue_congr hvalid ha).trans hj,
      fun h => absurd h Nat.zero_ne_one⟩
  · rw [if_neg Nat.one_ne_zero, if_pos rfl]
    apply wp_imp (TotalizerBuilder.wp_init ht h2 hvalid)
    rintro r t' ⟨hinv, hcur, hin, hgrow, hvars, hext⟩
    refine ⟨hgrow, ⟨hle, fun l hl => hgrow.valid (hvalid l hl),
      hinv.length_out.trans (congrArg List.length hin), fun l hl => ?_,
      fun h => absurd h Nat.one_ne_zero, fun _ => ⟨hinv, hin, by rw [hcur]; omega⟩⟩,
      fun σ j hσ hj => ?_⟩
    · obtain ⟨v, rfl, hv⟩ := hvars l hl
      exact hv
    · obtain ⟨σ', ha, hσ', hc⟩ := hext σ j hσ
      exact ⟨σ', ha, hσ', (countTrue_congr hvalid ha).trans hj, fun _ => hc⟩

/-- The cardinality constraint does not restrict the other variables. -/
theorem wp_withCardinality {cardEncoding : ℕ} {input : List Lit} {e : Enumerator n}
    (ht : t.Scoped) (hle : cardEncoding ≤ 1) (h2 : 2 ≤ input.length)
    (hinput : ∀ l ∈ input, l.Known t.numVars) :
    wp (withCardinality e cardEncoding input input.length)
      (fun se t' => se.toEnumerator = e ∧ se.cardEncoding = cardEncoding ∧
        Trace.Grows t t' ∧ CardInv se input t' 0 ∧
        ∀ σ j, t.Models σ → countTrue σ input = j → ∃ σ', AgreeBelow t.numVars σ σ' ∧
          t'.Models σ' ∧ CardModel se input σ' j) E t := by
  rw [withCardinality, wp_bind]
  apply wp_imp (wp_cardinalityOutputs e ht hle h2 hinput)
  rintro r t₁ ⟨hgrow, hcard, hext⟩
  rw [wp_bind]
  apply wp_assert_of (decide_eq_true hcard.length_eq)
  rw [wp_bind]
  apply (emits_freezeVars hcard.known).wp hgrow.wellScoped le_rfl
  intro t₂ hnum ht₂ hmod
  have hgrow₂ : Trace.Grows t₁ t₂ := ⟨hnum.ge, ht₂, fun σ hσ => ((hmod σ).mp hσ).1⟩
  rw [wp_pure]
  refine ⟨rfl, rfl, hgrow.trans hgrow₂, hcard.grows hgrow₂, fun σ j hσ hj => ?_⟩
  obtain ⟨σ', ha, hσ', hm⟩ := hext σ j hσ hj
  exact ⟨σ', ha, (hmod σ').mpr ⟨hσ', trivial⟩, hm⟩

/-- The invariant holds before the first call, for inputs that only restrict the
solutions by `R`. -/
theorem wp_withCardinality_runInv {R : Set (Fin n) → ℕ → Prop} {g : Graph n}
    {cardEncoding : ℕ} {input : List Lit} {e : Enumerator n} (hinv : Inv e t)
    (hgraph : e.graph = g) (henc : e.minsepEncoding ≤ 5) (hle : cardEncoding ≤ 1)
    (h2 : 2 ≤ input.length) (hinput : ∀ l ∈ input, l.Known t.numVars)
    (hsound : ∀ σ, t.Models σ → R (solutionSet (xValue e.xVar σ)) (countTrue σ input))
    (hpos : ∀ Ω, g.toSimple.IsPmc Ω → ¬R Ω 0)
    (hcomplete : ∀ Ω, g.toSimple.IsPmc (vset Ω) → ∀ j, R (vset Ω) j →
      ∃ σ, t.Models σ ∧ Canonical e σ Ω ∧ countTrue σ input = j) :
    wp (withCardinality e cardEncoding input input.length)
      (fun se t' => RunInv R g input se t' 0 ∧ se.cardEncoding = cardEncoding) E t := by
  apply wp_imp (wp_withCardinality hinv.wellScoped hle h2 hinput)
  rintro se t' ⟨rfl, hcard, hgrow, hcardInv, hext⟩
  refine ⟨⟨hgraph, henc, hinv.grows hgrow, hcardInv,
    fun σ hσ => hsound σ (hgrow.models σ hσ), fun σ hσ hΩ j hj => ?_,
    fun Ω hΩ _ j hj => ?_⟩, hcard⟩
  · obtain rfl := Nat.le_zero.mp hj
    exact hpos _ hΩ
  · obtain ⟨σ, hσ, hcan, hcount⟩ := hcomplete Ω hΩ j hj
    obtain ⟨σ', ha, hσ', hm⟩ := hext σ j hσ hcount
    exact ⟨σ', hσ', hcan.congr hinv ha, hm⟩

end SizedEnumerator

/-! ## Graphs -/

namespace FixedSizeEnumerator

open Enumerator SizedEnumerator CardinalityNetworkBuilder

variable {n : ℕ} {g : Graph n}

theorem countTrue_xVars {e : Enumerator n} {σ : ℕ → Bool} :
    countTrue σ e.xVars = (solutionSet (xValue e.xVar σ)).ncard := by
  rw [← vset_filter_finRange, ncard_vset ((List.nodup_finRange n).filter _),
    ← List.countP_eq_length_filter, xVars, countTrue, List.countP_map]
  rfl

theorem isLeast_ncard_iff {Ω : Set (Fin n)} {k : ℕ} :
    IsLeast {j | Ω.ncard = j} k ↔ Ω.ncard = k := by
  constructor
  · intro h
    exact h.1
  · intro h
    exact ⟨h, fun j hj => (h.symm.trans hj).le⟩

/-- The constructor establishes the invariant with the number of vertices as
cost. -/
theorem wp_new {minsepEncoding cardEncoding : ℕ} {E : Trace → Prop} (hg : g.Valid)
    (hn : 2 ≤ n) (henc : minsepEncoding ≤ 5) (hcard : cardEncoding ≤ 1) :
    wp (new g minsepEncoding cardEncoding)
      (fun e t => ∃ input, input.length = n ∧ e.cardEncoding = cardEncoding ∧
        RunInv (fun Ω j => Ω.ncard = j) g input e t 0) E [] := by
  have : Nonempty (Fin n) := ⟨⟨0, by omega⟩⟩
  rw [new, wp_bind]
  apply wp_imp (Enumerator.wp_new hg minsepEncoding)
  rintro e t ⟨hinv, rfl, rfl, -, hmodel⟩
  have hlen : e.xVars.length = n := by simp [xVars]
  have hknown : ∀ l ∈ e.xVars, l.Known t.numVars := by
    intro l hl
    obtain ⟨i, -, rfl⟩ := List.mem_map.mp hl
    obtain ⟨v, hv, hlt⟩ := hinv.lits.x_var i
    rw [hv]
    exact hlt
  have hrun := wp_withCardinality_runInv (E := E) (R := fun Ω j => Ω.ncard = j) hinv rfl henc
    hcard (by omega) hknown (fun σ _ => countTrue_xVars.symm) ?_ ?_
  · rw [hlen] at hrun
    apply wp_imp hrun
    rintro se t' ⟨h, hc⟩
    exact ⟨e.xVars, hlen, hc, h⟩
  · intro Ω hΩ h0
    exact hΩ.nonempty.ne_empty ((Set.ncard_eq_zero (Set.toFinite Ω)).mp h0)
  · intro Ω hΩ j hj
    obtain ⟨σ, hσ, hcan⟩ := hmodel Ω hΩ
    refine ⟨σ, hσ, hcan, ?_⟩
    rw [countTrue_xVars, ← hj]
    congr 1
    ext i
    change xValue e.xVar σ i = true ↔ i ∈ Ω
    rw [xValue, hcan.values.x_eq, decide_eq_true_iff]

/-- The calls with enough fuel for all rounds. -/
theorem exists_run {minsepEncoding cardEncoding K fuel : ℕ} {solver : Solver}
    (hsolver : solver.Exact) (sh : Shuffle) (hg : g.Valid) (hn : 2 ≤ n)
    (henc : minsepEncoding ≤ 5) (hcard : cardEncoding ≤ 1) (hK : K ≤ n)
    (hK1 : cardEncoding = 1 → K < n) (hfuel : roundBound n ≤ fuel) :
    ∃ lists t, run g minsepEncoding cardEncoding solver sh fuel K [] = (some lists, t) ∧
      lists.length = K ∧ ∀ k < K,
        Lists {Ω | g.toSimple.IsPmc Ω ∧ Ω.ncard = k + 1} (lists.getD k []) := by
  apply exists_of_wp
  rw [run, wp_bind]
  apply wp_imp (wp_new hg hn henc hcard)
  rintro e t ⟨input, hlen, hc, hinv⟩
  rw [wp_bind]
  apply wp_imp (wp_run hsolver (by omega) hg hfuel (by omega)
    (fun h1 => by rw [hlen]; exact hK1 (hc ▸ h1)) hinv)
  rintro r t' ⟨hlength, hlists⟩
  rw [wp_pure]
  refine ⟨hlength, fun k hk => ?_⟩
  simpa only [isLeast_ncard_iff] using hlists k hk

/-- The calls `AllPmcs(1)`, …, `AllPmcs(K)` return, and the `k`-th one lists the
potential maximal cliques with `k` vertices. -/
theorem allPmcs_of_size {minsepEncoding cardEncoding K : ℕ} {solver : Solver}
    (hsolver : solver.Exact) (sh : Shuffle) (hg : g.Valid) (hn : 2 ≤ n)
    (henc : minsepEncoding ≤ 5) (hcard : cardEncoding ≤ 1) (hK : K ≤ n)
    (hK1 : cardEncoding = 1 → K < n) :
    ∃ N, ∀ fuel ≥ N, ∃ lists t,
      run g minsepEncoding cardEncoding solver sh fuel K [] = (some lists, t) ∧
      lists.length = K ∧ ∀ k < K,
        Lists {Ω | g.toSimple.IsPotentialMaximalClique Ω ∧ Ω.ncard = k + 1}
          (lists.getD k []) := by
  refine ⟨roundBound n, fun fuel hfuel => ?_⟩
  obtain ⟨lists, t, hrun, hlength, hlists⟩ :=
    exists_run hsolver sh hg hn henc hcard hK hK1 hfuel
  refine ⟨lists, t, hrun, hlength, fun k hk => ?_⟩
  simpa only [isPotentialMaximalClique_iff] using hlists k hk

theorem allPmcs_of_size_cycle :
    ∃ g, fourCycle = some g ∧ ∃ N, ∀ fuel ≥ N, ∃ lists t,
      run g 0 0 Solver.choice Shuffle.none fuel 4 [] = (some lists, t) ∧
      lists.length = 4 ∧ ∀ k < 4,
        Lists {Ω | g.toSimple.IsPotentialMaximalClique Ω ∧ Ω.ncard = k + 1}
          (lists.getD k []) := by
  obtain ⟨g, hcycle, hg, -⟩ := exists_fourCycle
  exact ⟨g, hcycle, allPmcs_of_size Solver.exact_choice Shuffle.none hg (by decide)
    (Nat.zero_le 5) (Nat.zero_le 1) le_rfl fun h => absurd h Nat.zero_ne_one⟩

end FixedSizeEnumerator

end Triangulator
