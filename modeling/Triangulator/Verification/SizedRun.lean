import Triangulator.Model.FixedSize
import Triangulator.Verification.Search
import Triangulator.Verification.Totalizer

/-!
# Enumeration in the order of a cost

A run of `AllPmcs(1)`, `AllPmcs(2)`, … over any inputs of the cardinality constraint.
The network allows exactly `k` true inputs and the totalizer at most `k`; both give
the cliques of least cost `k`, since those of smaller cost were excluded before.
-/

namespace Triangulator

open AbortM SimpleGraph

/-- The list consists of the sets of a family, each as one sorted vector. -/
structure Lists {n : ℕ} (family : Set (Set (Fin n))) (ls : List (List (Fin n))) : Prop where
  nodup : ls.Nodup
  sorted : ∀ l ∈ ls, l.Pairwise (· < ·)
  mem_iff : ∀ Ω, Ω ∈ family ↔ ∃ l ∈ ls, vset l = Ω

namespace SizedEnumerator

open Enumerator CardinalityNetworkBuilder

variable {n : ℕ} {t t' : Trace} {E : Trace → Prop}

/-! ## The loop of `AllPmcs` -/

/-- The result of a loop that lists the cliques that meet the assumptions. -/
structure AllFound (as : List Lit) (e e' : Enumerator n) (t t' : Trace)
    (found : List (List (Fin n))) : Prop where
  step : Step e e' t t' found
  isPmc : ∀ pmc ∈ found, e.graph.toSimple.IsPmc (vset pmc)
  model : ∀ pmc ∈ found, ∃ σ, t.Models σ ∧ (∀ l ∈ as, l.eval σ = true) ∧
    pmc = e.solutionOf σ
  nodup : found.Nodup
  blocked : ∀ σ, t'.Models σ → e.solutionOf σ ∉ found
  unsat : ∀ σ, t'.Models σ → ¬∀ l ∈ as, l.eval σ = true

theorem AllFound.of_exhausted {as : List Lit} {e e' : Enumerator n}
    (h : Exhausted as e e' t t') : AllFound as e e' t t' [] :=
  ⟨h.step, by simp, by simp, List.nodup_nil, by simp, h.unsat⟩

/-- A clique in front of those that are found later. -/
theorem AllFound.cons {as : List Lit} {e e' e'' : Enumerator n} {t'' : Trace}
    {pmc : List (Fin n)} {found : List (List (Fin n))} (h : Found as e e' t t' pmc)
    (h' : AllFound as e' e'' t' t'' found) : AllFound as e e'' t t'' (pmc :: found) := by
  have hsame := h.step.same
  refine ⟨h.step.trans h'.step, ?_, ?_, List.nodup_cons.mpr ⟨fun hmem => ?_, h'.nodup⟩,
    fun σ hσ hmem => ?_, h'.unsat⟩
  · intro p hp
    rcases List.mem_cons.mp hp with rfl | hp
    · exact h.isPmc
    · exact hsame.graph_eq ▸ h'.isPmc p hp
  · intro p hp
    rcases List.mem_cons.mp hp with rfl | hp
    · exact h.model
    · obtain ⟨σ, hσ, has, hpσ⟩ := h'.model p hp
      exact ⟨σ, h.step.grows.models σ hσ, has, hpσ.trans (hsame.solutionOf σ)⟩
  · obtain ⟨σ, hσ, -, hpσ⟩ := h'.model pmc hmem
    exact h.blocked σ hσ ((hsame.solutionOf σ).symm.trans hpσ.symm)
  · rcases List.mem_cons.mp hmem with heq | hmem
    · exact h.blocked σ (h'.step.grows.models σ hσ) heq
    · rw [← hsame.solutionOf σ] at hmem
      exact h'.blocked σ hσ hmem

/-- With a solver whose answers are models the loop ends, and with an exact one it lists all
cliques that meet the assumptions. -/
theorem wp_allPmcsLoop {solver : Solver} {sh : Shuffle} {as : List Lit} {firstCall : Bool}
    {fuel rounds : ℕ} {pmcs : List (List (Fin n))} {e : Enumerator n}
    (hsolver : solver.Sound) (hg : e.graph.Valid) (hle : e.minsepEncoding ≤ 5)
    (h : Inv e t) (has : ∀ l ∈ as, l.Known t.numVars) (hfuel : remaining e t < fuel)
    (hrounds : remaining e t < rounds) :
    wp (allPmcsLoop solver sh as fuel rounds firstCall pmcs e)
      (fun r t' => 0 < n → solver.Exact →
        ∃ found, r.1 = pmcs ++ found ∧ AllFound as e r.2 t t' found) E t := by
  induction rounds generalizing firstCall pmcs e t with
  | zero => omega
  | succ rounds ih =>
      rw [allPmcsLoop, wp_bind]
      apply wp_imp (wp_getPmc hsolver hg hle h has hfuel)
      rintro ⟨pmc, e₁⟩ t₁ (hfound | ⟨rfl, hre⟩)
      · have hlt := hfound.progress
        have hsame := hfound.step.same
        apply wp_ite
        · intro h0 hn
          have : Nonempty (Fin n) := ⟨⟨0, hn⟩⟩
          obtain ⟨w, hw⟩ := hfound.isPmc.nonempty
          rw [List.length_eq_zero_iff.mp h0] at hw
          cases hw
        · intro _
          apply wp_imp (ih (hsame.graph_eq ▸ hg) (hsame.encoding_eq ▸ hle) hfound.step.inv
            (fun l hl => hfound.step.grows.known (has l hl)) (by omega) (by omega))
          intro r t₂ hr hn hexact
          obtain ⟨found, hr, hall⟩ := hr hn hexact
          exact ⟨pmc :: found, by rw [hr, List.append_assoc]; rfl, hall.cons hfound⟩
      · dsimp only
        rw [if_pos (List.length_nil), wp_pure]
        intro _ hexact
        exact ⟨[], (List.append_nil pmcs).symm, AllFound.of_exhausted (hre.exhausted hexact)⟩

/-! ## The cardinality constraint -/

/-- The state of the cardinality constraint over `input` when the sizes up to `k` were
used. -/
structure CardInv (e : SizedEnumerator n) (input : List Lit) (t : Trace) (k : ℕ) :
    Prop where
  le_one : e.cardEncoding ≤ 1
  valid : ∀ l ∈ input, l.Valid t.numVars
  length_eq : e.cardinalityNetwork.length = input.length
  known : ∀ l ∈ e.cardinalityNetwork, l.Known t.numVars
  network : e.cardEncoding = 0 → SortedOutput t e.cardinalityNetwork input.length
    fun σ => countTrue σ input
  totalizer : e.cardEncoding = 1 → e.tb.Inv t e.cardinalityNetwork ∧ e.tb.input = input ∧
    e.tb.curSize ≤ k + 1

/-- The assignment makes `j` inputs true and the outputs say so. -/
structure CardModel (e : SizedEnumerator n) (input : List Lit) (σ : ℕ → Bool) (j : ℕ) :
    Prop where
  count : countTrue σ input = j
  counts : e.cardEncoding = 1 → e.tb.Counts σ j

theorem CardInv.grows {e : SizedEnumerator n} {input : List Lit} {k : ℕ}
    (h : CardInv e input t k) (ht : Trace.Grows t t') : CardInv e input t' k := by
  refine ⟨h.le_one, fun l hl => ht.valid (h.valid l hl), h.length_eq,
    fun l hl => ht.known (h.known l hl), fun h0 => (h.network h0).grows ht, fun h1 => ?_⟩
  obtain ⟨hinv, hin, hcur⟩ := h.totalizer h1
  exact ⟨hinv.grows ht, hin, hcur⟩

theorem CardModel.congr {e : SizedEnumerator n} {input : List Lit} {σ σ' : ℕ → Bool}
    {j k : ℕ} (h : CardInv e input t k) (hm : CardModel e input σ j)
    (ha : AgreeBelow t.numVars σ σ') : CardModel e input σ' j :=
  ⟨(countTrue_congr h.valid ha).trans hm.count, fun h1 =>
    (hm.counts h1).congr (h.totalizer h1).1 ha⟩

/-- The assumptions in an assignment. -/
theorem assumptions_iff {e : SizedEnumerator n} {k : ℕ} {σ : ℕ → Bool} {N : ℕ}
    (hknown : ∀ l ∈ e.cardinalityNetwork, l.Known N) :
    (∀ l ∈ e.assumptions k, l.eval σ = true) ↔ ∀ i < e.cardinalityNetwork.length,
      (e.cardinalityNetwork.getD i .undef).eval σ = decide (i < k) := by
  have hlit : ∀ (l : Lit) i, l.Known N → ((if i < k then l else -l).eval σ = true ↔
      l.eval σ = decide (i < k)) := by
    intro l i hl
    by_cases hi : i < k
    · simp [hi]
    · simp [hi, hl.valid.eval_neg]
  rw [assumptions, List.forall_mem_map]
  constructor
  · intro h i hi
    have hmem : (e.cardinalityNetwork[i], i) ∈ e.cardinalityNetwork.zipIdx :=
      List.mem_zipIdx_iff_getElem?.mpr (List.getElem?_eq_getElem hi)
    rw [List.getD_eq_getElem _ _ hi, ← hlit _ i (hknown _ (List.getElem_mem hi))]
    exact h _ hmem
  · rintro h ⟨l, i⟩ hmem
    have hget : e.cardinalityNetwork[i]? = some l := List.mem_zipIdx_iff_getElem?.mp hmem
    have hi : i < e.cardinalityNetwork.length := (List.getElem?_eq_some_iff.mp hget).1
    have hl := h i hi
    rw [List.getD_eq_getElem?_getD, hget, Option.getD_some] at hl
    exact (hlit l i (hknown l (List.mem_of_getElem? hget))).mpr hl

theorem assumptions_known {e : SizedEnumerator n} {k N : ℕ}
    (hknown : ∀ l ∈ e.cardinalityNetwork, l.Known N) :
    ∀ l ∈ e.assumptions k, l.Known N := by
  intro l hl
  obtain ⟨⟨x, i⟩, hmem, rfl⟩ := List.mem_map.mp hl
  have hx := hknown x (List.mem_of_getElem? (List.mem_zipIdx_iff_getElem?.mp hmem))
  dsimp only
  split
  · exact hx
  · exact Lit.known_neg.mpr hx

/-- The assumptions of the size `k` in a model. -/
theorem CardInv.count_le {e : SizedEnumerator n} {input : List Lit} {k : ℕ}
    (h : CardInv e input t k) (hbuilt : e.cardEncoding = 1 → e.tb.curSize = k + 1)
    (hk : k ≤ input.length) (hk1 : e.cardEncoding = 1 → k < input.length) {σ : ℕ → Bool}
    (hσ : t.Models σ) (has : ∀ l ∈ e.assumptions k, l.eval σ = true) :
    countTrue σ input ≤ k := by
  rw [assumptions_iff h.known, h.length_eq] at has
  rcases Nat.le_one_iff_eq_zero_or_eq_one.mp h.le_one with h0 | h1
  · have hs := h.network h0
    by_contra hlt
    have hle : countTrue σ input ≤ input.length := List.countP_le_length
    have htrue := hs.eval_getD (i := k) (by omega) hσ
    rw [has k (by omega)] at htrue
    simp only [decide_eq_decide] at htrue
    omega
  · obtain ⟨hinv, hin, -⟩ := h.totalizer h1
    rw [← hin]
    apply hinv.countTrue_le (hbuilt h1).ge (by rw [h.length_eq]; exact hk1 h1) hσ
    rw [has k (hk1 h1)]
    simp

/-- The values for `k` true inputs meet the assumptions. -/
theorem CardInv.assumptions {e : SizedEnumerator n} {input : List Lit} {k : ℕ}
    (h : CardInv e input t k) {σ : ℕ → Bool} {j : ℕ} (hσ : t.Models σ)
    (hm : CardModel e input σ j) : ∀ l ∈ e.assumptions j, l.eval σ = true := by
  rw [assumptions_iff h.known]
  intro i hi
  rcases Nat.le_one_iff_eq_zero_or_eq_one.mp h.le_one with h0 | h1
  · rw [h.length_eq] at hi
    rw [(h.network h0).eval_getD hi hσ, hm.count]
  · exact (hm.counts h1).eval_out (h.totalizer h1).1 hi

/-- The part of `AllPmcs` that builds more outputs. -/
theorem wp_buildCounter {e : SizedEnumerator n} {input : List Lit} {k : ℕ} (ht : t.Scoped)
    (h : CardInv e input t k) (hk1 : e.cardEncoding = 1 → k + 1 < input.length) :
    wp (if e.cardEncoding = 1 then e.tb.buildToSize (k + 1 + 1) else pure e.tb)
      (fun tb t' => Trace.Grows t t' ∧ CardInv { e with tb := tb } input t' (k + 1) ∧
        (e.cardEncoding = 1 → tb.curSize = (k + 1 : ℕ) + 1) ∧
        ∀ σ j, t.Models σ → CardModel e input σ j → ∃ σ', AgreeBelow t.numVars σ σ' ∧
          t'.Models σ' ∧ CardModel { e with tb := tb } input σ' j) E t := by
  by_cases h1 : e.cardEncoding = 1
  · obtain ⟨hinv, hin, hcur⟩ := h.totalizer h1
    rw [if_pos h1]
    apply wp_imp (TotalizerBuilder.wp_buildToSize ht hinv (by omega)
      (by rw [hin]; exact hk1 h1) (by push_cast; omega))
    rintro tb t' ⟨hinv', hcur', hin', hgrow, hext⟩
    refine ⟨hgrow, ⟨h.le_one, fun l hl => hgrow.valid (h.valid l hl), h.length_eq,
      fun l hl => hgrow.known (h.known l hl), fun h0 => (h.network h0).grows hgrow,
      fun _ => ⟨hinv', hin'.trans hin, by rw [hcur']; push_cast; omega⟩⟩,
      fun _ => hcur', fun σ j hσ hm => ?_⟩
    obtain ⟨σ', ha, hσ', hc⟩ := hext σ j hσ (hm.counts h1) (by rw [hin, hm.count])
    exact ⟨σ', ha, hσ', (countTrue_congr h.valid ha).trans hm.count, fun _ => hc⟩
  · rw [if_neg h1, wp_pure]
    exact ⟨Trace.Grows.refl ht, ⟨h.le_one, h.valid, h.length_eq, h.known, h.network,
      fun h1' => absurd h1' h1⟩, fun h1' => absurd h1' h1,
      fun σ j hσ hm => ⟨σ, AgreeBelow.refl _ σ, hσ, hm.count, hm.counts⟩⟩

/-! ## The run -/

/-- The state after the calls up to `k`, for inputs of which `j` can be true in a
solution `Ω` when `R Ω j`: the cliques of cost at most `k` are excluded, and all others
have models. -/
structure RunInv (R : Set (Fin n) → ℕ → Prop) (g : Graph n) (input : List Lit)
    (e : SizedEnumerator n) (t : Trace) (k : ℕ) : Prop where
  graph_eq : e.graph = g
  encoding_le : e.minsepEncoding ≤ 5
  inv : Inv e.toEnumerator t
  card : CardInv e input t k
  sound : ∀ σ, t.Models σ → R (solutionSet (xValue e.xVar σ)) (countTrue σ input)
  blocked : ∀ σ, t.Models σ → g.toSimple.IsPmc (solutionSet (xValue e.xVar σ)) →
    ∀ j ≤ k, ¬R (solutionSet (xValue e.xVar σ)) j
  complete : ∀ Ω, g.toSimple.IsPmc (vset Ω) → (∀ j ≤ k, ¬R (vset Ω) j) →
    ∀ j, R (vset Ω) j →
    ∃ σ, t.Models σ ∧ Canonical e.toEnumerator σ Ω ∧ CardModel e input σ j

theorem wp_allPmcs {solver : Solver} {sh : Shuffle} {R : Set (Fin n) → ℕ → Prop}
    {g : Graph n} {input : List Lit} {e : SizedEnumerator n} {fuel k : ℕ}
    (hsolver : solver.Exact) (hn : 0 < n) (hg : g.Valid) (hfuel : roundBound n ≤ fuel)
    (hk : k + 1 ≤ input.length) (hk1 : e.cardEncoding = 1 → k + 1 < input.length)
    (h : RunInv R g input e t k) :
    wp (allPmcs solver sh fuel (k + 1) e)
      (fun r t' => RunInv R g input r.2 t' (k + 1) ∧ r.2.cardEncoding = e.cardEncoding ∧
        Lists {Ω | g.toSimple.IsPmc Ω ∧ IsLeast {j | R Ω j} (k + 1)} r.1) E t := by
  rw [allPmcs, wp_bind]
  apply wp_imp (wp_buildCounter h.inv.wellScoped h.card hk1)
  rintro tb t₁ ⟨hgrow, hcard, hbuilt, hext⟩
  have hinv := h.inv.grows hgrow
  have hknown := hcard.known
  rw [wp_bind]
  have hlt := fun t => lt_of_lt_of_le (remaining_lt_roundBound e.toEnumerator t) hfuel
  apply wp_imp (wp_allPmcsLoop hsolver.sound (h.graph_eq ▸ hg) h.encoding_le hinv
    (assumptions_known (e := e) hknown) (hlt t₁) (hlt t₁))
  rintro ⟨pmcs, e₁⟩ t₂ hlist
  obtain ⟨found, hfound, hall⟩ := hlist hn hsolver
  dsimp only at hfound hall
  rw [List.nil_append] at hfound
  subst hfound
  rw [wp_pure]
  have hgrow₂ := hall.step.grows
  have hsame := hall.step.same
  have hsol : ∀ σ, xValue e₁.xVar σ = xValue e.xVar σ := fun σ => by rw [hsame.xVar_eq]
  -- The cliques found have least cost `k + 1`.
  have hcost : ∀ pmc ∈ pmcs, IsLeast {j | R (vset pmc) j} (k + 1) := by
    intro pmc hpmc
    obtain ⟨σ, hσ, has, rfl⟩ := hall.model pmc hpmc
    have hΩ := hall.isPmc _ hpmc
    rw [vset_solutionOf] at hΩ ⊢
    have hσ₀ := hgrow.models σ hσ
    have hR := h.sound σ hσ₀
    have hno := h.blocked σ hσ₀ (h.graph_eq ▸ hΩ)
    have hle := hcard.count_le hbuilt hk hk1 hσ has
    have hcount : countTrue σ input = k + 1 := by
      by_contra hne
      exact hno _ (by omega) hR
    rw [hcount] at hR
    refine ⟨hR, fun j hj => ?_⟩
    by_contra hlt
    exact hno j (by omega) hj
  -- A clique of least cost `k + 1` has a model that meets the assumptions.
  have hcomplete : ∀ Ω, g.toSimple.IsPmc (vset Ω) → IsLeast {j | R (vset Ω) j} (k + 1) →
      ∃ pmc ∈ pmcs, vset pmc = vset Ω := by
    intro Ω hΩ hleast
    by_contra hnone
    push Not at hnone
    have hno : ∀ j ≤ k, ¬R (vset Ω) j := fun j hj hR => by
      have := hleast.2 hR
      omega
    obtain ⟨σ, hσ, hcan, hm⟩ := h.complete Ω hΩ hno (k + 1) hleast.1
    obtain ⟨σ₁, ha₁, hσ₁, hm₁⟩ := hext σ (k + 1) hσ hm
    obtain ⟨σ₂, ha₂, hσ₂, -⟩ := hall.step.keep Ω hnone σ₁ hσ₁ (hcan.congr h.inv ha₁)
    have has := hcard.assumptions hσ₁ hm₁
    exact hall.unsat σ₂ hσ₂ fun l hl =>
      (ha₂.eval (assumptions_known (e := e) hknown l hl).valid).trans (has l hl)
  refine ⟨⟨hsame.graph_eq.trans h.graph_eq, hsame.encoding_eq ▸ h.encoding_le,
    hall.step.inv, ?_, fun σ hσ => ?_, fun σ hσ hΩ j hj hR => ?_,
    fun Ω hΩ hno j hR => ?_⟩, rfl, hall.nodup, fun l hl => ?_, fun Ω => ?_⟩
  · have h' := hcard.grows hgrow₂
    exact ⟨h'.le_one, h'.valid, h'.length_eq, h'.known, h'.network, h'.totalizer⟩
  · dsimp only
    rw [hsol]
    exact h.sound σ (hgrow.models σ (hgrow₂.models σ hσ))
  · dsimp only at hΩ hR
    rw [hsol] at hΩ hR
    have hno := h.blocked σ (hgrow.models σ (hgrow₂.models σ hσ)) hΩ
    have hjk : j = k + 1 := by
      by_contra hne
      exact hno j (by omega) hR
    subst hjk
    have hset := vset_solutionOf e.toEnumerator σ
    obtain ⟨pmc, hpmc, heq⟩ := hcomplete (e.solutionOf σ) (hset ▸ hΩ) (hset ▸
      ⟨hR, fun i hi => by
        by_contra hlt
        exact hno i (by omega) hi⟩)
    obtain ⟨σ', -, -, hpmc'⟩ := hall.model pmc hpmc
    apply hall.blocked σ hσ
    rw [← eq_of_vset_eq (hpmc' ▸ solutionOf_sorted _ σ') (solutionOf_sorted _ σ) heq]
    exact hpmc
  · obtain ⟨σ, hσ, hcan, hm⟩ := h.complete Ω hΩ (fun i hi => hno i (by omega)) j hR
    obtain ⟨σ₁, ha₁, hσ₁, hm₁⟩ := hext σ j hσ hm
    obtain ⟨σ₂, ha₂, hσ₂, hcan₂⟩ := hall.step.keep Ω (fun pmc hpmc heq =>
      hno (k + 1) le_rfl (heq ▸ (hcost pmc hpmc).1)) σ₁ hσ₁ (hcan.congr h.inv ha₁)
    have hm₂ := hm₁.congr hcard ha₂
    exact ⟨σ₂, hσ₂, hcan₂, hm₂.count, hm₂.counts⟩
  · obtain ⟨σ, -, -, rfl⟩ := hall.model l hl
    exact solutionOf_sorted _ σ
  · constructor
    · rintro ⟨hΩ, hleast⟩
      classical
      set l := (List.finRange n).filter fun v => decide (v ∈ Ω)
      have hl : vset l = Ω := by
        ext v
        simp [l]
      obtain ⟨pmc, hpmc, heq⟩ := hcomplete l (hl ▸ hΩ) (hl ▸ hleast)
      exact ⟨pmc, hpmc, heq.trans hl⟩
    · rintro ⟨l, hl, rfl⟩
      exact ⟨h.graph_eq ▸ hall.isPmc l hl, hcost l hl⟩

/-- The calls `AllPmcs(1)`, …, `AllPmcs(K)` list the cliques by least cost. -/
theorem wp_run {solver : Solver} {sh : Shuffle} {R : Set (Fin n) → ℕ → Prop}
    {g : Graph n} {input : List Lit} {e : SizedEnumerator n} {fuel K : ℕ}
    (hsolver : solver.Exact) (hn : 0 < n) (hg : g.Valid) (hfuel : roundBound n ≤ fuel)
    (hK : K ≤ input.length) (hK1 : e.cardEncoding = 1 → K < input.length)
    (h : RunInv R g input e t 0) :
    wp (e.run solver sh fuel K)
      (fun r _ => r.1.length = K ∧ ∀ k < K,
        Lists {Ω | g.toSimple.IsPmc Ω ∧ IsLeast {j | R Ω j} (k + 1)} (r.1.getD k [])) E t := by
  have hloop := wp_foldlM_range' (E := E) (k := 1) (m := K) (s := t)
    (f := fun (s : List (List (List (Fin n))) × SizedEnumerator n) k => do
      let r ← allPmcs solver sh fuel k s.2
      pure (s.1 ++ [r.1], r.2))
    (b := ([], e))
    (fun k s t' => RunInv R g input s.2 t' k ∧ s.2.cardEncoding = e.cardEncoding ∧
      s.1.length = k ∧ ∀ i < k,
        Lists {Ω | g.toSimple.IsPmc Ω ∧ IsLeast {j | R Ω j} (i + 1)} (s.1.getD i []))
    ⟨h, rfl, rfl, fun i hi => absurd hi (Nat.not_lt_zero i)⟩ ?_
  · rw [run]
    apply wp_imp hloop
    rintro r t' ⟨-, -, hlen, hlists⟩
    exact ⟨hlen, hlists⟩
  rintro k hk s t₁ ⟨hinv, henc, hlen, hlists⟩
  rw [wp_bind, Nat.add_comm 1 k]
  apply wp_imp (wp_allPmcs hsolver hn hg hfuel (by omega)
    (fun h1 => by have := hK1 (henc ▸ h1); omega) hinv)
  rintro r t₂ ⟨hinv', henc', hlist⟩
  rw [wp_pure]
  refine ⟨hinv', henc'.trans henc, by rw [List.length_append, hlen]; rfl, fun i hi => ?_⟩
  rcases Nat.lt_succ_iff_lt_or_eq.mp hi with hi | rfl
  · rw [List.getD_append _ _ _ _ (hlen ▸ hi)]
    exact hlists i hi
  · rw [List.getD_append_right _ _ _ _ hlen.le, hlen, Nat.sub_self]
    exact hlist

end SizedEnumerator

end Triangulator
