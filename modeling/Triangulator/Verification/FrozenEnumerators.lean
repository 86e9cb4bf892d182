import Triangulator.Verification.FrozenRuns

/-!
# The freeze discipline of the two enumerators

The runs of all graphs and hypergraphs.  An enumerator whose cardinality constraint has fewer
than two inputs aborts before its first `Solve` call.  The first call of `AllPmcs` of every
other enumerator returns, so that the second one extends the totalizer.
-/

namespace Triangulator

open AbortM SimpleGraph

/-! ## Constraints with fewer than two inputs -/

/-- Before the first `Solve` call there is no answer, and nothing was eliminated. -/
theorem Trace.Unsolved.balanced {n : ℕ} {g : Graph n} {t : Trace} (h : t.Unsolved) :
    Enumerator.Balanced g t :=
  iff_of_true h.disciplined fun as b σ hmem => (h (.solve as b (some σ)) hmem).elim

/-- There is no sorting network over fewer than two inputs. -/
theorem CardinalityNetworkBuilder.wp_equalNetwork_short {input : List Lit}
    {Q : List Lit × CardinalityNetworkBuilder → Trace → Prop} {t : Trace}
    (h : input.length ≤ 1) : wp (init.equalNetwork input) Q (fun _ => True) t := by
  rcases input with _ | ⟨x, _ | ⟨y, rest⟩⟩
  · simp [equalNetwork, wp_assert]
  · simp [equalNetwork, pad, card, hSort, wp_assert]
  · rw [List.length_cons, List.length_cons] at h
    omega

namespace SizedEnumerator

open Enumerator

variable {n : ℕ} {g : Graph n} {t : Trace} {E : Trace → Prop} {solver : Solver} {sh : Shuffle}

/-- The constraint is a totalizer that cannot be built. -/
structure Short (e : SizedEnumerator n) : Prop where
  totalizer : e.cardEncoding = 1
  length_le : e.tb.input.length ≤ 1

theorem wp_withCardinality_short {e : Enumerator n} {cardEncoding size : ℕ} {input : List Lit}
    (h : input.length ≤ 1) :
    wp (withCardinality e cardEncoding input size) (fun se _ => se.Short) (fun _ => True) t := by
  have houtputs : wp (cardinalityOutputs cardEncoding input)
      (fun r _ => cardEncoding = 1 ∧ r.2.input = input) (fun _ => True) t := by
    apply wp_ite
    · intro _
      rw [wp_bind]
      exact CardinalityNetworkBuilder.wp_equalNetwork_short h
    · intro _
      apply wp_ite
      · intro h1
        rw [TotalizerBuilder.init]
        dsimp only
        rw [if_pos h, wp_pure]
        exact ⟨h1, rfl⟩
      · exact fun _ => trivial
  rw [withCardinality, wp_bind]
  apply wp_imp houtputs
  rintro r t₁ ⟨h1, hinput⟩
  rw [wp_bind]
  apply wp_of_forall _ fun _ => trivial
  intro _ t₂
  rw [wp_bind]
  apply wp_of_forall _ fun _ => trivial
  intro _ t₃
  exact ⟨h1, hinput.symm ▸ h⟩

/-- The first call of `AllPmcs` aborts. -/
theorem Short.state_run {e : SizedEnumerator n} (h : e.Short) (solver : Solver) (sh : Shuffle)
    (fuel K : ℕ) : (e.run solver sh fuel K t).2 = t := by
  cases K with
  | zero => rfl
  | succ m =>
      have hcall : allPmcs solver sh fuel 1 e t = (none, t) := by
        have hlen : decide (1 + 1 ≤ e.tb.input.length) = false :=
          decide_eq_false fun hle => by
            have := h.length_le
            omega
        simp only [allPmcs, if_pos h.totalizer, TotalizerBuilder.buildToSize, hlen]
        rfl
      rw [run_succ_of_none hcall]

/-- A run that stays before its first `Solve` call. -/
theorem unsolved_run {new : SatM (SizedEnumerator n)} (hnew : Logs Event.Build new)
    (hshort : wp new (fun e _ => e.Short) (fun _ => True) []) (fuel K : ℕ) :
    ((do
      let e ← new
      let r ← e.run solver sh fuel K
      pure r.1) []).2.Unsolved := by
  have hunsolved : (new []).2.Unsolved :=
    state_of_wp (hnew.wp fun calls hcalls => by rwa [List.append_nil])
  cases hres : new [] with
  | mk res t =>
  rw [hres] at hunsolved
  cases res with
  | none =>
      simp only [Bind.bind, andThen, hres, Option.elim_none]
      exact hunsolved
  | some e =>
      have hstate := (post_of_wp hshort hres).state_run (t := t) solver sh fuel K
      rw [bind_of hres]
      simp only [Bind.bind, andThen]
      cases hrun : e.run solver sh fuel K t with
      | mk r t' =>
      rw [hrun] at hstate
      subst hstate
      cases r with
      | none => exact hunsolved
      | some r => exact hunsolved

/-! ## The first call -/

/-- With a solver whose answers are models a call of `AllPmcs` returns. -/
theorem wp_allPmcs_returns {input : List Lit} {e : SizedEnumerator n} {fuel k : ℕ}
    (hsolver : solver.Sound) (hg : g.Valid) (hfuel : roundBound n ≤ fuel)
    (h : Running g input e t k) (hk1 : e.cardEncoding = 1 → k + 1 < input.length) :
    wp (allPmcs solver sh fuel (k + 1) e) (fun _ _ => True) E t := by
  rw [allPmcs, wp_bind]
  apply wp_imp (wp_buildCounter h.guarded.inv.wellScoped h.card hk1)
  rintro tb t₁ ⟨hgrow, hcard, -⟩
  have hlt := (remaining_lt_roundBound e.toEnumerator t₁).trans_le hfuel
  rw [wp_bind]
  apply wp_imp (wp_allPmcsLoop hsolver (h.graph_eq ▸ hg) h.encoding_le
    (h.guarded.inv.grows hgrow) (assumptions_known (e := e) hcard.known) hlt hlt)
  exact fun _ _ _ => trivial

end SizedEnumerator

/-! ## Graphs -/

namespace FixedSizeEnumerator

open Enumerator

variable {n : ℕ} {g : Graph n} {minsepEncoding cardEncoding K fuel : ℕ} {solver : Solver}

theorem wp_new_short (hn : n ≤ 1) :
    wp (new g minsepEncoding cardEncoding) (fun e _ => e.Short) (fun _ => True) [] := by
  rw [new, wp_bind]
  apply wp_of_forall _ fun _ => trivial
  intro e t
  exact SizedEnumerator.wp_withCardinality_short (by simpa [xVars] using hn)

/-- The runs over all graphs. -/
theorem balanced_run_of_valid (hsolver : solver.Sound) (sh : Shuffle) (hg : g.Valid)
    (henc : minsepEncoding ≤ 5) (hcard : cardEncoding ≤ 1) :
    Balanced g (run g minsepEncoding cardEncoding solver sh fuel K []).2 := by
  by_cases hn : 2 ≤ n
  · exact balanced_run hsolver sh hg hn henc hcard
  · exact (SizedEnumerator.unsolved_run ((uses_new (b := true)).logs solver)
      (wp_new_short (by omega)) fuel K).balanced

end FixedSizeEnumerator

/-! ## Hypergraphs -/

namespace FixedSizeHyperEnumerator

open Enumerator SizedEnumerator

variable {n : ℕ} {h : HyperGraph n} {minsepEncoding cardEncoding K fuel : ℕ} {solver : Solver}

theorem wp_new_short (hh : h.Valid) (hm : h.edges.length ≤ 1) :
    wp (new h minsepEncoding cardEncoding) (fun e _ => e.Short) (fun _ => True) [] := by
  rw [new, wp_bind]
  apply wp_imp (Enumerator.wp_new hh.primal minsepEncoding)
  rintro e t ⟨hinv, -⟩
  rw [wp_bind]
  apply wp_imp (wp_edgeVars hinv.wellScoped h.edges)
  rintro edgeVars t₁ ⟨hlen, -⟩
  rw [wp_bind]
  apply wp_of_forall _ fun _ => trivial
  intro _ t₂
  exact wp_withCardinality_short (hlen.trans_le hm)

/-- The first call of `AllPmcs` returns. -/
theorem isSome_run_one (hsolver : solver.Sound) (sh : Shuffle) (hh : h.Valid)
    (hm : 2 ≤ h.edges.length) (henc : minsepEncoding ≤ 5) (hcard : cardEncoding ≤ 1)
    (hfuel : roundBound n ≤ fuel) :
    (run h minsepEncoding cardEncoding solver sh fuel 1 []).1.isSome = true := by
  have hrun : wp (run h minsepEncoding cardEncoding solver sh fuel 1) (fun _ _ => True)
      (fun _ => False) [] := by
    rw [run, wp_bind]
    apply wp_imp (wp_new_running hh hm henc hcard)
    rintro e t ⟨-, -, -, input, hlen, hrunning, -⟩
    rw [wp_bind, run_succ, wp_bind]
    apply wp_imp (wp_allPmcs_returns hsolver hh.primal hfuel hrunning fun _ => by omega)
    exact fun _ _ _ => trivial
  obtain ⟨lists, t, hres, -⟩ := exists_of_wp hrun
  rw [hres]
  rfl

/-- The runs over all hypergraphs. -/
theorem disciplined_run_iff_of_valid (hsolver : solver.Sound) (sh : Shuffle) (hh : h.Valid)
    (henc : minsepEncoding ≤ 5) (hcard : cardEncoding ≤ 1) (hfuel : roundBound n ≤ fuel) :
    (run h minsepEncoding cardEncoding solver sh fuel K []).2.disciplined = true ↔
      AnswersPmc h.primal (run h minsepEncoding cardEncoding solver sh fuel K []).2 ∧
      ¬(cardEncoding = 1 ∧ 2 ≤ K ∧ 2 ≤ h.edges.length ∧ ¬∃ p, h.edges.length = 2 ^ p) := by
  by_cases hm : 2 ≤ h.edges.length
  · rw [disciplined_run_iff hsolver sh hh hm henc hcard,
      isSome_run_one hsolver sh hh hm henc hcard hfuel]
    tauto
  · rw [and_iff_left fun hbad => hm hbad.2.2.1]
    exact (unsolved_run ((uses_new (b := true)).logs solver)
      (wp_new_short hh (by omega)) fuel K).balanced

end FixedSizeHyperEnumerator

/-! ## Both enumerators -/

/-- The runs of the two enumerators keep the freeze discipline exactly when every answer of
the solver selects a potential maximal clique and no second call of `AllPmcs` extends a
totalizer over hyperedges whose number is not a power of two. -/
theorem enumerators_disciplined_iff {solver : Solver} (hsolver : solver.Sound) (sh : Shuffle)
    {minsepEncoding cardEncoding : ℕ} (henc : minsepEncoding ≤ 5) (hcard : cardEncoding ≤ 1)
    (K : ℕ) :
    (∀ {n : ℕ} {g : Graph n}, g.Valid → ∀ fuel,
      ((FixedSizeEnumerator.run g minsepEncoding cardEncoding solver sh fuel K
        []).2.FreezeDiscipline ↔
      AnswersPmc g (FixedSizeEnumerator.run g minsepEncoding cardEncoding solver sh fuel K
        []).2)) ∧
    ∀ {n : ℕ} {h : HyperGraph n}, h.Valid → ∀ fuel ≥ Enumerator.roundBound n,
      ((FixedSizeHyperEnumerator.run h minsepEncoding cardEncoding solver sh fuel K
        []).2.FreezeDiscipline ↔
      AnswersPmc h.primal (FixedSizeHyperEnumerator.run h minsepEncoding cardEncoding solver sh
        fuel K []).2 ∧
      ¬(cardEncoding = 1 ∧ 2 ≤ K ∧ 2 ≤ h.edges.length ∧
        ¬∃ p, h.edges.length = 2 ^ p)) := by
  refine ⟨fun hg fuel => ?_, fun hh fuel hfuel => ?_⟩
  · rw [Trace.freezeDiscipline_iff]
    exact FixedSizeEnumerator.balanced_run_of_valid hsolver sh hg henc hcard
  · rw [Trace.freezeDiscipline_iff]
    exact FixedSizeHyperEnumerator.disciplined_run_iff_of_valid hsolver sh hh henc hcard hfuel

/-- A solver that knows one assignment. -/
def Solver.single (σ : ℕ → Bool) : Solver where
  answer t as _ :=
    if (t.clauses.all fun clause => clause.any fun l => l.eval σ) && as.all fun l => l.eval σ then
      some σ
    else none

theorem Solver.sound_single (σ : ℕ → Bool) : (Solver.single σ).Sound := by
  intro t as b σ' h
  rw [Solver.single] at h
  dsimp only at h
  split at h
  · rename_i hall
    obtain rfl := Option.some_inj.mp h
    rw [Bool.and_eq_true, List.all_eq_true, List.all_eq_true] at hall
    exact ⟨fun clause hclause => List.any_eq_true.mp (hall.1 clause hclause), hall.2⟩
  · cases h

/-- The selection of all vertices of the cycle in the basic encoding and the cardinality
network: the variables of the full components are false, all others true. -/
def allSelected (v : ℕ) : Bool :=
  decide (v < 6 ∨ 18 ≤ v)

/-- The cycle on four vertices when all of them are selected, and the triangle of three
hyperedges with the totalizer. -/
theorem enumerators_undisciplined :
    (∃ g, fourCycle = some g ∧ (Solver.single allSelected).Sound ∧
      ¬(FixedSizeEnumerator.run g 0 0 (Solver.single allSelected) Shuffle.none 3 4
        []).2.FreezeDiscipline) ∧
    ∃ h₁ h₂ h, (HyperGraph.empty 3).addEdge [0, 1] = some h₁ ∧ h₁.addEdge [1, 2] = some h₂ ∧
      h₂.addEdge [2, 0] = some h ∧ ∀ solver : Solver, solver.Sound →
        ∀ fuel ≥ Enumerator.roundBound 3,
          ¬(FixedSizeHyperEnumerator.run h 0 1 solver Shuffle.none fuel 2
            []).2.FreezeDiscipline := by
  constructor
  · have hrun : fourCycle.map (fun g => decide (FixedSizeEnumerator.run g 0 0
        (Solver.single allSelected) Shuffle.none 3 4 []).2.FreezeDiscipline) = some false := by
      decide +kernel
    obtain ⟨g, hg, hviolated⟩ := Option.map_eq_some_iff.mp hrun
    exact ⟨g, hg, Solver.sound_single _, of_decide_eq_false hviolated⟩
  · obtain ⟨h₁, hadd₁, hv₁, hedges₁⟩ := HyperGraph.addEdge_spec (HyperGraph.valid_empty 3) [0, 1]
    obtain ⟨h₂, hadd₂, hv₂, hedges₂⟩ := HyperGraph.addEdge_spec hv₁ [1, 2]
    obtain ⟨h, hadd, hv, hedges⟩ := HyperGraph.addEdge_spec hv₂ [2, 0]
    have hlen : h.edges.length = 3 := by
      rw [hedges, hedges₂, hedges₁]
      rfl
    have hpow : ¬∃ p, 3 = 2 ^ p := by
      rintro ⟨p, hp⟩
      cases p with
      | zero => omega
      | succ p =>
          rw [pow_succ] at hp
          omega
    refine ⟨h₁, h₂, h, hadd₁, hadd₂, hadd, fun solver hsolver fuel hfuel hdisc => ?_⟩
    rw [Trace.freezeDiscipline_iff, FixedSizeHyperEnumerator.disciplined_run_iff_of_valid hsolver
      Shuffle.none hv (Nat.zero_le 5) le_rfl hfuel, hlen] at hdisc
    exact hdisc.2 ⟨rfl, le_rfl, by omega, hpow⟩

theorem enumerators_disciplined_iff_cycle :
    ∃ g h₁ h₂ h, fourCycle = some g ∧ (HyperGraph.empty 3).addEdge [0, 1] = some h₁ ∧
      h₁.addEdge [1, 2] = some h₂ ∧ h₂.addEdge [2, 0] = some h ∧
      ((FixedSizeEnumerator.run g 0 1 Solver.choice Shuffle.none 20 3
          []).2.FreezeDiscipline ↔
        AnswersPmc g (FixedSizeEnumerator.run g 0 1 Solver.choice Shuffle.none 20 3 []).2) ∧
      ((FixedSizeHyperEnumerator.run h 0 1 Solver.choice Shuffle.none (Enumerator.roundBound 3) 3
          []).2.FreezeDiscipline ↔
        AnswersPmc h.primal (FixedSizeHyperEnumerator.run h 0 1 Solver.choice Shuffle.none
          (Enumerator.roundBound 3) 3 []).2 ∧
        ¬((1 = 1) ∧ 2 ≤ 3 ∧ 2 ≤ h.edges.length ∧ ¬∃ p, h.edges.length = 2 ^ p)) := by
  obtain ⟨g, hcycle, hg, -⟩ := exists_fourCycle
  obtain ⟨h₁, hadd₁, hv₁, -⟩ := HyperGraph.addEdge_spec (HyperGraph.valid_empty 3) [0, 1]
  obtain ⟨h₂, hadd₂, hv₂, -⟩ := HyperGraph.addEdge_spec hv₁ [1, 2]
  obtain ⟨h, hadd, hv, -⟩ := HyperGraph.addEdge_spec hv₂ [2, 0]
  obtain ⟨hgraph, hhyper⟩ := enumerators_disciplined_iff Solver.exact_choice.sound Shuffle.none
    (Nat.zero_le 5) le_rfl 3
  exact ⟨g, h₁, h₂, h, hcycle, hadd₁, hadd₂, hadd, hgraph hg 20, hhyper hv _ le_rfl⟩

end Triangulator
