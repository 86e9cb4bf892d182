import Triangulator.Verification.FixedSize

/-!
# Enumeration of the cliques of a cover number

The constructor of `FixedSizeHyperEnumerator` establishes the invariant of the run with
the least number of hyperedges that cover a clique as its cost.
-/

namespace Triangulator

open AbortM SimpleGraph

/-! ## Hypergraphs -/

namespace HyperGraph

variable {n : ℕ} {h : HyperGraph n}

/-- The primal graph joins the pairs of vertices in a common hyperedge. -/
structure Valid (h : HyperGraph n) : Prop where
  primal : h.primal.Valid
  adj_iff : ∀ u v, h.primal.toSimple.Adj u v ↔
    u ≠ v ∧ ∃ edge ∈ h.edges, u ∈ edge ∧ v ∈ edge
  sorted : ∀ edge ∈ h.edges, edge.Pairwise (· < ·)

theorem valid_empty (n : ℕ) : (empty n).Valid := by
  refine ⟨Graph.valid_empty n, fun u v => ?_, by simp [empty]⟩
  rw [show (empty n).primal = Graph.empty n from rfl, (Graph.valid_empty n).adj_iff]
  simp [empty, Graph.empty]

/-- The pairs that `AddEdge` joins. -/
theorem mem_pairs {α : Type*} {edge : List α} {p : α × α} :
    p ∈ (List.range edge.length).flatMap (fun i =>
      (edge.drop i).head?.elim [] fun v => (edge.drop (i + 1)).map fun u => (v, u)) ↔
    ∃ i j, ∃ hij : i < j, ∃ hj : j < edge.length,
      p = (edge[i], edge[j]) := by
  simp only [List.mem_flatMap, List.mem_range, List.head?_drop]
  constructor
  · rintro ⟨i, hi, hp⟩
    rw [List.getElem?_eq_getElem hi, Option.elim_some] at hp
    obtain ⟨u, hu, rfl⟩ := List.mem_map.mp hp
    obtain ⟨k, hk, rfl⟩ := List.mem_iff_getElem.mp hu
    rw [List.length_drop] at hk
    exact ⟨i, i + 1 + k, by omega, by omega, by rw [List.getElem_drop]⟩
  · rintro ⟨i, j, hij, hj, rfl⟩
    refine ⟨i, hij.trans hj, ?_⟩
    rw [List.getElem?_eq_getElem (hij.trans hj), Option.elim_some]
    refine List.mem_map.mpr ⟨edge[j], ?_, rfl⟩
    refine List.mem_iff_getElem.mpr ⟨j - (i + 1), by rw [List.length_drop]; omega, ?_⟩
    rw [List.getElem_drop]
    congr 1
    omega

/-- `AddEdge` adds a hyperedge and the pairs of its vertices. -/
theorem addEdge_spec (hv : h.Valid) (edge : List (Fin n)) :
    ∃ h', h.addEdge edge = some h' ∧ h'.Valid ∧ h'.edges = h.edges ++ [sortAndDedup edge] := by
  have hsorted := sortAndDedup_sorted edge
  rw [addEdge]
  set es := sortAndDedup edge
  set F := (List.range es.length).flatMap fun i =>
    (es.drop i).head?.elim [] fun v => (es.drop (i + 1)).map fun u => (v, u) with hF
  have hne : ∀ p ∈ F, p.1 ≠ p.2 := by
    intro p hp
    obtain ⟨i, j, hij, hj, rfl⟩ := mem_pairs.mp hp
    exact (List.pairwise_iff_getElem.mp hsorted i j (hij.trans hj) hj hij).ne
  obtain ⟨g', hadd, hg'⟩ := addEdges_spec hv.primal F hne
  rw [hadd, Option.bind_eq_bind, Option.bind_some]
  refine ⟨⟨g', h.edges ++ [es]⟩, rfl, ⟨hg'.valid, fun u v => ?_, fun e he => ?_⟩, rfl⟩
  · rw [hg'.toSimple]
    have hpair : (u ≠ v ∧ u ∈ es ∧ v ∈ es) ↔ (u, v) ∈ F ∨ (v, u) ∈ F := by
      constructor
      · rintro ⟨huv, hu, hv'⟩
        obtain ⟨i, hi, rfl⟩ := List.mem_iff_getElem.mp hu
        obtain ⟨j, hj, rfl⟩ := List.mem_iff_getElem.mp hv'
        rcases lt_trichotomy i j with hij | rfl | hij
        · exact Or.inl (mem_pairs.mpr ⟨i, j, hij, hj, rfl⟩)
        · exact absurd rfl huv
        · exact Or.inr (mem_pairs.mpr ⟨j, i, hij, hi, rfl⟩)
      · rintro (hp | hp)
        · obtain ⟨i, j, hij, hj, heq⟩ := mem_pairs.mp hp
          obtain ⟨rfl, rfl⟩ := Prod.mk.inj heq
          exact ⟨hne _ hp, List.getElem_mem _, List.getElem_mem _⟩
        · obtain ⟨i, j, hij, hj, heq⟩ := mem_pairs.mp hp
          obtain ⟨rfl, rfl⟩ := Prod.mk.inj heq
          exact ⟨(hne _ hp).symm, List.getElem_mem _, List.getElem_mem _⟩
    have hmap : s(u, v) ∈ F.map (fun p => s(p.1, p.2)) ↔ (u, v) ∈ F ∨ (v, u) ∈ F := by
      simp [List.mem_map, and_or_left, exists_or]
    rw [addFill_adj, hmap, ← hpair, hv.adj_iff]
    simp only [List.mem_append, List.mem_singleton, or_and_right, exists_or, exists_eq_left]
    by_cases huv : u = v
    · simp [huv]
    · simp [huv]
  · rcases List.mem_append.mp he with he | he
    · exact hv.sorted e he
    · obtain rfl := List.mem_singleton.mp he
      exact hsorted

/-- Some `k` hyperedges cover the set. -/
def HasCover (h : HyperGraph n) (Ω : Set (Fin n)) (k : ℕ) : Prop :=
  ∃ I : Finset (Fin h.edges.length), I.card = k ∧ ∀ v ∈ Ω, ∃ i ∈ I, v ∈ h.edges[i]

theorem mem_inEdge {v : Fin n} {j : ℕ} :
    j ∈ h.inEdge v ↔ ∃ hj : j < h.edges.length, v ∈ h.edges[j] := by
  simp only [inEdge, List.mem_flatMap, List.mem_map, List.mem_filter, decide_eq_true_iff]
  constructor
  · rintro ⟨⟨edge, i⟩, hp, w, ⟨hw, rfl⟩, rfl⟩
    have hget := List.mem_zipIdx_iff_getElem?.mp hp
    obtain ⟨hi, heq⟩ := List.getElem?_eq_some_iff.mp hget
    exact ⟨hi, heq ▸ hw⟩
  · rintro ⟨hj, hv⟩
    exact ⟨(h.edges[j], j), List.mem_zipIdx_iff_getElem?.mpr (List.getElem?_eq_getElem hj),
      v, ⟨hv, rfl⟩, rfl⟩

end HyperGraph

namespace FixedSizeHyperEnumerator

open Enumerator SizedEnumerator CardinalityNetworkBuilder

variable {n : ℕ} {h : HyperGraph n} {t t' : Trace} {E : Trace → Prop}

/-! ## The constructor -/

/-- The variables of the hyperedges take all values. -/
structure EdgeVars (t t' : Trace) (edgeVars : List Lit) : Prop where
  grows : Trace.Grows t t'
  known : ∀ l ∈ edgeVars, l.Known t'.numVars
  extend : ∀ σ (f : ℕ → Bool), t.Models σ → ∃ σ', AgreeBelow t.numVars σ σ' ∧
    t'.Models σ' ∧ ∀ i < edgeVars.length, (edgeVars.getD i .undef).eval σ' = f i

theorem wp_edgeVars (ht : t.Scoped) (edges : List (List (Fin n))) :
    wp (edges.foldlM
        (fun edgeVars _ => do
          let v ← newVar
          pure (edgeVars ++ [v]))
        ([] : List Lit))
      (fun edgeVars t' => edgeVars.length = edges.length ∧ EdgeVars t t' edgeVars) E t := by
  apply wp_foldlM (fun pre (edgeVars : List Lit) t' => edgeVars.length = pre.length ∧
    EdgeVars t t' edgeVars)
  · exact ⟨rfl, Trace.Grows.refl ht, by simp,
      fun σ f hσ => ⟨σ, AgreeBelow.refl _ σ, hσ, by simp⟩⟩
  rintro pre edge post edgeVars t₁ - ⟨hlen, hgrow, hknown, hext⟩
  rw [wp_bind, wp_newVar, wp_pure]
  have hmono : ∀ l ∈ edgeVars, l.Known (t₁.numVars + 1) := fun l hl =>
    (hknown l hl).mono (Nat.le_succ _)
  refine ⟨by simp [hlen], hgrow.newVar, fun l hl => ?_, fun σ f hσ => ?_⟩
  · rcases List.mem_append.mp hl with hl | hl
    · exact hmono l hl
    · obtain rfl := List.mem_singleton.mp hl
      exact Nat.lt_succ_self _
  · obtain ⟨σ', ha, hσ', hval⟩ := hext σ f hσ
    have hup := AgreeBelow.update t₁.numVars σ' (f edgeVars.length)
    refine ⟨_, ha.trans hup hgrow.numVars_le, hσ'.update hgrow.wellScoped _, fun i hi => ?_⟩
    rw [List.length_append, List.length_singleton] at hi
    rcases Nat.lt_succ_iff_lt_or_eq.mp hi with hi | rfl
    · have hk := hknown _ (List.getElem_mem hi)
      rw [List.getD_append _ _ _ _ hi, ← hval i hi, List.getD_eq_getElem _ _ hi]
      exact hup.eval hk.valid
    · rw [List.getD_append_right _ _ _ _ le_rfl, Nat.sub_self, List.getD_cons_zero,
        Lit.eval_var_true, Function.update_self]

/-- The clauses say that every vertex of the solution is in a chosen hyperedge. -/
theorem emits_coverClauses {N : ℕ} {xVar : Fin n → Lit} {edgeVars : List Lit}
    (hx : ∀ i, (xVar i).Valid N) (hlen : edgeVars.length = h.edges.length)
    (hknown : ∀ l ∈ edgeVars, l.Known N) :
    Emits N (forM (List.finRange n) fun i =>
        addClause (-xVar i :: (h.inEdge i).map fun j => edgeVars.getD j .undef))
      fun σ => ∀ v, xValue xVar σ v = true → ∃ j, ∃ hj : j < h.edges.length,
        v ∈ h.edges[j] ∧ (edgeVars.getD j .undef).eval σ = true := by
  have hloop := Emits.forM (N := N) (l := List.finRange n)
    (f := fun i => addClause (-xVar i :: (h.inEdge i).map fun j => edgeVars.getD j .undef))
    (F := fun v σ => xValue xVar σ v = true → ∃ j, ∃ hj : j < h.edges.length,
      v ∈ h.edges[j] ∧ (edgeVars.getD j .undef).eval σ = true)
    fun v _ => (Emits.addClause ?_).congr fun σ => ?_
  · exact hloop.congr fun σ => by simp
  · intro l hl
    rcases List.mem_cons.mp hl with rfl | hl
    · exact Lit.valid_neg.mpr (hx v)
    · obtain ⟨j, hj, rfl⟩ := List.mem_map.mp hl
      obtain ⟨hj, -⟩ := HyperGraph.mem_inEdge.mp hj
      rw [List.getD_eq_getElem _ _ (hlen ▸ hj)]
      exact (hknown _ (List.getElem_mem _)).valid
  · rw [holds_cons, (hx v).eval_neg, Bool.not_eq_true']
    have hmap : Holds σ ((h.inEdge v).map fun j => edgeVars.getD j .undef) ↔
        ∃ j, ∃ hj : j < h.edges.length, v ∈ h.edges[j] ∧
          (edgeVars.getD j .undef).eval σ = true := by
      simp only [Holds, List.mem_map, exists_exists_and_eq_and, HyperGraph.mem_inEdge]
      constructor
      · rintro ⟨j, ⟨hj, hv⟩, htrue⟩
        exact ⟨j, hj, hv, htrue⟩
      · rintro ⟨j, hj, hv, htrue⟩
        exact ⟨j, ⟨hj, hv⟩, htrue⟩
    rw [hmap, xValue]
    cases (xVar v).eval σ <;> simp

/-- The chosen hyperedges. -/
theorem countTrue_eq_card {σ : ℕ → Bool} {ls : List Lit} {m : ℕ} (hlen : ls.length = m) :
    countTrue σ ls =
      (Finset.univ.filter fun i : Fin m => (ls.getD i .undef).eval σ = true).card := by
  subst hlen
  have hmap : (List.finRange ls.length).map (fun i : Fin ls.length => ls.getD i .undef) =
      ls := by
    apply List.ext_getElem
    · simp
    · intro i h1 h2
      simp
  calc countTrue σ ls
      = countTrue σ ((List.finRange ls.length).map fun i : Fin ls.length =>
          ls.getD i .undef) := by rw [hmap]
    _ = ((List.finRange ls.length).filter fun i : Fin ls.length =>
          (ls.getD i .undef).eval σ).length := by
        rw [countTrue, List.countP_map, List.countP_eq_length_filter]
        rfl
    _ = _ := by
        rw [← List.toFinset_card_of_nodup ((List.nodup_finRange _).filter _)]
        congr 1
        ext i
        simp

/-- The constructor establishes the invariant with covers as cost. -/
theorem wp_new {minsepEncoding cardEncoding : ℕ} (hh : h.Valid) (hn : 0 < n)
    (hm : 2 ≤ h.edges.length) (henc : minsepEncoding ≤ 5) (hcard : cardEncoding ≤ 1) :
    wp (new h minsepEncoding cardEncoding)
      (fun e t => ∃ input, input.length = h.edges.length ∧
        e.cardEncoding = cardEncoding ∧ RunInv h.HasCover h.primal input e t 0) E [] := by
  have : Nonempty (Fin n) := ⟨⟨0, hn⟩⟩
  rw [new, wp_bind]
  apply wp_imp (Enumerator.wp_new hh.primal minsepEncoding)
  rintro e t ⟨hinv, hgraph, hencoding, -, hmodel⟩
  rw [wp_bind]
  apply wp_imp (wp_edgeVars hinv.wellScoped h.edges)
  rintro edgeVars t₁ ⟨hlen, hgrow₁, hknown, hext⟩
  have hinv₁ := hinv.grows hgrow₁
  rw [wp_bind]
  apply (emits_coverClauses hinv₁.lits.x_valid hlen hknown).wp hgrow₁.wellScoped le_rfl
  intro t₂ hnum₂ ht₂ hmod₂
  have hgrow₂ : Trace.Grows t₁ t₂ := ⟨hnum₂.ge, ht₂, fun σ hσ => ((hmod₂ σ).mp hσ).1⟩
  have hrun := wp_withCardinality_runInv (E := E) (R := h.HasCover) (hinv₁.grows hgrow₂)
    hgraph (hencoding ▸ henc) hcard (hlen ▸ hm)
    (fun l hl => hgrow₂.known (hknown l hl)) (fun σ hσ => ?_) ?_ ?_
  · rw [hlen] at hrun
    apply wp_imp hrun
    rintro se t' ⟨hr, hc⟩
    exact ⟨edgeVars, hlen, hc, hr⟩
  · refine ⟨_, (countTrue_eq_card hlen).symm, fun v hv => ?_⟩
    obtain ⟨j, hj, hvj, htrue⟩ := ((hmod₂ σ).mp hσ).2 v hv
    exact ⟨⟨j, hj⟩, by simpa using htrue, hvj⟩
  · rintro Ω hΩ ⟨I, hI, hcover⟩
    obtain ⟨v, hv⟩ := hΩ.nonempty
    obtain ⟨i, hi, -⟩ := hcover v hv
    rw [Finset.card_eq_zero.mp hI] at hi
    cases hi
  · rintro Ω hΩ j ⟨I, hI, hcover⟩
    obtain ⟨σ, hσ, hcan⟩ := hmodel Ω hΩ
    obtain ⟨σ', ha, hσ', hval⟩ := hext σ
      (fun i => decide (∃ hi : i < h.edges.length, ⟨i, hi⟩ ∈ I)) hσ
    have hcan' := hcan.congr hinv ha
    refine ⟨σ', (hmod₂ σ').mpr ⟨hσ', fun v hv => ?_⟩, hcan', ?_⟩
    · rw [xValue, hcan'.values.x_eq, decide_eq_true_iff] at hv
      obtain ⟨i, hi, hvi⟩ := hcover v hv
      exact ⟨i, i.isLt, hvi, by
        rw [hval i (by rw [hlen]; exact i.isLt)]
        exact decide_eq_true ⟨i.isLt, hi⟩⟩
    · rw [countTrue_eq_card hlen, ← hI]
      congr 1
      ext i
      rw [Finset.mem_filter, hval i (by rw [hlen]; exact i.isLt), decide_eq_true_iff]
      simp

/-! ## The run -/

/-- The calls with enough fuel for all rounds. -/
theorem exists_run {minsepEncoding cardEncoding K fuel : ℕ} {solver : Solver}
    (hsolver : solver.Exact) (sh : Shuffle) (hh : h.Valid) (hn : 0 < n)
    (hm : 2 ≤ h.edges.length) (henc : minsepEncoding ≤ 5) (hcard : cardEncoding ≤ 1)
    (hK : K ≤ h.edges.length) (hK1 : cardEncoding = 1 → K < h.edges.length)
    (hfuel : roundBound n ≤ fuel) :
    ∃ lists t, run h minsepEncoding cardEncoding solver sh fuel K [] = (some lists, t) ∧
      lists.length = K ∧ ∀ k < K,
        Lists {Ω | h.primal.toSimple.IsPmc Ω ∧ IsLeast {j | h.HasCover Ω j} (k + 1)}
          (lists.getD k []) := by
  apply exists_of_wp
  rw [run, wp_bind]
  apply wp_imp (wp_new hh hn hm henc hcard)
  rintro e t ⟨input, hlen, hc, hinv⟩
  rw [wp_bind]
  apply wp_imp (wp_run hsolver hn hh.primal hfuel (by omega)
    (fun h1 => by rw [hlen]; exact hK1 (hc ▸ h1)) hinv)
  rintro r t' ⟨hlength, hlists⟩
  rw [wp_pure]
  exact ⟨hlength, hlists⟩

/-- The calls `AllPmcs(1)`, …, `AllPmcs(K)` return, and the `k`-th one lists the
potential maximal cliques of the primal graph that `k` hyperedges cover and no fewer. -/
theorem allPmcs_of_cover {minsepEncoding cardEncoding K : ℕ} {solver : Solver}
    (hsolver : solver.Exact) (sh : Shuffle) (hh : h.Valid) (hn : 0 < n)
    (hm : 2 ≤ h.edges.length) (henc : minsepEncoding ≤ 5) (hcard : cardEncoding ≤ 1)
    (hK : K ≤ h.edges.length) (hK1 : cardEncoding = 1 → K < h.edges.length) :
    ∃ N, ∀ fuel ≥ N, ∃ lists t,
      run h minsepEncoding cardEncoding solver sh fuel K [] = (some lists, t) ∧
      lists.length = K ∧ ∀ k < K,
        Lists {Ω | h.primal.toSimple.IsPotentialMaximalClique Ω ∧
          IsLeast {j | h.HasCover Ω j} (k + 1)} (lists.getD k []) := by
  refine ⟨roundBound n, fun fuel hfuel => ?_⟩
  obtain ⟨lists, t, hrun, hlength, hlists⟩ :=
    exists_run hsolver sh hh hn hm henc hcard hK hK1 hfuel
  refine ⟨lists, t, hrun, hlength, fun k hk => ?_⟩
  simpa only [isPotentialMaximalClique_iff] using hlists k hk

theorem allPmcs_of_cover_twoEdges :
    ∃ h₁ h, (HyperGraph.empty 2).addEdge [0, 1] = some h₁ ∧ h₁.addEdge [1] = some h ∧
      ∃ N, ∀ fuel ≥ N, ∃ lists t,
        run h 1 1 Solver.choice Shuffle.none fuel 1 [] = (some lists, t) ∧
        lists.length = 1 ∧ ∀ k < 1,
          Lists {Ω | h.primal.toSimple.IsPotentialMaximalClique Ω ∧
            IsLeast {j | h.HasCover Ω j} (k + 1)} (lists.getD k []) := by
  obtain ⟨h₁, hadd₁, hv₁, hedges₁⟩ := HyperGraph.addEdge_spec (HyperGraph.valid_empty 2) [0, 1]
  obtain ⟨h, hadd, hv, hedges⟩ := HyperGraph.addEdge_spec hv₁ [1]
  have hlen : h.edges.length = 2 := by
    rw [hedges, hedges₁]
    rfl
  exact ⟨h₁, h, hadd₁, hadd, allPmcs_of_cover Solver.exact_choice Shuffle.none hv Nat.two_pos
    hlen.ge (by omega) le_rfl (by omega) fun _ => by omega⟩

end FixedSizeHyperEnumerator

end Triangulator
