import Triangulator.GraphTheory.Biconnected
import Triangulator.Verification.PreprocessLeaf

/-!
# Exhaustive elimination of vertices of degree at most two

On a graph without a clique separator the queue holds every vertex of degree one or two
before each round, because the graph that is left never has a cut vertex.
-/

namespace Triangulator

open SimpleGraph

variable {n : ℕ} {graph graph' graph₁ : Graph n} {d2 pushed : List (Fin n)}
  {fill fill' added : List (Fin n × Fin n)} {x v : Fin n}

/-- The graph has no cut vertex, and the queue holds its vertices of degree one and two
and no vertex of a larger degree. -/
structure QueueInv (graph : Graph n) (d2 : List (Fin n)) : Prop where
  valid : graph.Valid
  biconnected : graph.toSimple.IsBiconnected
  degree_le : ∀ v ∈ d2, (graph.adjList v).length ≤ 2
  mem : ∀ v, graph.adjList v ≠ [] → (graph.adjList v).length ≤ 2 → v ∈ d2

theorem adjList_eq_nil_iff (hg : graph.Valid) :
    graph.adjList v = [] ↔ ∀ w, ¬graph.toSimple.Adj v w := by
  simp only [List.eq_nil_iff_forall_not_mem, hg.mem_adjList_iff]

theorem length_adjList_congr (hg : graph.Valid) (hg₁ : graph₁.Valid)
    (h : ∀ w, graph₁.toSimple.Adj v w ↔ graph.toSimple.Adj v w) :
    (graph₁.adjList v).length = (graph.adjList v).length := by
  rw [hg.length_adjList, hg₁.length_adjList]
  congr 1
  ext w
  exact h w

/-- The round that removes a vertex of degree two. -/
theorem QueueInv.two {nb1 nb2 : Fin n} (h : QueueInv graph (x :: d2)) (hg₁ : graph₁.Valid)
    (hx : graph.adjList x = [nb1, nb2])
    (heq : graph₁.toSimple = (graph.toSimple.addFill [(nb1, nb2)]).within {x}ᶜ)
    (hle : ∀ v, (graph₁.adjList v).length ≤ (graph.adjList v).length) :
    QueueInv graph₁ (d2 ++
      [nb1, nb2].filter fun nb => decide ((graph₁.adjList nb).length ≤ 2)) where
  valid := hg₁
  biconnected := by
    rw [heq]
    apply h.biconnected.join
    ext w
    rw [mem_neighborSet, ← h.valid.mem_adjList_iff, hx]
    simp
  degree_le := by
    intro v hv
    rcases List.mem_append.mp hv with hv | hv
    · exact (hle v).trans (h.degree_le v (List.mem_cons_of_mem x hv))
    · exact of_decide_eq_true (List.mem_filter.mp hv).2
  mem := by
    intro v hne hlen
    by_cases hnb : v ∈ [nb1, nb2]
    · exact List.mem_append_right _ (List.mem_filter.mpr ⟨hnb, decide_eq_true hlen⟩)
    · -- The neighbours of all other vertices are unchanged.
      have hvx : v ≠ x := by
        rintro rfl
        apply hne
        rw [adjList_eq_nil_iff hg₁]
        intro w hw
        rw [heq, within_adj] at hw
        exact hw.2.1 rfl
      have hnadj : ¬graph.toSimple.Adj v x := by
        intro hadj
        apply hnb
        rw [← hx, h.valid.mem_adjList_iff]
        exact hadj.symm
      have hsame : ∀ w, graph₁.toSimple.Adj v w ↔ graph.toSimple.Adj v w := by
        intro w
        rw [heq, within_adj, addFill_adj]
        constructor
        · rintro ⟨hadj | ⟨-, hmem⟩, -⟩
          · exact hadj
          · exfalso
            have hpair : s(v, w) = s(nb1, nb2) := by simpa using hmem
            rcases Sym2.eq_iff.mp hpair with ⟨rfl, -⟩ | ⟨rfl, -⟩
            · exact hnb (by simp)
            · exact hnb (by simp)
        · intro hadj
          refine ⟨Or.inl hadj, hvx, ?_⟩
          rintro rfl
          exact hnadj hadj
      have hlen₁ := length_adjList_congr h.valid hg₁ hsame
      have hne₀ : graph.adjList v ≠ [] := by
        intro hnil
        rw [hnil, List.length_nil, List.length_eq_zero_iff] at hlen₁
        exact hne hlen₁
      have hv := h.mem v hne₀ (hlen₁ ▸ hlen)
      exact List.mem_append_left _ ((List.mem_cons.mp hv).resolve_left hvx)

/-- A round keeps the invariant. -/
theorem QueueInv.round (h : QueueInv graph (x :: d2))
    (hround : Degree2Round graph x graph₁ pushed added) (hg₁ : graph₁.Valid) :
    QueueInv graph₁ (d2 ++ pushed) := by
  cases hround.shape with
  | isolated hx heq =>
      subst heq
      rw [List.append_nil]
      refine ⟨hg₁, h.biconnected, fun v hv => h.degree_le v (List.mem_cons_of_mem x hv), ?_⟩
      intro v hne hlen
      apply (List.mem_cons.mp (h.mem v hne hlen)).resolve_left
      rintro rfl
      exact hne hx
  | @one nb hx heq =>
      -- Without its only edge the graph is empty.
      have hbot : graph₁.toSimple = ⊥ := by
        rw [heq]
        apply h.biconnected.eq_bot_of_degree_one (u := nb)
        ext w
        rw [mem_neighborSet, ← h.valid.mem_adjList_iff, hx, List.mem_singleton]
        exact Iff.rfl
      have hnil : ∀ v, graph₁.adjList v = [] := by
        intro v
        rw [adjList_eq_nil_iff hg₁, hbot]
        exact fun _ => id
      refine ⟨hg₁, ?_, ?_, fun v hne => absurd (hnil v) hne⟩
      · rw [hbot]
        rintro w u ⟨a, ha⟩
        exact absurd ha id
      · intro v _
        rw [hnil v]
        exact Nat.zero_le 2
  | two hx heq => exact h.two hg₁ hx heq hround.degree_le

/-- When the queue is empty, no vertex of degree one or two is left. -/
theorem QueueInv.exhausted (h : QueueInv graph []) (v : Fin n) :
    graph.adjList v = [] ∨ 2 < (graph.adjList v).length := by
  by_contra hv
  push Not at hv
  exact List.not_mem_nil (h.mem v hv.1 hv.2)

theorem degree2Loop_exhaustive (fuel : ℕ) (h : QueueInv graph d2)
    (hrun : degree2Loop fuel d2 graph fill = some (graph', fill')) :
    ∀ v, graph'.adjList v = [] ∨ 2 < (graph'.adjList v).length := by
  induction fuel generalizing graph d2 fill with
  | zero =>
      cases d2 with
      | nil =>
          rw [degree2Loop, Option.some_inj, Prod.mk.injEq] at hrun
          obtain ⟨rfl, -⟩ := hrun
          exact h.exhausted
      | cons x d2 => cases hrun
  | succ fuel ih =>
      cases d2 with
      | nil =>
          rw [degree2Loop, Option.some_inj, Prod.mk.injEq] at hrun
          obtain ⟨rfl, -⟩ := hrun
          exact h.exhausted
      | cons x d2 =>
          obtain ⟨graph₁, pushed, added, hround⟩ :=
            exists_degree2Round h.valid (h.degree_le x List.mem_cons_self)
          have hg₁ : graph₁.Valid := (hround.steps
            (degree2Steps_refl (φ := Function.Embedding.refl (Fin n)) h.valid)).valid
          rw [hround.run] at hrun
          exact ih (h.round hround hg₁) hrun

/-! ## Graphs without clique separators -/

/-- The neighbours of a vertex of degree two are not adjacent, when there is a fourth
vertex. -/
theorem not_adj_of_degree_two (hg : graph.Valid) (hn : 4 ≤ n)
    (hsep : graph.toSimple.IsInseparable Set.univ) {nb1 nb2 : Fin n}
    (hx : graph.adjList x = [nb1, nb2]) : graph.adjMat nb1 nb2 = false := by
  rw [Bool.eq_false_iff]
  intro hmat
  have hadj : graph.toSimple.Adj nb1 nb2 := hg.adj_iff.mpr hmat
  have hnbr : ∀ w, graph.toSimple.Adj x w ↔ w = nb1 ∨ w = nb2 := by
    intro w
    rw [← hg.mem_adjList_iff, hx]
    simp
  obtain ⟨z, hz⟩ : ∃ z, z ∉ ({x, nb1, nb2} : Finset (Fin n)) := by
    by_contra hall
    push Not at hall
    have hcard := Finset.card_le_card (fun z _ => hall z :
      (Finset.univ : Finset (Fin n)) ⊆ {x, nb1, nb2})
    rw [Finset.card_univ, Fintype.card_fin] at hcard
    have hle := hcard.trans Finset.card_le_three
    omega
  simp only [Finset.mem_insert, Finset.mem_singleton, not_or] at hz
  have hclique : graph.toSimple.IsClique {nb1, nb2} := isClique_pair.mpr fun _ => hadj
  have hxnb : x ∉ ({nb1, nb2} : Set (Fin n)) := fun hmem =>
    graph.toSimple.loopless.irrefl x ((hnbr x).mpr hmem)
  have hznb : z ∉ ({nb1, nb2} : Set (Fin n)) := fun hmem => hmem.elim hz.2.1 hz.2.2
  -- The first step out of `x` enters the clique.
  obtain ⟨a, rfl, c, -, hc, hac⟩ :=
    (hsep _ hclique x trivial hxnb z trivial hznb).exists_exit (A := {x}) rfl hz.1
  exact hc.2 ((hnbr c).mp hac)

/-- The edges that the steps add are different nonedges of the first graph, and its
treewidth is that of the last graph or two. -/
theorem Degree2Steps.isReduction {φ : Fin n ↪ Fin n}
    (h : Degree2Steps φ graph fill graph') (h2 : 2 ≤ (graph.toSimple.map φ).treewidth) :
    (graph.toSimple.map φ).IsReduction 2 (embedEdges φ fill) [graph'.toSimple.map φ] where
  toCompletes := by
    have hcompletes := h.completes 2 [] [graph'.toSimple.map φ] le_rfl Completes.part
    rwa [List.append_nil] at hcompletes
  bound_le := h2
  part_le := by
    intro Q hQ
    rw [List.mem_singleton.mp hQ]
    exact h.treewidth_le

/-- `GreedyDegree2` on a graph with at least four vertices, of minimum degree two and
without a clique separator. -/
theorem greedyDegree2_exhaustive (hg : graph.Valid) (hn : 4 ≤ n)
    (hdeg : ∀ v, 1 < (graph.adjList v).length)
    (hsep : graph.toSimple.IsInseparable Set.univ) :
    ∃ graph' fill, greedyDegree2 graph = some (graph', fill) ∧
      (fill = [] ↔ ∀ v, (graph.adjList v).length ≠ 2) ∧ (fill = [] → graph' = graph) ∧
      (∀ v, graph'.adjList v = [] ∨ 2 < (graph'.adjList v).length) ∧
      (∀ e ∈ fill, e.1 ≠ e.2 ∧ graph.hasEdge e.1 e.2 = false) ∧
      (fill.map fun e => s(e.1, e.2)).Nodup ∧
      graph.toSimple.treewidth = max 2 graph'.toSimple.treewidth := by
  set φ := Function.Embedding.refl (Fin n)
  obtain ⟨graph', fill, hrun, hsteps, hnil⟩ := greedyDegree2_spec φ hg hdeg
    fun x nb1 nb2 hx => not_adj_of_degree_two hg hn hsep hx
  obtain ⟨d2, hqueue, hmem⟩ := degree2Queue_spec hdeg
  have hloop : degree2Loop (d2.length + 2 * graph.m) d2 graph [] = some (graph', fill) := by
    rw [greedyDegree2, hqueue, Option.bind_eq_bind, Option.bind_some] at hrun
    exact hrun
  have hinv : QueueInv graph d2 := by
    refine ⟨hg, hsep.isBiconnected, fun v hv => ((hmem v).mp hv).le, fun v _ hlen => ?_⟩
    exact (hmem v).mpr (le_antisymm hlen (hdeg v))
  have hmap : ∀ G : SimpleGraph (Fin n), G.map φ = G := fun G => G.map_id
  have h2 : 2 ≤ (graph.toSimple.map φ).treewidth := by
    rw [hmap]
    apply le_treewidth_of_degree (A := Set.univ) ⟨⟨0, by omega⟩, trivial⟩
    intro v _
    rw [Set.inter_univ, ← hg.length_adjList]
    exact hdeg v
  have hred := hsteps.isReduction h2
  have hedges : embedEdges φ fill = fill := List.map_id fill
  obtain ⟨S, hS, -⟩ := exists_isSelection [graph'.toSimple.map φ]
  have hfill := (hred.completion S hS).isFill
  rw [hedges, hmap] at hfill
  refine ⟨graph', fill, hrun, ⟨?_, ?_⟩, fun h => (hnil h).1,
    degree2Loop_exhaustive _ hinv hloop, ?_, ?_, ?_⟩
  · intro h v
    exact ((hnil h).2 v).ne'
  · intro hno
    have hd2 : d2 = [] := List.eq_nil_iff_forall_not_mem.mpr fun v hv => hno v ((hmem v).mp hv)
    rw [hd2] at hloop
    have heq : degree2Loop (([] : List (Fin n)).length + 2 * graph.m) [] graph [] =
        some (graph, []) := by
      cases ([] : List (Fin n)).length + 2 * graph.m <;> rw [degree2Loop]
    rw [heq, Option.some_inj, Prod.mk.injEq] at hloop
    exact hloop.2.symm
  · intro e he
    obtain ⟨hne, hnadj⟩ := hfill.nonEdge e (List.mem_append_left _ he)
    refine ⟨hne, ?_⟩
    rw [Bool.eq_false_iff]
    intro hmat
    exact hnadj (hg.adj_iff.mpr hmat)
  · have hnd := hfill.nodup
    rw [List.map_append] at hnd
    exact hnd.of_append_left
  · apply eq_of_forall_ge_iff
    intro k
    have hle := hred.treewidth_le_iff (k := k)
    rw [hmap, hmap] at hle
    rw [hle, max_le_iff]
    simp

/-- A cycle of four vertices collapses. -/
theorem greedyDegree2_exhaustive_square :
    ∃ graph graph' : Graph 4, (Graph.empty 4).addEdges [(0, 1), (1, 2), (2, 3), (3, 0)] =
        some graph ∧ greedyDegree2 graph = some (graph', [(1, 3)]) ∧
      graph.toSimple.treewidth = max 2 graph'.toSimple.treewidth := by
  set F : List (Fin 4 × Fin 4) := [(0, 1), (1, 2), (2, 3), (3, 0)]
  obtain ⟨graph, hrun, hspec⟩ := addEdges_spec (Graph.valid_empty 4) F (by decide)
  have hcheck : ((Graph.empty 4).addEdges F).map (fun g =>
      decide ((∀ v, 1 < (g.adjList v).length) ∧
        (∀ u v, u ≠ v → g.adjMat u v ≠ true → ∃ a b, a ≠ b ∧ g.adjMat a b ≠ true ∧
          (g.adjMat u a = true ∧ g.adjMat a v = true) ∧
          g.adjMat u b = true ∧ g.adjMat b v = true)) &&
      decide ((greedyDegree2 g).map Prod.snd = some [(1, 3)])) = some true := by
    decide +kernel
  rw [hrun, Option.map_some, Option.some_inj, Bool.and_eq_true, decide_eq_true_eq,
    decide_eq_true_eq] at hcheck
  obtain ⟨⟨hdeg, hcommon⟩, hresult⟩ := hcheck
  have hsep : graph.toSimple.IsInseparable Set.univ := by
    apply isInseparable_of_common
    simp only [hspec.valid.adj_iff]
    exact hcommon
  obtain ⟨graph', fill, hgreedy, -, -, -, -, -, htw⟩ :=
    greedyDegree2_exhaustive hspec.valid le_rfl hdeg hsep
  rw [hgreedy, Option.map_some, Option.some_inj] at hresult
  exact ⟨graph, graph', hrun, hresult ▸ hgreedy, htw⟩

end Triangulator
