import Triangulator.Verification.HyperGraphBuild

/-!
# Runs of hypergraph constructions

The primal graph of a hypergraph that the constructors and `AddEdge` have produced joins
the pairs of vertices in a common hyperedge, and cutting out a vertex list keeps the
hyperedges that it meets twice.
-/

namespace Triangulator

namespace HyperGraph

variable {h : Io.SomeHyperGraph}

/-- The hypergraphs that start from a number of vertices, take any hyperedges, and are cut
out of such hypergraphs, to any depth. -/
inductive IsRunHyperGraph : Io.SomeHyperGraph → Prop
  | empty (n : ℕ) : IsRunHyperGraph ⟨n, empty n⟩
  | addEdge {h : Io.SomeHyperGraph} {h' : HyperGraph h.1} (edge : List (Fin h.1))
      (hh : IsRunHyperGraph h) (hrun : h.2.addEdge edge = some h') :
      IsRunHyperGraph ⟨h.1, h'⟩
  | cut {h h' : Io.SomeHyperGraph} (vs : List (Fin h.1)) (hh : IsRunHyperGraph h)
      (hrun : ofEdges ((h.2.edgesIn vs).map fun e => e.map Fin.val) = some h') :
      IsRunHyperGraph h'

theorem IsRunHyperGraph.valid (hh : IsRunHyperGraph h) : h.2.Valid := by
  induction hh with
  | empty n => exact valid_empty n
  | addEdge edge _ hrun ih =>
      obtain ⟨h₁, hrun₁, hvalid, -⟩ := addEdge_spec ih edge
      obtain rfl := Option.some.inj (hrun.symm.trans hrun₁)
      exact hvalid
  | cut vs _ hrun ih =>
      obtain ⟨h₁, hrun₁, hb⟩ := ofEdges_edgesIn ih vs
      obtain rfl := Option.some.inj (hrun.symm.trans hrun₁)
      exact hb.valid

theorem edgesIn_eq {n : ℕ} (h : HyperGraph n) (vs : List (Fin n)) :
    h.edgesIn vs = (h.edges.map fun e => e.filter fun v => decide (v ∈ vs)).filter
      fun e => decide (2 ≤ e.length) := by
  have hmark : mark (fun _ => false) vs = fun v => decide (v ∈ vs) :=
    funext fun v => mark_false_apply vs v
  rw [edgesIn, hmark]

/-- The primal graph and the hyperedges stay in step, every construction returns, and a
hypergraph that is cut out has, read back through its labels, the intersections with at
least two vertices in their order. -/
theorem runHyperGraph_inStep (hh : IsRunHyperGraph h) :
    (∀ edge ∈ h.2.edges, edge.Pairwise (· < ·)) ∧
    (∀ u v, h.2.primal.hasEdge u v = true ↔
      u ≠ v ∧ ∃ edge ∈ h.2.edges, u ∈ edge ∧ v ∈ edge) ∧
    (∀ edge, ∃ h', h.2.addEdge edge = some h' ∧
      h'.edges = h.2.edges ++ [sortAndDedup edge]) ∧
    ∀ vs, ∃ h' : Io.SomeHyperGraph,
      ofEdges ((h.2.edgesIn vs).map fun e => e.map Fin.val) = some h' ∧
      (h'.2.edges.map fun e => e.map h'.2.primal.mapBack) =
        ((h.2.edges.map fun e => e.filter fun v => decide (v ∈ vs)).filter
          fun e => decide (2 ≤ e.length)).map fun e => e.map Fin.val := by
  have hvalid := hh.valid
  refine ⟨hvalid.sorted, ?_, ?_, ?_⟩
  · intro u v
    rw [← hvalid.adj_iff, hvalid.primal.adj_iff]
    exact Iff.rfl
  · intro edge
    obtain ⟨h', hrun, -, hedges⟩ := addEdge_spec hvalid edge
    exact ⟨h', hrun, hedges⟩
  · intro vs
    obtain ⟨h', hrun, hb⟩ := ofEdges_edgesIn hvalid vs
    refine ⟨h', hrun, ?_⟩
    rw [hb.map_eq, edgesIn_eq]

/-- Two hyperedges, the second of which is cut down to a pair. -/
theorem runHyperGraph_inStep_pair :
    ∃ (h₁ h₂ : HyperGraph 4) (h : Io.SomeHyperGraph),
      (empty 4).addEdge [1, 0, 1] = some h₁ ∧ h₁.addEdge [3, 1, 2] = some h₂ ∧
      ofEdges ((h₂.edgesIn [3, 1]).map fun e => e.map Fin.val) = some h ∧
      (h.2.edges.map fun e => e.map h.2.primal.mapBack) = [[1, 3]] ∧
      ∀ edge ∈ h.2.edges, edge.Pairwise (· < ·) := by
  have hrun₀ := IsRunHyperGraph.empty 4
  obtain ⟨h₁, hadd₁, hedges₁⟩ := (runHyperGraph_inStep hrun₀).2.2.1 [1, 0, 1]
  have hrun₁ := hrun₀.addEdge _ hadd₁
  obtain ⟨h₂, hadd₂, hedges₂⟩ := (runHyperGraph_inStep hrun₁).2.2.1 [3, 1, 2]
  have hrun₂ := hrun₁.addEdge _ hadd₂
  obtain ⟨h, hcut, hmap⟩ := (runHyperGraph_inStep hrun₂).2.2.2 [3, 1]
  have hcuts : ((([sortAndDedup [1, 0, 1], sortAndDedup [3, 1, 2]] : List (List (Fin 4))).map
      fun e => e.filter fun v => decide (v ∈ ([3, 1] : List (Fin 4)))).filter
        fun e => decide (2 ≤ e.length)).map (fun e => e.map Fin.val) = [[1, 3]] := by
    decide
  refine ⟨h₁, h₂, h, hadd₁, hadd₂, hcut, hmap.trans ?_,
    (runHyperGraph_inStep (hrun₂.cut _ hcut)).1⟩
  dsimp only at hedges₁ hedges₂ ⊢
  rw [hedges₂, hedges₁]
  exact hcuts

end HyperGraph

end Triangulator
