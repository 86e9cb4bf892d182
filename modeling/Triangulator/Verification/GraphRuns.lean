import Mathlib.Combinatorics.SimpleGraph.DegreeSum
import Triangulator.Verification.GraphBuild

/-!
# Runs of edge updates

A graph that a constructor and any calls of `AddEdge`, `AddEdges` and `RemoveEdge` have
produced holds every edge in the matrix, in two adjacency lists and in the counter.
-/

namespace Triangulator

open SimpleGraph

variable {n : ℕ} {g g' : Graph n} {v u : Fin n}

/-! ## The calls -/

/-- The calls that change the edges of a graph. -/
inductive EdgeCall (n : ℕ)
  | addEdge (v u : Fin n)
  | addEdges (edges : List (Fin n × Fin n))
  | removeEdge (v u : Fin n)

namespace EdgeCall

/-- The graph after a call. -/
def run (g : Graph n) : EdgeCall n → Option (Graph n)
  | addEdge v u => g.addEdge v u
  | addEdges edges => g.addEdges edges
  | removeEdge v u => g.removeEdge v u

/-- Edges are added between different vertices, and removed where they are present. -/
def Allowed (g : Graph n) : EdgeCall n → Prop
  | addEdge v u => v ≠ u
  | addEdges edges => ∀ e ∈ edges, e.1 ≠ e.2
  | removeEdge v u => g.hasEdge v u = true

end EdgeCall

/-- The graphs that the two constructors and any calls lead to. -/
inductive IsRunGraph : {n : ℕ} → Graph n → Prop
  | empty (n : ℕ) : IsRunGraph (Graph.empty n)
  | ofEdges {edges : List (ℕ × ℕ)} {g : Graph (StaticSet.initPairs edges).size}
      (h : Graph.ofEdges edges = some g) : IsRunGraph g
  | call {n : ℕ} {g g' : Graph n} (call : EdgeCall n) (hg : IsRunGraph g)
      (h : call.run g = some g') : IsRunGraph g'

/-! ## Every call keeps the views in agreement -/

theorem valid_of_addEdge (hg : g.Valid) (h : g.addEdge v u = some g') : g'.Valid := by
  by_cases huv : v = u
  · subst huv
    rw [Graph.addEdge, hg.irrefl, if_neg Bool.false_ne_true, if_pos rfl] at h
    cases h
  · obtain ⟨g₁, hrun, hadd⟩ := addEdge_spec hg huv
    rw [hrun] at h
    rw [← Option.some.inj h]
    exact hadd.valid

theorem valid_of_addEdges {edges : List (Fin n × Fin n)} (hg : g.Valid)
    (h : g.addEdges edges = some g') : g'.Valid := by
  induction edges generalizing g with
  | nil =>
      have heq : g = g' := Option.some.inj h
      exact heq ▸ hg
  | cons e edges ih =>
      rw [Graph.addEdges, List.foldlM_cons] at h
      obtain ⟨g₁, hadd, hrest⟩ := Option.bind_eq_some_iff.mp h
      exact ih (valid_of_addEdge hg hadd) hrest

theorem valid_of_removeEdge (hg : g.Valid) (h : g.removeEdge v u = some g') : g'.Valid := by
  have hadj : g.toSimple.Adj v u := by
    rw [hg.adj_iff]
    rw [Graph.removeEdge] at h
    split at h
    · rename_i hmat
      exact (Bool.and_eq_true_iff.mp hmat).1
    · cases h
  obtain ⟨g₁, hrun, hrem⟩ := removeEdge_spec hg hadj
  rw [hrun] at h
  rw [← Option.some.inj h]
  exact hrem.valid

theorem EdgeCall.valid {call : EdgeCall n} (hg : g.Valid) (h : call.run g = some g') :
    g'.Valid := by
  cases call with
  | addEdge v u => exact valid_of_addEdge hg h
  | addEdges edges => exact valid_of_addEdges hg h
  | removeEdge v u => exact valid_of_removeEdge hg h

theorem valid_of_ofEdges {edges : List (ℕ × ℕ)} {g : Graph (StaticSet.initPairs edges).size}
    (h : Graph.ofEdges edges = some g) : g.Valid := by
  rw [Graph.ofEdges] at h
  have hfold : ∀ (l : List (ℕ × ℕ)) (g₀ : Graph (StaticSet.initPairs edges).size), g₀.Valid →
      l.foldlM (fun g e =>
        if h : (StaticSet.initPairs edges).rank e.1 < (StaticSet.initPairs edges).size ∧
            (StaticSet.initPairs edges).rank e.2 < (StaticSet.initPairs edges).size then
          g.addEdge ⟨_, h.1⟩ ⟨_, h.2⟩
        else none) g₀ = some g → g.Valid := by
    intro l
    induction l with
    | nil =>
        intro g₀ hg₀ hrun
        have heq : g₀ = g := Option.some.inj hrun
        exact heq ▸ hg₀
    | cons e l ih =>
        intro g₀ hg₀ hrun
        rw [List.foldlM_cons] at hrun
        obtain ⟨g₁, hadd, hrest⟩ := Option.bind_eq_some_iff.mp hrun
        split at hadd
        · exact ih g₁ (valid_of_addEdge hg₀ hadd) hrest
        · cases hadd
  exact hfold edges _ (builtFrom_nil edges).valid h

theorem IsRunGraph.valid (h : IsRunGraph g) : g.Valid := by
  induction h with
  | empty n => exact Graph.valid_empty n
  | ofEdges h => exact valid_of_ofEdges h
  | call call _ h ih => exact call.valid ih h

/-! ## What the agreement says -/

/-- The matrix is that of a simple graph, every edge stands once in each of its two lists,
and the counter is the number of adjacent pairs. -/
structure Graph.ViewsAgree (g : Graph n) : Prop where
  symm : ∀ v u, g.adjMat v u = g.adjMat u v
  irrefl : ∀ v, g.adjMat v v = false
  count : ∀ v u, (g.adjList v).count u = if g.adjMat v u then 1 else 0
  m_eq : g.m = {p : Fin n × Fin n | p.1 < p.2 ∧ g.adjMat p.1 p.2 = true}.ncard
  length_edges : g.edges.length = g.m

theorem nodup_edges (hg : g.Valid) : g.edges.Nodup := by
  rw [Graph.edges, List.nodup_flatMap]
  constructor
  · intro i _
    apply List.Nodup.map (Prod.mk_right_injective i)
    exact (hg.nodup_adjList i).filter _
  · apply (List.nodup_finRange n).imp
    intro i j hij p hi hj
    obtain ⟨a, -, rfl⟩ := List.mem_map.mp hi
    obtain ⟨b, -, hb⟩ := List.mem_map.mp hj
    exact hij (congrArg Prod.fst hb).symm

/-- Half of the sum of the degrees is the number of edges. -/
theorem length_edges_eq (hg : g.Valid) : g.edges.length = g.m := by
  classical
  have hdegree : ∀ v, g.toSimple.degree v = (g.adjList v).length := by
    intro v
    rw [hg.length_adjList, ← card_neighborSet_eq_degree, Set.ncard_eq_toFinset_card',
      Set.toFinset_card]
  have hsum := g.toSimple.sum_degrees_eq_twice_card_edges
  simp only [hdegree] at hsum
  rw [hg.m_eq] at hsum
  have hlist : (g.edges.map fun p => s(p.1, p.2)).toFinset = g.toSimple.edgeFinset := by
    ext e
    induction e with
    | _ a b =>
        rw [List.mem_toFinset, List.mem_map, mem_edgeFinset, mem_edgeSet]
        constructor
        · rintro ⟨p, hp, heq⟩
          have hadj := (hg.mem_edges.mp hp).1
          rwa [← mem_edgeSet, heq, mem_edgeSet] at hadj
        · intro hab
          rcases lt_or_gt_of_ne hab.ne with hlt | hlt
          · exact ⟨(a, b), hg.mem_edges.mpr ⟨hab, hlt⟩, rfl⟩
          · exact ⟨(b, a), hg.mem_edges.mpr ⟨hab.symm, hlt⟩, Sym2.eq_swap⟩
  have hnodup : (g.edges.map fun p => s(p.1, p.2)).Nodup := by
    apply List.Nodup.map_on _ (nodup_edges hg)
    intro p hp q hq heq
    have hp := (hg.mem_edges.mp hp).2
    have hq := (hg.mem_edges.mp hq).2
    rcases Sym2.eq_iff.mp heq with ⟨h1, h2⟩ | ⟨h1, h2⟩
    · exact Prod.ext h1 h2
    · rw [h1, h2] at hp
      exact absurd hp (lt_asymm hq)
  have hcard := List.toFinset_card_of_nodup hnodup
  rw [hlist, List.length_map] at hcard
  omega

theorem Graph.Valid.viewsAgree (hg : g.Valid) : g.ViewsAgree where
  symm := hg.symm
  irrefl := hg.irrefl
  count := by
    intro v u
    by_cases hmat : g.adjMat v u = true
    · rw [if_pos hmat]
      exact List.count_eq_one_of_mem (hg.nodup_adjList v) ((hg.mem_adjList v u).mpr hmat)
    · rw [if_neg hmat]
      exact List.count_eq_zero_of_not_mem fun hu => hmat ((hg.mem_adjList v u).mp hu)
  m_eq := by
    rw [← length_edges_eq hg, ← ncard_vset (nodup_edges hg)]
    congr 1
    ext p
    rw [mem_vset, hg.mem_edges, hg.adj_iff]
    exact and_comm
  length_edges := length_edges_eq hg

/-- An allowed call returns. -/
theorem EdgeCall.exists_run (hg : g.Valid) {call : EdgeCall n} (hcall : call.Allowed g) :
    ∃ g', call.run g = some g' := by
  cases call with
  | addEdge v u =>
      obtain ⟨g', hrun, -⟩ := addEdge_spec hg hcall
      exact ⟨g', hrun⟩
  | addEdges edges =>
      obtain ⟨g', hrun, -⟩ := addEdges_spec hg edges hcall
      exact ⟨g', hrun⟩
  | removeEdge v u =>
      obtain ⟨g', hrun, -⟩ := removeEdge_spec hg (hg.adj_iff.mpr hcall)
      exact ⟨g', hrun⟩

/-- After every run the views agree, the next allowed call returns, and the two removals
of `RemoveEdge` find their entries. -/
theorem runGraph_viewsAgree (hg : IsRunGraph g) :
    g.ViewsAgree ∧ (∀ call : EdgeCall n, call.Allowed g → ∃ g', call.run g = some g') ∧
    ∀ v u, g.adjMat v u = true →
      (Graph.swapRemove (g.adjList v) u).2 + (Graph.swapRemove (g.adjList u) v).2 = 2 := by
  have hv := hg.valid
  refine ⟨hv.viewsAgree, fun call hcall => EdgeCall.exists_run hv hcall, ?_⟩
  intro v u hvu
  have huv : g.adjMat u v = true := hv.symm u v ▸ hvu
  rw [(swapRemove_spec ((hv.mem_adjList v u).mpr hvu)).1,
    (swapRemove_spec ((hv.mem_adjList u v).mpr huv)).1]

/-- A path on three vertices, and what is left of it without its first edge. -/
theorem runGraph_viewsAgree_path :
    ∃ g g' : Graph 3, (EdgeCall.addEdges [(0, 1), (1, 2)]).run (Graph.empty 3) = some g ∧
      (EdgeCall.removeEdge 1 0).run g = some g' ∧ g.ViewsAgree ∧ g'.ViewsAgree := by
  have hadd : (EdgeCall.addEdges [((0 : Fin 3), (1 : Fin 3)), (1, 2)]).Allowed
      (Graph.empty 3) := by
    change ∀ e ∈ [((0 : Fin 3), (1 : Fin 3)), (1, 2)], e.1 ≠ e.2
    decide
  obtain ⟨g, hg⟩ := EdgeCall.exists_run (Graph.valid_empty 3) hadd
  have hrun : IsRunGraph g := .call _ (.empty 3) hg
  have hmat : g.hasEdge 1 0 = true := by
    rw [← Option.some.inj hg]
    rfl
  obtain ⟨hagree, hcalls, -⟩ := runGraph_viewsAgree hrun
  obtain ⟨g', hg'⟩ := hcalls (.removeEdge 1 0) hmat
  exact ⟨g, g', hg, hg', hagree, (runGraph_viewsAgree (.call _ hrun hg')).1⟩

end Triangulator
