import Triangulator.Verification.GraphUpdate

/-!
# The two cases of the neighbourhood functions

`Neighbors` and `EdgesIn` choose between two loops by the sizes of their inputs.  Both
loops of `Neighbors` return the same vector, and both loops of `EdgesIn` return the same
edges of a vertex.
-/

namespace Triangulator

open SimpleGraph

variable {n : ℕ} {g : Graph n} {vs : List (Fin n)} {v w : Fin n}

namespace Graph

/-- The first case of `Neighbors`, with a bitmap. -/
def neighborsByBitmap (g : Graph n) (vs : List (Fin n)) : List (Fin n) :=
  let nbs := mark (fun _ => false) (vs.flatMap g.adjList)
  let nbs := vs.foldl (fun b v => Function.update b v false) nbs
  (List.finRange n).filter fun i => nbs i

/-- The second case of `Neighbors`, with an ordered set. -/
def neighborsBySet (g : Graph n) (vs : List (Fin n)) : List (Fin n) :=
  (sortAndDedup (vs.flatMap g.adjList)).filter fun v => decide (v ∉ vs)

/-- The first case of `EdgesIn` for a vertex, over its adjacency list. -/
def edgesInByList (g : Graph n) (vs : List (Fin n)) (v : Fin n) : List (Fin n × Fin n) :=
  ((g.adjList v).filter fun nv => mark (fun _ => false) vs nv && decide (v < nv)).map
    fun nv => (v, nv)

/-- The second case of `EdgesIn` for a vertex, over the vertex list. -/
def edgesInByMatrix (g : Graph n) (vs : List (Fin n)) (v : Fin n) : List (Fin n × Fin n) :=
  (vs.filter fun nv => g.adjMat v nv && decide (v < nv)).map fun nv => (v, nv)

theorem neighbors_eq (g : Graph n) (vs : List (Fin n)) :
    g.neighbors vs = if n / 4 ≤ (vs.map fun v => (g.adjList v).length).sum then
      g.neighborsByBitmap vs else g.neighborsBySet vs :=
  rfl

/-- `EdgesIn` with any choice between the two cases for every vertex. -/
def edgesInBy (g : Graph n) (vs : List (Fin n)) (choice : Fin n → Bool) :
    List (Fin n × Fin n) :=
  vs.flatMap fun v => if choice v then g.edgesInByList vs v else g.edgesInByMatrix vs v

theorem edgesIn_eq_edgesInBy (g : Graph n) (vs : List (Fin n)) :
    g.edgesIn vs = g.edgesInBy vs fun v => decide ((g.adjList v).length ≤ vs.length) := by
  simp only [edgesInBy, decide_eq_true_eq]
  exact rfl

/-- Both cases of `Neighbors` list the same vertices in increasing order. -/
theorem neighborsByBitmap_eq (g : Graph n) (vs : List (Fin n)) :
    g.neighborsByBitmap vs = g.neighborsBySet vs := by
  apply eq_of_vset_eq
  · exact (List.pairwise_lt_finRange n).sublist List.filter_sublist
  · exact (sortAndDedup_sorted _).sublist List.filter_sublist
  · ext v
    simp [neighborsByBitmap, neighborsBySet, unmark_apply, mark_false_apply,
      mem_sortAndDedup]

end Graph

/-! ## The edges of one vertex -/

theorem mem_edgesInByList (hg : g.Valid) {e : Fin n × Fin n} :
    e ∈ g.edgesInByList vs v ↔ e.1 = v ∧ e.2 ∈ vs ∧ v < e.2 ∧ g.adjMat v e.2 = true := by
  rw [Graph.edgesInByList, List.mem_map]
  constructor
  · rintro ⟨nv, hnv, rfl⟩
    rw [List.mem_filter, Bool.and_eq_true, mark_false_apply, decide_eq_true_eq,
      decide_eq_true_eq, hg.mem_adjList] at hnv
    exact ⟨rfl, hnv.2.1, hnv.2.2, hnv.1⟩
  · rintro ⟨rfl, hmem, hlt, hmat⟩
    refine ⟨e.2, ?_, rfl⟩
    rw [List.mem_filter, Bool.and_eq_true, mark_false_apply, decide_eq_true_eq,
      decide_eq_true_eq, hg.mem_adjList]
    exact ⟨hmat, hmem, hlt⟩

theorem mem_edgesInByMatrix {e : Fin n × Fin n} :
    e ∈ g.edgesInByMatrix vs v ↔ e.1 = v ∧ e.2 ∈ vs ∧ v < e.2 ∧ g.adjMat v e.2 = true := by
  rw [Graph.edgesInByMatrix, List.mem_map]
  constructor
  · rintro ⟨nv, hnv, rfl⟩
    rw [List.mem_filter, Bool.and_eq_true, decide_eq_true_eq] at hnv
    exact ⟨rfl, hnv.1, hnv.2.2, hnv.2.1⟩
  · rintro ⟨rfl, hmem, hlt, hmat⟩
    refine ⟨e.2, ?_, rfl⟩
    rw [List.mem_filter, Bool.and_eq_true, decide_eq_true_eq]
    exact ⟨hmem, hmat, hlt⟩

theorem nodup_edgesInByList (hg : g.Valid) : (g.edgesInByList vs v).Nodup :=
  ((hg.nodup_adjList v).filter _).map (Prod.mk_right_injective v)

theorem nodup_edgesInByMatrix (hvs : vs.Nodup) : (g.edgesInByMatrix vs v).Nodup :=
  (hvs.filter _).map (Prod.mk_right_injective v)

theorem mem_edgesInBy (hg : g.Valid) {choice : Fin n → Bool} {e : Fin n × Fin n} :
    e ∈ g.edgesInBy vs choice ↔
      e.1 ∈ vs ∧ e.2 ∈ vs ∧ e.1 < e.2 ∧ g.adjMat e.1 e.2 = true := by
  have hrow : ∀ v, e ∈ (if choice v then g.edgesInByList vs v else g.edgesInByMatrix vs v) ↔
      e.1 = v ∧ e.2 ∈ vs ∧ v < e.2 ∧ g.adjMat v e.2 = true := by
    intro v
    split
    · exact mem_edgesInByList hg
    · exact mem_edgesInByMatrix
  rw [Graph.edgesInBy, List.mem_flatMap]
  simp only [hrow]
  constructor
  · rintro ⟨v, hv, rfl, he⟩
    exact ⟨hv, he⟩
  · rintro ⟨hv, he⟩
    exact ⟨e.1, hv, rfl, he⟩

theorem mem_edgesIn (hg : g.Valid) {e : Fin n × Fin n} :
    e ∈ g.edgesIn vs ↔ e.1 ∈ vs ∧ e.2 ∈ vs ∧ e.1 < e.2 ∧ g.toSimple.Adj e.1 e.2 := by
  rw [g.edgesIn_eq_edgesInBy, mem_edgesInBy hg, hg.adj_iff]

theorem nodup_edgesInBy (hg : g.Valid) (hvs : vs.Nodup) (choice : Fin n → Bool) :
    (g.edgesInBy vs choice).Nodup := by
  rw [Graph.edgesInBy, List.nodup_flatMap]
  constructor
  · intro v _
    split
    · exact nodup_edgesInByList hg
    · exact nodup_edgesInByMatrix hvs
  · apply hvs.imp
    intro v w hvw e hev hew
    have hfirst : ∀ u, e ∈ (if choice u then g.edgesInByList vs u
        else g.edgesInByMatrix vs u) → e.1 = u := by
      intro u heu
      split at heu
      · exact ((mem_edgesInByList hg).mp heu).1
      · exact (mem_edgesInByMatrix.mp heu).1
    exact hvw ((hfirst v hev).symm.trans (hfirst w hew))

/-- `Neighbors` and `EdgesIn` return what they stand for, and so does each of the cases
that their thresholds choose from. -/
theorem fastPaths_agree (hg : g.Valid) (vs : List (Fin n)) :
    ((g.neighbors vs).Pairwise (· < ·) ∧
      (∀ v, v ∈ g.neighbors vs ↔ v ∉ vs ∧ ∃ u ∈ vs, g.adjMat u v = true) ∧
      g.neighborsByBitmap vs = g.neighbors vs ∧ g.neighborsBySet vs = g.neighbors vs) ∧
    (vs.Nodup → (g.edgesIn vs).Nodup ∧
      (∀ e, e ∈ g.edgesIn vs ↔ e.1 ∈ vs ∧ e.2 ∈ vs ∧ e.1 < e.2 ∧ g.adjMat e.1 e.2 = true) ∧
      ∀ choice, (g.edgesInBy vs choice).Perm (g.edgesIn vs)) := by
  have hsame := g.neighborsByBitmap_eq vs
  refine ⟨⟨neighbors_sorted g vs, ?_, ?_, ?_⟩, ?_⟩
  · intro v
    rw [mem_neighbors hg, mem_nbhd]
    simp only [mem_vset, hg.adj_iff]
  · rw [Graph.neighbors_eq]
    split
    · exact rfl
    · exact hsame
  · rw [Graph.neighbors_eq]
    split
    · exact hsame.symm
    · exact rfl
  · intro hvs
    rw [g.edgesIn_eq_edgesInBy vs]
    refine ⟨nodup_edgesInBy hg hvs _, fun e => mem_edgesInBy hg, ?_⟩
    intro choice
    rw [List.perm_ext_iff_of_nodup (nodup_edgesInBy hg hvs _) (nodup_edgesInBy hg hvs _)]
    intro e
    rw [mem_edgesInBy hg, mem_edgesInBy hg]

/-- A star with a vertex outside it. -/
theorem fastPaths_agree_star :
    ∃ g : Graph 4, (Graph.empty 4).addEdges [(0, 2), (0, 1)] = some g ∧
      (g.neighbors [0]).Pairwise (· < ·) ∧ (g.edgesIn [2, 1, 0]).Nodup := by
  obtain ⟨g, hadd, hspec⟩ := addEdges_spec (Graph.valid_empty 4) [(0, 2), (0, 1)] (by decide)
  exact ⟨g, hadd, (fastPaths_agree hspec.valid [0]).1.1,
    ((fastPaths_agree hspec.valid [2, 1, 0]).2 (by decide)).1⟩

end Triangulator
