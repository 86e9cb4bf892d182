import Triangulator.Model.Io
import Triangulator.Verification.Preprocess

/-!
# The graphs that can be read

The vertices of a graph that was read are numbered by the ranks of their names, its
vertex map is the identity, and every vertex is the end of an edge.
-/

namespace Triangulator

open SimpleGraph

/-! ## Ranks -/

section Rank

variable {α : Type*} [LinearOrder α]

/-- The rank of an element of a sorted vector is its position. -/
theorem StaticSet.rank_getElem {s : StaticSet α} (hs : s.values.Pairwise (· < ·)) {i : ℕ}
    (hi : i < s.values.length) : s.rank s.values[i] = i := by
  rw [StaticSet.rank, List.findIdx_eq hi]
  constructor
  · exact decide_eq_true le_rfl
  · intro j hj
    rw [decide_eq_false_iff_not, not_le]
    exact List.pairwise_iff_getElem.mp hs _ _ _ _ hj

theorem StaticSet.init_sorted (values : List α) :
    (StaticSet.init values).values.Pairwise (· < ·) :=
  sortAndDedup_sorted values

theorem StaticSet.mem_init {values : List α} {a : α} :
    a ∈ (StaticSet.init values).values ↔ a ∈ values :=
  mem_sortAndDedup

theorem StaticSet.rank_lt {values : List α} {a : α} (ha : a ∈ values) :
    (StaticSet.init values).rank a < (StaticSet.init values).size := by
  obtain ⟨i, hi, rfl⟩ := List.mem_iff_getElem.mp (StaticSet.mem_init.mpr ha)
  rw [StaticSet.rank_getElem (StaticSet.init_sorted values) hi]
  exact hi

/-- Every number below the size is the rank of a value. -/
theorem StaticSet.exists_rank {values : List α} (v : Fin (StaticSet.init values).size) :
    ∃ a ∈ values, (StaticSet.init values).rank a = v := by
  have hv : (v : ℕ) < (StaticSet.init values).values.length := v.isLt
  refine ⟨(StaticSet.init values).values[(v : ℕ)], ?_, ?_⟩
  · exact StaticSet.mem_init.mp (List.getElem_mem hv)
  · exact StaticSet.rank_getElem (StaticSet.init_sorted values) hv

end Rank

/-! ## Graphs -/

/-- A graph as `ReadGraph` builds it. -/
structure IsRead {n : ℕ} (g : Graph n) : Prop where
  valid : g.Valid
  identity : g.HasIdentityMap
  support : ∀ v, v ∈ g.toSimple.support

namespace Io

/-- What holds after the edges of `done` have been added. -/
structure NamesAdded (edges done : List (Text × Text))
    (g : Graph (StaticSet.initPairs edges).size) : Prop where
  valid : g.Valid
  identity : g.HasIdentityMap
  adj : ∀ e ∈ done, ∃ u v : Fin (StaticSet.initPairs edges).size,
    (StaticSet.initPairs edges).rank e.1 = u ∧
      (StaticSet.initPairs edges).rank e.2 = v ∧ g.toSimple.Adj u v

theorem namesAdded_empty (edges : List (Text × Text)) :
    NamesAdded edges [] (Graph.empty _) where
  valid := Graph.valid_empty _
  identity := sortAndDedup_range _
  adj := by simp

theorem NamesAdded.step {edges done : List (Text × Text)}
    {g g' : Graph (StaticSet.initPairs edges).size} (h : NamesAdded edges done g)
    {e : Text × Text} {u v : Fin (StaticSet.initPairs edges).size}
    (hu : (StaticSet.initPairs edges).rank e.1 = u)
    (hv : (StaticSet.initPairs edges).rank e.2 = v) (hadd : g.addEdge u v = some g') :
    NamesAdded edges (done ++ [e]) g' := by
  have huv : u ≠ v := by
    rintro rfl
    rw [Graph.addEdge, h.valid.irrefl, if_neg Bool.false_ne_true, if_pos rfl] at hadd
    cases hadd
  obtain ⟨g₁, hadd₁, hspec⟩ := addEdge_spec h.valid huv
  rw [hadd, Option.some_inj] at hadd₁
  subst hadd₁
  refine ⟨hspec.valid, ?_, ?_⟩
  · rw [Graph.HasIdentityMap, hspec.vertexMap]
    exact h.identity
  · intro e' he'
    rw [hspec.toSimple]
    rcases List.mem_append.mp he' with he' | he'
    · obtain ⟨a, b, ha, hb, hab⟩ := h.adj e' he'
      exact ⟨a, b, ha, hb, le_addFill hab⟩
    · rw [List.mem_singleton] at he'
      subst he'
      exact ⟨u, v, hu, hv, addFill_adj.mpr (Or.inr ⟨huv, by simp⟩)⟩

theorem graphOfNames_spec {edges : List (Text × Text)}
    {g : Graph (StaticSet.initPairs edges).size} (h : graphOfNames edges = some g) :
    NamesAdded edges edges g := by
  have hfold : ∀ rest done (g₀ : Graph (StaticSet.initPairs edges).size),
      NamesAdded edges done g₀ → rest.foldlM (fun graph edge =>
        if h : (StaticSet.initPairs edges).rank edge.1 < (StaticSet.initPairs edges).size ∧
            (StaticSet.initPairs edges).rank edge.2 < (StaticSet.initPairs edges).size then
          graph.addEdge ⟨_, h.1⟩ ⟨_, h.2⟩
        else none) g₀ = some g → NamesAdded edges (done ++ rest) g := by
    intro rest
    induction rest with
    | nil =>
        intro done g₀ h₀ hrun
        rw [List.foldlM_nil, Option.pure_def, Option.some_inj] at hrun
        rw [List.append_nil]
        exact hrun ▸ h₀
    | cons e rest ih =>
        intro done g₀ h₀ hrun
        rw [List.foldlM_cons, Option.bind_eq_bind, Option.bind_eq_some_iff] at hrun
        obtain ⟨g₁, hadd, hrest⟩ := hrun
        split at hadd
        · have hnext := ih (done ++ [e]) g₁ (h₀.step rfl rfl hadd) hrest
          rwa [List.append_assoc] at hnext
        · cases hadd
  exact hfold edges [] _ (namesAdded_empty edges) h

/-- A graph that was read. -/
theorem readGraph_spec {input : List Text} {n : ℕ} {g : Graph n}
    (h : readGraph input = some ⟨n, g⟩) : IsRead g := by
  rw [readGraph, Option.bind_eq_bind, Option.bind_eq_some_iff] at h
  obtain ⟨s, -, h⟩ := h
  rw [Option.bind_eq_bind, Option.bind_eq_some_iff] at h
  obtain ⟨graph, hgraph, h⟩ := h
  cases h
  have hspec := graphOfNames_spec hgraph
  refine ⟨hspec.valid, hspec.identity, ?_⟩
  intro v
  obtain ⟨a, ha, hrank⟩ := StaticSet.exists_rank v
  obtain ⟨e, he, hae⟩ := List.mem_flatMap.mp ha
  obtain ⟨x, y, hx, hy, hxy⟩ := hspec.adj e he
  rw [List.mem_cons, List.mem_singleton] at hae
  rcases hae with rfl | rfl
  · have hvx : v = x := Fin.ext (hrank.symm.trans hx)
    exact hvx ▸ ⟨y, hxy⟩
  · have hvy : v = y := Fin.ext (hrank.symm.trans hy)
    exact hvy ▸ ⟨x, hxy.symm⟩

end Io

end Triangulator
