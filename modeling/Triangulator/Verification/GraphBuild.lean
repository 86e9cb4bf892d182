import Triangulator.GraphTheory.Completion
import Triangulator.Model.McsM
import Triangulator.Verification.FastPaths

/-!
# Edge removal, graphs built from edge lists, and labels

A graph built from a list of labelled edges has the endpoints as labels, in
increasing order; the graph of the edges inside a vertex list is the induced
subgraph without its isolated vertices.
-/

namespace Triangulator

open SimpleGraph

variable {n k : ℕ} {g : Graph n} {u v x : Fin n} {vs : List (Fin n)}

/-! ## Removing an edge -/

/-- Swap-and-pop removes one entry and keeps the others. -/
theorem swapRemove_spec {l : List (Fin n)} (hu : u ∈ l) :
    (Graph.swapRemove l u).2 = 1 ∧ (Graph.swapRemove l u).1.Perm (l.erase u) := by
  rw [Graph.swapRemove, if_pos hu]
  refine ⟨rfl, ?_⟩
  obtain ⟨p, q, hp, rfl, herase⟩ := List.exists_erase_eq hu
  rw [herase, List.idxOf_append_of_notMem hp, List.idxOf_cons_self, Nat.add_zero,
    List.set_append_right p.length _ le_rfl, Nat.sub_self, List.set_cons_zero]
  rcases List.eq_nil_or_concat q with rfl | ⟨q, z, rfl⟩
  · simp
  · -- The last entry takes the place of the removed one.
    rw [List.concat_eq_append]
    have hlast : ((p ++ u :: (q ++ [z])).getLast?).getD u = z := by
      rw [← List.cons_append, ← List.append_assoc, List.getLast?_concat, Option.getD_some]
    rw [hlast]
    have hdrop : (p ++ z :: (q ++ [z])).dropLast = p ++ z :: q := by
      rw [← List.cons_append, ← List.append_assoc, List.dropLast_concat]
    rw [hdrop]
    refine List.Perm.append_left p ?_
    exact (List.perm_append_singleton z q).symm

/-- The graph that `RemoveEdge` returns. -/
def Graph.withoutEdge (g : Graph n) (v u : Fin n) : Graph n where
  m := g.m - 1
  vertexMap := g.vertexMap
  adjList := Function.update
    (Function.update g.adjList v (Graph.swapRemove (g.adjList v) u).1) u
    (Graph.swapRemove (g.adjList u) v).1
  adjMat := fun a b => if (a = v ∧ b = u) ∨ (a = u ∧ b = v) then false else g.adjMat a b

/-- What removing an edge does to a graph. -/
structure EdgeRemoved (g : Graph n) (v u : Fin n) (g' : Graph n) : Prop where
  valid : g'.Valid
  adj_iff : ∀ a b, g'.toSimple.Adj a b ↔ g.toSimple.Adj a b ∧ s(a, b) ≠ s(v, u)
  vertexMap : g'.vertexMap = g.vertexMap
  m_eq : g'.m + 1 = g.m

/-- `RemoveEdge` on an edge. -/
theorem removeEdge_spec (hg : g.Valid) (hadj : g.toSimple.Adj v u) :
    ∃ g', g.removeEdge v u = some g' ∧ EdgeRemoved g v u g' := by
  have hvu : g.adjMat v u = true := hg.adj_iff.mp hadj
  have huv : g.adjMat u v = true := hg.adj_iff.mp hadj.symm
  have hne : v ≠ u := hadj.ne
  obtain ⟨hone, hpermv⟩ := swapRemove_spec ((hg.mem_adjList v u).mpr hvu)
  obtain ⟨htwo, hpermu⟩ := swapRemove_spec ((hg.mem_adjList u v).mpr huv)
  have hlist : Function.update g.adjList v (Graph.swapRemove (g.adjList v) u).1 u =
      g.adjList u := Function.update_of_ne hne.symm _ _
  have hperm : ∀ a, (Function.update
      (Function.update g.adjList v (Graph.swapRemove (g.adjList v) u).1) u
        (Graph.swapRemove (g.adjList u) v).1 a).Perm
      (if a = v then (g.adjList a).erase u else if a = u then (g.adjList a).erase v
        else g.adjList a) := by
    intro a
    by_cases hau : a = u
    · subst hau
      rw [Function.update_self, if_neg hne.symm, if_pos rfl]
      exact hpermu
    · rw [Function.update_of_ne hau]
      by_cases hav : a = v
      · subst hav
        rw [Function.update_self, if_pos rfl]
        exact hpermv
      · rw [Function.update_of_ne hav, if_neg hav, if_neg hau]
  have hmem : ∀ a b, b ∈ (if a = v then (g.adjList a).erase u else if a = u then
      (g.adjList a).erase v else g.adjList a) ↔
      g.adjMat a b = true ∧ ¬((a = v ∧ b = u) ∨ (a = u ∧ b = v)) := by
    intro a b
    rw [← hg.mem_adjList]
    by_cases hav : a = v
    · subst hav
      rw [if_pos rfl, (hg.nodup_adjList a).mem_erase_iff]
      tauto
    · rw [if_neg hav]
      by_cases hau : a = u
      · subst hau
        rw [if_pos rfl, (hg.nodup_adjList a).mem_erase_iff]
        tauto
      · rw [if_neg hau]
        tauto
  have hmat : ∀ a b, ((if (a = v ∧ b = u) ∨ (a = u ∧ b = v) then false
      else g.adjMat a b) = true) ↔
      g.adjMat a b = true ∧ ¬((a = v ∧ b = u) ∨ (a = u ∧ b = v)) := by
    intro a b
    split
    · simp [*]
    · simp [*]
  have hpos : 0 < g.m := by
    by_contra hzero
    have hbot := hg.m_eq_zero_iff.mp (Nat.eq_zero_of_not_pos hzero)
    rw [hbot] at hadj
    exact hadj
  refine ⟨g.withoutEdge v u, ?_, ⟨?_, ?_, ?_, ?_, ?_, hg.labels_length, hg.labels_sorted⟩,
    ?_, rfl, Nat.sub_add_cancel hpos⟩
  · rw [Graph.removeEdge, hvu, huv, Bool.and_self, if_pos rfl]
    simp only [hlist, hone, htwo, Nat.reduceAdd, if_true]
    rfl
  · intro a b
    dsimp only [Graph.withoutEdge]
    rw [Bool.eq_iff_iff, hmat, hmat, hg.symm a b]
    tauto
  · intro a
    dsimp only [Graph.withoutEdge]
    rw [Bool.eq_false_iff, Ne, hmat, hg.irrefl a]
    simp
  · intro a b
    dsimp only [Graph.withoutEdge]
    rw [(hperm a).mem_iff, hmem, hmat]
  · intro a
    refine (hperm a).nodup_iff.mpr ?_
    split
    · exact (hg.nodup_adjList a).erase u
    · split
      · exact (hg.nodup_adjList a).erase v
      · exact hg.nodup_adjList a
  · change ∑ a, (Function.update (Function.update g.adjList v
      (Graph.swapRemove (g.adjList v) u).1) u (Graph.swapRemove (g.adjList u) v).1 a).length =
        2 * (g.m - 1)
    have hlen : ∀ a, (g.adjList a).length = if a = v then
        (Function.update (Function.update g.adjList v
          (Graph.swapRemove (g.adjList v) u).1) u
          (Graph.swapRemove (g.adjList u) v).1 a).length + 1
        else if a = u then (Function.update (Function.update g.adjList v
          (Graph.swapRemove (g.adjList v) u).1) u
          (Graph.swapRemove (g.adjList u) v).1 a).length + 1
        else (Function.update (Function.update g.adjList v
          (Graph.swapRemove (g.adjList v) u).1) u
          (Graph.swapRemove (g.adjList u) v).1 a).length := by
      intro a
      rw [(hperm a).length_eq]
      by_cases hav : a = v
      · subst hav
        have hmem : u ∈ g.adjList a := (hg.mem_adjList a u).mpr hvu
        rw [if_pos rfl, if_pos rfl, List.length_erase_of_mem hmem,
          Nat.sub_add_cancel (List.length_pos_of_mem hmem)]
      · rw [if_neg hav, if_neg hav]
        by_cases hau : a = u
        · subst hau
          have hmem : v ∈ g.adjList a := (hg.mem_adjList a v).mpr huv
          rw [if_pos rfl, if_pos rfl, List.length_erase_of_mem hmem,
            Nat.sub_add_cancel (List.length_pos_of_mem hmem)]
        · rw [if_neg hau, if_neg hau]
    have hsum := hg.m_eq
    simp only [hlen] at hsum
    rw [sum_addEdge _ hne] at hsum
    omega
  · intro a b
    rw [Graph.toSimple, fromRel_adj]
    dsimp only [Graph.withoutEdge]
    rw [hmat, hmat, hg.adj_iff, hg.symm b a, Ne, Ne, Sym2.eq_iff]
    have hirr : a = b → g.adjMat a b = false := fun hab => hab ▸ hg.irrefl a
    constructor
    · rintro ⟨-, h | h⟩
      · exact h
      · exact ⟨h.1, fun hab => h.2 (by tauto)⟩
    · intro h
      refine ⟨fun hab => ?_, Or.inl h⟩
      rw [hirr hab] at h
      exact absurd h.1 Bool.false_ne_true

theorem addEdge_m_le {g' : Graph n} (h : g.addEdge v u = some g') : g'.m ≤ g.m + 1 := by
  rw [Graph.addEdge] at h
  split at h
  · rw [← Option.some.inj h]
    exact Nat.le_succ g.m
  · split at h
    · cases h
    · rw [← Option.some.inj h]

/-! ## Labels -/

theorem Graph.mapBack_eq (v : Fin n) (hv : (v : ℕ) < g.vertexMap.values.length) :
    g.mapBack v = g.vertexMap.values[(v : ℕ)] := by
  rw [Graph.mapBack, List.getD_eq_getElem _ _ hv]

namespace Graph.Valid

theorem label_lt (hg : g.Valid) (v : Fin n) : (v : ℕ) < g.vertexMap.values.length :=
  hg.labels_length.symm ▸ v.isLt

theorem mapBack_mem (hg : g.Valid) (v : Fin n) : g.mapBack v ∈ g.vertexMap.values := by
  rw [Graph.mapBack_eq v (hg.label_lt v)]
  exact List.getElem_mem _

theorem mapBack_strictMono (hg : g.Valid) : StrictMono g.mapBack := by
  intro u v huv
  rw [Graph.mapBack_eq u (hg.label_lt u), Graph.mapBack_eq v (hg.label_lt v)]
  exact List.pairwise_iff_getElem.mp hg.labels_sorted _ _ _ _ huv

theorem exists_mapBack (hg : g.Valid) {a : ℕ} (ha : a ∈ g.vertexMap.values) :
    ∃ v, g.mapBack v = a := by
  obtain ⟨i, hi, rfl⟩ := List.mem_iff_getElem.mp ha
  exact ⟨⟨i, hg.labels_length ▸ hi⟩, Graph.mapBack_eq _ hi⟩

/-- The rank of a label is the vertex that carries it. -/
theorem rank_mapBack (hg : g.Valid) (v : Fin n) : g.vertexMap.rank (g.mapBack v) = v := by
  have hv := hg.label_lt v
  rw [StaticSet.rank, List.findIdx_eq hv]
  constructor
  · rw [decide_eq_true_eq, Graph.mapBack_eq v hv]
  · intro j hj
    rw [decide_eq_false_iff_not, Nat.not_le, Graph.mapBack_eq v hv]
    exact List.pairwise_iff_getElem.mp hg.labels_sorted _ _ _ _ hj

end Graph.Valid

/-! ## Graphs built from edge lists -/

theorem mem_initPairs {edges : List (ℕ × ℕ)} {a : ℕ} :
    a ∈ (StaticSet.initPairs edges).values ↔ ∃ e ∈ edges, a = e.1 ∨ a = e.2 := by
  rw [StaticSet.initPairs, StaticSet.init_values, mem_sortAndDedup, List.mem_flatMap]
  simp

/-- The edges of the graph are the pairs of labels in the list. -/
structure BuiltFrom (edges : List (ℕ × ℕ)) (h : Graph n) : Prop where
  valid : h.Valid
  adj_iff : ∀ i j, h.toSimple.Adj i j ↔
    (h.mapBack i, h.mapBack j) ∈ edges ∨ (h.mapBack j, h.mapBack i) ∈ edges

/-- Adding one more edge between labelled vertices. -/
theorem BuiltFrom.add {edges : List (ℕ × ℕ)} {h h' : Graph n} (hb : BuiltFrom edges h)
    (huv : u ≠ v) (hadd : EdgesAdded h [(u, v)] h') :
    BuiltFrom (edges ++ [(h.mapBack u, h.mapBack v)]) h' where
  valid := hadd.valid
  adj_iff := by
    intro i j
    have hlabel : ∀ w, h'.mapBack w = h.mapBack w := by
      intro w
      rw [Graph.mapBack, Graph.mapBack, hadd.vertexMap]
    have hinj := hb.valid.mapBack_strictMono.injective
    rw [hadd.toSimple, addFill_adj, hb.adj_iff, hlabel, hlabel, List.mem_append,
      List.mem_append, List.mem_singleton, List.mem_singleton, Prod.mk.injEq, Prod.mk.injEq,
      hinj.eq_iff, hinj.eq_iff, hinj.eq_iff, hinj.eq_iff]
    have hne : i ≠ j ∧ s(i, j) ∈ [(u, v)].map (fun p : Fin n × Fin n => s(p.1, p.2)) ↔
        i ≠ j ∧ ((i = u ∧ j = v) ∨ (j = u ∧ i = v)) := by
      rw [List.map_singleton, List.mem_singleton, Sym2.eq_iff]
      tauto
    rw [hne]
    constructor
    · tauto
    · rintro ((h1 | ⟨rfl, rfl⟩) | (h1 | ⟨rfl, rfl⟩))
      · exact Or.inl (Or.inl h1)
      · exact Or.inr ⟨huv, Or.inl ⟨rfl, rfl⟩⟩
      · exact Or.inl (Or.inr h1)
      · exact Or.inr ⟨huv.symm, Or.inr ⟨rfl, rfl⟩⟩

/-- The graph before the first edge of the list. -/
theorem builtFrom_nil (edges : List (ℕ × ℕ)) :
    BuiltFrom [] (Graph.mk (n := (StaticSet.initPairs edges).size) 0
      (StaticSet.initPairs edges) (fun _ => []) fun _ _ => false) := by
  refine ⟨⟨fun _ _ => rfl, fun _ => rfl, ?_, ?_, ?_, rfl, ?_⟩, ?_⟩
  · simp
  · simp
  · simp
  · exact sortAndDedup_sorted _
  · intro i j
    simp [Graph.toSimple]

/-- The constructor on edges between different labels. -/
theorem ofEdges_spec (edges : List (ℕ × ℕ)) (hne : ∀ e ∈ edges, e.1 ≠ e.2) :
    ∃ h, Graph.ofEdges edges = some h ∧ BuiltFrom edges h ∧
      h.vertexMap = StaticSet.initPairs edges := by
  have hfold : ∀ rest done (h : Graph (StaticSet.initPairs edges).size),
      edges = done ++ rest → BuiltFrom done h → h.vertexMap = StaticSet.initPairs edges →
      ∃ h', rest.foldlM (fun g e =>
        if h : (StaticSet.initPairs edges).rank e.1 < (StaticSet.initPairs edges).size ∧
            (StaticSet.initPairs edges).rank e.2 < (StaticSet.initPairs edges).size then
          g.addEdge ⟨_, h.1⟩ ⟨_, h.2⟩
        else none) h = some h' ∧ BuiltFrom edges h' ∧
        h'.vertexMap = StaticSet.initPairs edges := by
    intro rest
    induction rest with
    | nil =>
        intro done h hsplit hb hmap
        rw [List.append_nil] at hsplit
        exact ⟨h, rfl, hsplit ▸ hb, hmap⟩
    | cons e rest ih =>
        intro done h hsplit hb hmap
        have he : e ∈ edges := by
          rw [hsplit]
          simp
        have hends : ∀ a, a = e.1 ∨ a = e.2 → a ∈ h.vertexMap.values := by
          intro a ha
          rw [hmap, mem_initPairs]
          exact ⟨e, he, ha⟩
        obtain ⟨u, hu⟩ := hb.valid.exists_mapBack (hends e.1 (Or.inl rfl))
        obtain ⟨v, hv⟩ := hb.valid.exists_mapBack (hends e.2 (Or.inr rfl))
        have hranku := hb.valid.rank_mapBack u
        have hrankv := hb.valid.rank_mapBack v
        rw [hmap, hu] at hranku
        rw [hmap, hv] at hrankv
        have huv : u ≠ v := by
          rintro rfl
          exact hne e he (hu.symm.trans hv)
        obtain ⟨h₁, hadd, h₁spec⟩ := addEdge_spec hb.valid huv
        have hb₁ := hb.add huv h₁spec
        rw [hu, hv] at hb₁
        obtain ⟨h', hrun, hb', hmap'⟩ := ih (done ++ [e]) h₁ (by rw [hsplit]; simp) hb₁
          (h₁spec.vertexMap.trans hmap)
        refine ⟨h', ?_, hb', hmap'⟩
        rw [List.foldlM_cons, dif_pos ⟨hranku ▸ u.isLt, hrankv ▸ v.isLt⟩]
        have hstep : ∀ (i j : Fin (StaticSet.initPairs edges).size), i = u → j = v →
            h.addEdge i j = some h₁ := by
          rintro i j rfl rfl
          exact hadd
        rw [hstep _ _ (Fin.ext hranku) (Fin.ext hrankv)]
        exact hrun
  exact hfold edges [] _ rfl (builtFrom_nil edges) rfl

/-! ## Induced subgraphs -/

/-- The graph `h` is the graph inside `A` without its isolated vertices, and its labels
are the vertices it comes from. -/
structure InducedOn (g : Graph n) (A : Set (Fin n)) (h : Graph k) (ψ : Fin k ↪ Fin n) :
    Prop where
  valid : h.Valid
  label : ∀ j, (ψ j : ℕ) = h.mapBack j
  map_eq : h.toSimple.map ψ = g.toSimple.within A
  support : ∀ j, ∃ i, h.toSimple.Adj j i

theorem inducedGraph_spec (hg : g.Valid) (vs : List (Fin n)) :
    ∃ h : Mcs.SomeGraph, Mcs.inducedGraph g vs = some h ∧ ∃ ψ, InducedOn g (vset vs) h.2 ψ := by
  set edges := (g.edgesIn vs).map fun e => ((e.1 : ℕ), (e.2 : ℕ)) with hedges
  have hmem : ∀ a b : ℕ, (a, b) ∈ edges ↔
      ∃ u v : Fin n, (u, v) ∈ g.edgesIn vs ∧ (u : ℕ) = a ∧ (v : ℕ) = b := by
    intro a b
    rw [hedges, List.mem_map]
    constructor
    · rintro ⟨e, he, heq⟩
      exact ⟨e.1, e.2, he, congrArg Prod.fst heq, congrArg Prod.snd heq⟩
    · rintro ⟨u, v, he, rfl, rfl⟩
      exact ⟨(u, v), he, rfl⟩
  obtain ⟨h, hrun, hb, hmap⟩ := ofEdges_spec edges fun e he => by
    obtain ⟨u, v, huv, hu, hv⟩ := (hmem e.1 e.2).mp he
    have hlt := ((mem_edgesIn hg).mp huv).2.2.1
    rw [← hu, ← hv]
    exact (Fin.val_fin_lt.mpr hlt).ne
  have hlt : ∀ j, h.mapBack j < n := by
    intro j
    have hj := hb.valid.mapBack_mem j
    rw [hmap, mem_initPairs] at hj
    obtain ⟨e, he, hje⟩ := hj
    obtain ⟨u, v, -, hu, hv⟩ := (hmem e.1 e.2).mp he
    rcases hje with hje | hje
    · rw [hje, ← hu]
      exact u.isLt
    · rw [hje, ← hv]
      exact v.isLt
  let ψ : Fin (StaticSet.initPairs edges).size ↪ Fin n :=
    ⟨fun j => ⟨h.mapBack j, hlt j⟩, fun i j hij =>
      hb.valid.mapBack_strictMono.injective (congrArg Fin.val hij)⟩
  have hadj : ∀ i j, h.toSimple.Adj i j ↔
      (ψ i, ψ j) ∈ g.edgesIn vs ∨ (ψ j, ψ i) ∈ g.edgesIn vs := by
    have hedge : ∀ i j, (h.mapBack i, h.mapBack j) ∈ edges ↔ (ψ i, ψ j) ∈ g.edgesIn vs := by
      intro i j
      rw [hmem]
      constructor
      · rintro ⟨u, v, huv, hu, hv⟩
        have hui : u = ψ i := Fin.ext hu
        have hvj : v = ψ j := Fin.ext hv
        exact hui ▸ hvj ▸ huv
      · intro hij
        exact ⟨ψ i, ψ j, hij, rfl, rfl⟩
    intro i j
    rw [hb.adj_iff, hedge, hedge]
  -- Every end of an edge inside the list is the image of a vertex.
  have hrange : ∀ u v, (u, v) ∈ g.edgesIn vs → (∃ i, ψ i = u) ∧ ∃ j, ψ j = v := by
    intro u v huv
    have hin : ((u : ℕ), (v : ℕ)) ∈ edges := (hmem _ _).mpr ⟨u, v, huv, rfl, rfl⟩
    have hends : ∀ a, a = (u : ℕ) ∨ a = (v : ℕ) → ∃ i, h.mapBack i = a := by
      intro a ha
      apply hb.valid.exists_mapBack
      rw [hmap, mem_initPairs]
      exact ⟨_, hin, ha⟩
    obtain ⟨i, hi⟩ := hends u (Or.inl rfl)
    obtain ⟨j, hj⟩ := hends v (Or.inr rfl)
    exact ⟨⟨i, Fin.ext hi⟩, j, Fin.ext hj⟩
  refine ⟨⟨_, h⟩, ?_, ψ, hb.valid, fun _ => rfl, ?_, ?_⟩
  · rw [Mcs.inducedGraph, ← hedges, hrun]
    rfl
  · ext u v
    rw [map_adj, within_adj]
    constructor
    · rintro ⟨i, j, hij, rfl, rfl⟩
      rcases (hadj i j).mp hij with he | he
      · obtain ⟨hi, hj, -, hij⟩ := (mem_edgesIn hg).mp he
        exact ⟨hij, hi, hj⟩
      · obtain ⟨hj, hi, -, hij⟩ := (mem_edgesIn hg).mp he
        exact ⟨hij.symm, hi, hj⟩
    · rintro ⟨huv, hu, hv⟩
      rcases lt_or_gt_of_ne huv.ne with hlt | hlt
      · have he : (u, v) ∈ g.edgesIn vs := (mem_edgesIn hg).mpr ⟨hu, hv, hlt, huv⟩
        obtain ⟨⟨i, rfl⟩, j, rfl⟩ := hrange u v he
        exact ⟨i, j, (hadj i j).mpr (Or.inl he), rfl, rfl⟩
      · have he : (v, u) ∈ g.edgesIn vs := (mem_edgesIn hg).mpr ⟨hv, hu, hlt, huv.symm⟩
        obtain ⟨⟨j, rfl⟩, i, rfl⟩ := hrange v u he
        exact ⟨i, j, (hadj i j).mpr (Or.inr he), rfl, rfl⟩
  · intro j
    have hj := hb.valid.mapBack_mem j
    rw [hmap, mem_initPairs] at hj
    obtain ⟨e, he, hje⟩ := hj
    obtain ⟨u, v, huv, hu, hv⟩ := (hmem e.1 e.2).mp he
    obtain ⟨⟨a, ha⟩, b, hb'⟩ := hrange u v huv
    have hab : h.toSimple.Adj a b := by
      rw [hadj, ha, hb']
      exact Or.inl huv
    rcases hje with hje | hje
    · have hja : j = a := ψ.injective (Fin.ext (hje.trans (hu.symm.trans (congrArg Fin.val ha.symm))))
      exact ⟨b, hja ▸ hab⟩
    · have hjb : j = b := ψ.injective (Fin.ext (hje.trans (hv.symm.trans (congrArg Fin.val hb'.symm))))
      exact ⟨a, hjb ▸ hab.symm⟩

/-- `InheritMap` replaces the labels by the labels of the parent. -/
theorem InducedOn.inheritMap {A : Set (Fin n)} {h : Graph k} {ψ : Fin k ↪ Fin n}
    (hh : InducedOn g A h ψ) (hg : g.Valid) :
    (h.inheritMap g).Valid ∧ (h.inheritMap g).toSimple = h.toSimple ∧
      ∀ j, (h.inheritMap g).mapBack j = g.mapBack (ψ j) := by
  have hvalues : h.vertexMap.values = (List.finRange k).map h.mapBack := by
    apply List.ext_getElem
    · rw [hh.valid.labels_length, List.length_map, List.length_finRange]
    · intro i hi hi'
      rw [List.getElem_map, List.getElem_finRange, Graph.mapBack_eq _ hi]
      rfl
  have hmono : StrictMono fun j => g.mapBack (ψ j) := by
    intro i j hij
    apply hg.mapBack_strictMono
    have hlt := hh.valid.mapBack_strictMono hij
    rwa [← hh.label i, ← hh.label j] at hlt
  have hlist : h.vertexMap.values.map (fun v => g.vertexMap.values.getD v 0) =
      (List.finRange k).map fun j => g.mapBack (ψ j) := by
    rw [hvalues, List.map_map]
    apply List.map_congr_left
    intro j _
    rw [Function.comp_apply, ← hh.label j, Graph.mapBack]
  have hsorted : ((List.finRange k).map fun j => g.mapBack (ψ j)).Pairwise (· < ·) := by
    rw [List.pairwise_map]
    exact (List.pairwise_lt_finRange k).imp fun hij => hmono hij
  have hinit : (h.inheritMap g).vertexMap.values =
      (List.finRange k).map fun j => g.mapBack (ψ j) := by
    rw [Graph.inheritMap, hlist, StaticSet.init_values]
    apply eq_of_vset_eq (sortAndDedup_sorted _) hsorted
    ext a
    exact mem_sortAndDedup
  have hvalid : (h.inheritMap g).Valid :=
    ⟨hh.valid.symm, hh.valid.irrefl, hh.valid.mem_adjList, hh.valid.nodup_adjList,
      hh.valid.m_eq, by rw [hinit, List.length_map, List.length_finRange], hinit ▸ hsorted⟩
  refine ⟨hvalid, rfl, ?_⟩
  intro j
  rw [Graph.mapBack_eq j (hvalid.label_lt j)]
  simp only [hinit]
  rw [List.getElem_map, List.getElem_finRange]
  rfl

/-! ## The minimum degree -/

theorem Graph.Valid.length_adjList (hg : g.Valid) (v : Fin n) :
    (g.adjList v).length = (g.toSimple.neighborSet v).ncard := by
  rw [← ncard_vset (hg.nodup_adjList v)]
  congr 1
  ext u
  exact hg.mem_adjList_iff

/-- `MinDegree` is the greatest lower bound of the degrees and of the number of other
vertices. -/
theorem minDegree_le (v : Fin n) : g.minDegree ≤ (g.adjList v).length := by
  have hfold : ∀ (l : List (Fin n)) (d : ℤ),
      l.foldl (fun mdg i => min mdg ((g.adjList i).length : ℤ)) d ≤ d ∧
      ∀ v ∈ l, l.foldl (fun mdg i => min mdg ((g.adjList i).length : ℤ)) d ≤
        (g.adjList v).length := by
    intro l
    induction l with
    | nil => exact fun d => ⟨le_rfl, by simp⟩
    | cons a l ih =>
        intro d
        obtain ⟨hle, hall⟩ := ih (min d ((g.adjList a).length : ℤ))
        refine ⟨hle.trans (min_le_left _ _), ?_⟩
        intro v hv
        rcases List.mem_cons.mp hv with rfl | hv
        · exact hle.trans (min_le_right _ _)
        · exact hall v hv
  exact (hfold (List.finRange n) _).2 v (List.mem_finRange v)

theorem le_minDegree {d : ℤ} (hn : d ≤ (n : ℤ) - 1) (h : ∀ v, d ≤ (g.adjList v).length) :
    d ≤ g.minDegree := by
  have hfold : ∀ (l : List (Fin n)) (c : ℤ), d ≤ c →
      d ≤ l.foldl (fun mdg i => min mdg ((g.adjList i).length : ℤ)) c := by
    intro l
    induction l with
    | nil => exact fun c hc => hc
    | cons a l ih => exact fun c hc => ih _ (le_min hc (h a))
  exact hfold (List.finRange n) _ hn

end Triangulator
