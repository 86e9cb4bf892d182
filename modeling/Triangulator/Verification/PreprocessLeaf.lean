import Triangulator.Verification.Atoms
import Triangulator.Verification.Degree2
import Triangulator.Verification.NeighborClique

/-!
# Graphs on which the preprocessor stops to split

A graph without a clique separator that needs two fill edges has minimum degree at
least two, and no neighbourhood in it is a clique.  A missing edge that is the only
one in a neighbourhood may be added without raising the treewidth.
-/

namespace Triangulator

open SimpleGraph

variable {n k N : ℕ} {g h : Graph n} {φ : Fin n ↪ Fin N} {x u v : Fin n}

/-! ## Graphs with labels in a surrounding graph -/

/-- The labels of the graph are the values of the embedding. -/
structure Embeds (g : Graph n) (φ : Fin n ↪ Fin N) : Prop where
  valid : g.Valid
  label : ∀ v, (φ v : ℕ) = g.mapBack v

theorem Embeds.congr (hg : Embeds g φ) (hh : h.Valid) (hmap : h.vertexMap = g.vertexMap) :
    Embeds h φ where
  valid := hh
  label := by
    intro v
    rw [hg.label, Graph.mapBack, Graph.mapBack, hmap]

theorem Embeds.mapBackEdges_eq (hg : Embeds g φ) (F : List (Fin n × Fin n)) :
    mapBackEdges ⟨n, g⟩ (edgeNumbers F) = edgeNumbers (embedEdges φ F) := by
  rw [mapBackEdges, edgeNumbers, embedEdges, edgeNumbers, List.map_map, List.map_map]
  apply List.map_congr_left
  intro e _
  change (g.mapBack e.1, g.mapBack e.2) = ((φ e.1 : ℕ), (φ e.2 : ℕ))
  rw [hg.label, hg.label]

/-- An induced subgraph inherits the embedding. -/
theorem Embeds.inheritMap (hg : Embeds g φ) {A : Set (Fin n)} {a : Graph k}
    {ψ : Fin k ↪ Fin n} (ha : InducedOn g A a ψ) :
    Embeds (a.inheritMap g) (ψ.trans φ) := by
  obtain ⟨hvalid, -, hlabel⟩ := ha.inheritMap hg.valid
  refine ⟨hvalid, ?_⟩
  intro j
  rw [hlabel, ← hg.label]
  rfl

/-- An increasing map of all of `Fin k` onto `Fin n` is the identity. -/
theorem InducedOn.eq_of_surjective {a : Graph k} {ψ : Fin k ↪ Fin n} {A : Set (Fin n)}
    (ha : InducedOn g A a ψ) (hsurj : Function.Surjective ψ) :
    ∃ heq : k = n, ∀ j, ψ j = Fin.cast heq j := by
  have heq : k = n := by
    have hcard := Fintype.card_of_bijective ⟨ψ.injective, hsurj⟩
    rwa [Fintype.card_fin, Fintype.card_fin] at hcard
  subst heq
  refine ⟨rfl, ?_⟩
  have hmono : StrictMono ψ := by
    intro i j hij
    have hlt := ha.valid.mapBack_strictMono hij
    rwa [← ha.label i, ← ha.label j] at hlt
  have hid : (ψ : Fin k → Fin k) = id := by
    apply (hmono.range_inj strictMono_id).mp
    rw [hsurj.range_eq, Set.range_id]
  intro j
  rw [hid]
  rfl

/-! ## Graphs without clique separators -/

/-- No clique separates the graph, and it is not chordal. -/
structure IsCore (G : SimpleGraph (Fin n)) : Prop where
  inseparable : G.IsInseparable Set.univ
  not_chordal : ¬G.IsChordal

/-- A vertex whose neighbours form a clique is adjacent to all others, and no others miss
an edge. -/
theorem eq_top_of_simplicial {G : SimpleGraph (Fin n)} (hsep : G.IsInseparable Set.univ)
    {v : Fin n} (hclique : G.IsClique (G.neighborSet v)) : G = ⊤ := by
  have hall : ∀ w, w ≠ v → G.Adj v w := fun w hw =>
    hsep.adj_of_simplicial trivial (by rwa [Set.inter_univ]) trivial hw
  ext a b
  rw [top_adj]
  refine ⟨fun h => h.ne, fun hab => ?_⟩
  by_cases ha : a = v
  · exact ha ▸ hall b fun hb => hab (ha.trans hb.symm)
  · by_cases hb : b = v
    · exact hb ▸ (hall a ha).symm
    · exact hclique (hall a ha) (hall b hb) hab

/-- A chordal graph that is not complete has a clique separator. -/
theorem isCore_of_ne_top {G : SimpleGraph (Fin n)} (hsep : G.IsInseparable Set.univ)
    (hne : G ≠ ⊤) : IsCore G where
  inseparable := hsep
  not_chordal := by
    intro hchordal
    apply hne
    rcases isEmpty_or_nonempty (Fin n) with _ | hn
    · exact Subsingleton.elim G ⊤
    · obtain ⟨s, -, hsimp⟩ := hchordal.exists_simplicial (Set.univ_nonempty (α := Fin n))
      rw [IsSimplicialIn, Set.inter_univ] at hsimp
      exact eq_top_of_simplicial hsep hsimp

namespace IsCore

variable {G : SimpleGraph (Fin n)}

theorem not_isClique_neighborSet (hG : IsCore G) (v : Fin n) :
    ¬G.IsClique (G.neighborSet v) := by
  intro hclique
  apply hG.not_chordal
  rw [eq_top_of_simplicial hG.inseparable hclique]
  exact isChordal_top

theorem two_le_degree (hG : IsCore G) (v : Fin n) : 2 ≤ (G.neighborSet v).ncard := by
  by_contra hlt
  apply hG.not_isClique_neighborSet v
  have hle : (G.neighborSet v).ncard ≤ 1 := Nat.le_of_lt_succ (Nat.lt_of_not_le hlt)
  rw [Set.ncard_le_one (Set.toFinite _)] at hle
  intro a ha b hb hab
  exact absurd (hle a ha b hb) hab

theorem nonempty (hG : IsCore G) : 0 < n := by
  by_contra hn
  apply hG.not_chordal
  rw [isChordal_iff_no_hole]
  intro k p _
  have hlt := (p 0).isLt
  omega

/-- The ends of the only missing edge of a neighbourhood are connected outside. -/
theorem joinedBy (hG : IsCore G) (hmiss : IsOnlyMissing G x u v) :
    G.JoinedBy (insert x (G.neighborSet x))ᶜ u v := by
  set K := insert x (G.neighborSet x) with hK
  have hclique : G.IsClique (K \ {u, v}) := by
    intro a ha b hb hab
    have ha2 : a ≠ u ∧ a ≠ v := by simpa using ha.2
    rcases ha.1 with rfl | haN
    · rcases hb.1 with rfl | hbN
      · exact absurd rfl hab
      · exact hbN
    · rcases hb.1 with rfl | hbN
      · exact SimpleGraph.Adj.symm haN
      · apply hmiss.adj a haN b hbN hab
        intro heq
        rcases Sym2.eq_iff.mp heq with ⟨hau, -⟩ | ⟨hav, -⟩
        · exact ha2.1 hau
        · exact ha2.2 hav
  have hreach := hG.inseparable _ hclique u trivial (by simp) v trivial (by simp)
  have huK : u ∈ K := Or.inr hmiss.left
  have hvK : v ∈ K := Or.inr hmiss.right
  have hvW : v ∉ {w | G.ReachIn Kᶜ u w} := by
    intro hv
    rcases ReachIn.eq_or_mem hv with heq | hmem
    · exact hmiss.ne heq.symm
    · exact hmem hvK
  obtain ⟨a, ha, b, hb, hbS, hab⟩ := hreach.exists_exit (ReachIn.refl u) hvW
  have hbv : b = v := by
    by_contra hbv
    have hbu : b ≠ u := fun heq => hb (heq ▸ ReachIn.refl u)
    apply hb
    apply ReachIn.tail ha hab
    intro hbK
    exact hbS.2 ⟨hbK, by simp [hbu, hbv]⟩
  exact joinedBy_iff_reachIn.mpr ⟨a, ha, hbv ▸ hab⟩

/-- Adding the only missing edge of a neighbourhood keeps the treewidth bounded. -/
theorem treewidth_addFill_le (hG : IsCore G) (hmiss : IsOnlyMissing G x u v) :
    (G.addFill [(u, v)]).treewidth ≤ G.treewidth := by
  rcases hG.joinedBy hmiss with hadj | ⟨D, hD, hconn, ⟨c, hc, huc⟩, ⟨d, hd, hvd⟩⟩
  · exact absurd hadj hmiss.not_adj
  · exact SimpleGraph.treewidth_addFill_le hmiss.left hmiss.right hmiss.ne hmiss.adj hconn
      (fun hx => hD hx (Or.inl rfl)) (fun w hw hxw => hD hw (Or.inr hxw))
      ⟨c, hc, huc.symm⟩ ⟨d, hd, hvd.symm⟩

theorem isConnectedSet (hG : IsCore G) : G.IsConnectedSet Set.univ := by
  intro u _ v _
  have hempty : G.IsClique ∅ := Set.pairwise_empty _
  have hreach := hG.inseparable ∅ hempty u trivial (Set.notMem_empty u) v trivial
    (Set.notMem_empty v)
  rwa [Set.sdiff_empty] at hreach

theorem mem_support (hG : IsCore G) (v : Fin n) : v ∈ G.support := by
  have hpos : 0 < (G.neighborSet v).ncard := lt_of_lt_of_le two_pos (hG.two_le_degree v)
  obtain ⟨w, hw⟩ := (Set.ncard_pos (Set.toFinite _)).mp hpos
  exact ⟨w, hw⟩

end IsCore

/-- `NeighborClique` on a graph that is not complete and has no clique separator: it finds
a vertex with exactly one missing edge in its neighbourhood, if there is one, and adds that
edge, which keeps the treewidth. -/
theorem neighborClique_safe {graph : Graph n} (hg : graph.Valid)
    (hdeg : ∀ v, 2 < (graph.adjList v).length)
    (hsep : graph.toSimple.IsInseparable Set.univ) (hne : graph.toSimple ≠ ⊤) :
    (neighborClique graph = some none ∧ ∀ x u v, ¬IsOnlyMissing graph.toSimple x u v) ∨
    ∃ graph' x u v, neighborClique graph = some (some (graph', (u, v))) ∧
      IsOnlyMissing graph.toSimple x u v ∧ EdgesAdded graph [(u, v)] graph' ∧
      graph'.toSimple.treewidth = graph.toSimple.treewidth := by
  have hcore := isCore_of_ne_top hsep hne
  rcases neighborClique_spec hg hdeg hcore.not_isClique_neighborSet with
    hnone | ⟨graph', x, u, v, hsome, hadd, hmiss⟩
  · exact Or.inl hnone
  · refine Or.inr ⟨graph', x, u, v, hsome, hmiss, hadd, ?_⟩
    rw [hadd.toSimple]
    exact le_antisymm (hcore.treewidth_addFill_le hmiss) (treewidth_mono le_addFill)

/-- No clique separates two vertices that have two nonadjacent common neighbours. -/
theorem isInseparable_of_common {G : SimpleGraph (Fin n)}
    (h : ∀ u v, u ≠ v → ¬G.Adj u v →
      ∃ a b, a ≠ b ∧ ¬G.Adj a b ∧ (G.Adj u a ∧ G.Adj a v) ∧ G.Adj u b ∧ G.Adj b v) :
    G.IsInseparable Set.univ := by
  intro S hS u _ hu v _ hv
  by_cases huv : u = v
  · exact huv ▸ ReachIn.refl u
  by_cases hadj : G.Adj u v
  · exact ReachIn.of_adj hadj ⟨trivial, hv⟩
  · obtain ⟨a, b, hab, hnadj, ha, hb⟩ := h u v huv hadj
    by_cases haS : a ∈ S
    · have hbS : b ∉ S := fun hbS => hnadj (hS haS hbS hab)
      exact ReachIn.head hb.1 ⟨trivial, hbS⟩ (ReachIn.of_adj hb.2 ⟨trivial, hv⟩)
    · exact ReachIn.head ha.1 ⟨trivial, haS⟩ (ReachIn.of_adj ha.2 ⟨trivial, hv⟩)

/-- The complete graph on five vertices without two disjoint edges. -/
theorem neighborClique_safe_five :
    ∃ graph graph' : Graph 5, (Graph.empty 5).addEdges
        [(0, 2), (0, 3), (0, 4), (1, 2), (1, 3), (1, 4), (2, 4), (3, 4)] = some graph ∧
      neighborClique graph = some (some (graph', (2, 3))) ∧
      graph'.toSimple.treewidth = graph.toSimple.treewidth := by
  set F : List (Fin 5 × Fin 5) :=
    [(0, 2), (0, 3), (0, 4), (1, 2), (1, 3), (1, 4), (2, 4), (3, 4)] with hF
  obtain ⟨graph, hrun, hspec⟩ := addEdges_spec (Graph.valid_empty 5) F (by decide)
  have hcheck : ((Graph.empty 5).addEdges F).map (fun g =>
      decide ((∀ v, 2 < (g.adjList v).length) ∧
        (∀ u v, u ≠ v → g.adjMat u v ≠ true → ∃ a b, a ≠ b ∧ g.adjMat a b ≠ true ∧
          (g.adjMat u a = true ∧ g.adjMat a v = true) ∧
          g.adjMat u b = true ∧ g.adjMat b v = true) ∧
        g.adjMat 0 1 = false) &&
      decide ((neighborClique g).map (fun r => r.map Prod.snd) = some (some (2, 3)))) =
      some true := by
    decide +kernel
  rw [hrun, Option.map_some, Option.some_inj, Bool.and_eq_true, decide_eq_true_eq,
    decide_eq_true_eq] at hcheck
  obtain ⟨⟨hdeg, hcommon, h01⟩, hresult⟩ := hcheck
  have hsep : graph.toSimple.IsInseparable Set.univ := by
    apply isInseparable_of_common
    simp only [hspec.valid.adj_iff]
    exact hcommon
  have hne : graph.toSimple ≠ ⊤ := by
    intro htop
    have hadj : graph.toSimple.Adj 0 1 := by
      rw [htop, top_adj]
      decide
    rw [hspec.valid.adj_iff, h01] at hadj
    exact Bool.false_ne_true hadj
  rcases neighborClique_safe hspec.valid hdeg hsep hne with
    ⟨hnone, -⟩ | ⟨graph', x, u, v, hsome, -, -, htw⟩
  · rw [hnone] at hresult
    cases hresult
  · rw [hsome, Option.map_some, Option.map_some, Option.some_inj, Option.some_inj] at hresult
    exact ⟨graph, graph', hrun, hresult ▸ hsome, htw⟩

end Triangulator
