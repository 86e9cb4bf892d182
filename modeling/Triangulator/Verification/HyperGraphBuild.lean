import Triangulator.GraphTheory.HypertreeWidth
import Triangulator.Model.HypertreewidthPreprocessor
import Triangulator.Verification.Atoms
import Triangulator.Verification.FixedSizeHyper
import Triangulator.Verification.NeighborClique

/-!
# Hypergraphs built from lists of hyperedges

The constructor numbers the vertices of the list in their order, and the hypergraph on
an atom has the traces of the hyperedges with at least two vertices.
-/

namespace Triangulator

open SimpleGraph

variable {n k : ℕ} {g : Graph n}

theorem Graph.Valid.mapInto_mapBack (hg : g.Valid) (v : Fin n) :
    g.mapInto (g.mapBack v) = some v := by
  rw [Graph.mapInto, hg.rank_mapBack, toVertex, dif_pos v.isLt]

theorem sortAndDedup_of_sorted {α : Type*} [LinearOrder α] {l : List α}
    (h : l.Pairwise (· < ·)) : sortAndDedup l = l :=
  eq_of_vset_eq (sortAndDedup_sorted l) h (Set.ext fun _ => mem_sortAndDedup)

/-- A list without repetitions has two entries when its set has two elements. -/
theorem two_le_length_iff {α : Type*} {l : List α} (hnd : l.Nodup) :
    2 ≤ l.length ↔ (vset l).Nontrivial := by
  have hfin : Finite (vset l) := l.finite_toSet
  rw [← ncard_vset hnd]
  exact Set.one_lt_ncard_iff_nontrivial

theorem map_eq_of_forall₂ {α β : Type*} {f : β → α} {l : List α} {l' : List β}
    (h : List.Forall₂ (fun a b => f b = a) l l') : l'.map f = l := by
  induction h with
  | nil => rfl
  | cons hab _ ih => rw [List.map_cons, hab, ih]

namespace HyperGraph

variable {h : HyperGraph n}

/-! ## Hyperedges as sets -/

/-- The vertex sets of the hyperedges. -/
def edgeSets (h : HyperGraph n) : Set (Set (Fin n)) :=
  {e | ∃ edge ∈ h.edges, e = vset edge}

/-- Every vertex lies in a hyperedge. -/
def Covering (h : HyperGraph n) : Prop :=
  ∀ v, ∃ edge ∈ h.edges, v ∈ edge

theorem Covering.exists_edgeSet (hc : h.Covering) (v : Fin n) : ∃ e ∈ h.edgeSets, v ∈ e := by
  obtain ⟨edge, hedge, hv⟩ := hc v
  exact ⟨vset edge, ⟨edge, hedge, rfl⟩, hv⟩

theorem Valid.toSimple_eq (hh : h.Valid) : h.primal.toSimple = SimpleGraph.primal h.edgeSets := by
  ext u v
  rw [hh.adj_iff]
  constructor
  · rintro ⟨huv, edge, hedge, hu, hv⟩
    exact ⟨huv, _, ⟨edge, hedge, rfl⟩, hu, hv⟩
  · rintro ⟨huv, _, ⟨edge, hedge, rfl⟩, hu, hv⟩
    exact ⟨huv, edge, hedge, hu, hv⟩

theorem Valid.nodup (hh : h.Valid) {edge : List (Fin n)} (hedge : edge ∈ h.edges) :
    edge.Nodup :=
  (hh.sorted edge hedge).imp ne_of_lt

/-! ## The constructor -/

/-- The hyperedges are the label lists. -/
structure BuiltFrom (edges : List (List ℕ)) (h : HyperGraph n) : Prop where
  valid : h.Valid
  covering : h.Covering
  map_eq : (h.edges.map fun e => e.map h.primal.mapBack) = edges

theorem mem_primalEdges {edges : List (List ℕ)} (hsorted : ∀ e ∈ edges, e.Pairwise (· < ·))
    {a b : ℕ} :
    (a, b) ∈ primalEdges edges ∨ (b, a) ∈ primalEdges edges ↔
      a ≠ b ∧ ∃ e ∈ edges, a ∈ e ∧ b ∈ e := by
  rw [primalEdges, List.mem_flatMap, List.mem_flatMap]
  have hnodup : ∀ e ∈ edges, e.Nodup := fun e he => (hsorted e he).imp ne_of_lt
  constructor
  · rintro (⟨e, he, hp⟩ | ⟨e, he, hp⟩)
    · obtain ⟨ha, hb⟩ := mem_of_mem_pairs hp
      exact ⟨ne_of_mem_pairs (hnodup e he) hp, e, he, ha, hb⟩
    · obtain ⟨hb, ha⟩ := mem_of_mem_pairs hp
      exact ⟨(ne_of_mem_pairs (hnodup e he) hp).symm, e, he, ha, hb⟩
  · rintro ⟨hab, e, he, ha, hb⟩
    rcases mem_pairs_or ha hb hab with hp | hp
    · exact Or.inl ⟨e, he, hp⟩
    · exact Or.inr ⟨e, he, hp⟩

/-- The constructor on sorted hyperedges with at least two vertices. -/
theorem ofEdges_spec (edges : List (List ℕ)) (hsorted : ∀ e ∈ edges, e.Pairwise (· < ·))
    (h2 : ∀ e ∈ edges, 2 ≤ e.length) :
    ∃ h : Io.SomeHyperGraph, ofEdges edges = some h ∧ BuiltFrom edges h.2 := by
  obtain ⟨g, hg, hb, hmap⟩ := Triangulator.ofEdges_spec (primalEdges edges) fun e he =>
    ((mem_primalEdges hsorted).mp (Or.inl he)).1
  -- Every vertex of the list is the label of a vertex of the primal graph.
  have hlabel : ∀ a, a ∈ g.vertexMap.values ↔ ∃ e ∈ edges, a ∈ e := by
    intro a
    rw [hmap, mem_initPairs]
    constructor
    · rintro ⟨⟨b, c⟩, hp, rfl | rfl⟩
      · obtain ⟨-, e, he, hb', -⟩ := (mem_primalEdges hsorted).mp (Or.inl hp)
        exact ⟨e, he, hb'⟩
      · obtain ⟨-, e, he, -, hc⟩ := (mem_primalEdges hsorted).mp (Or.inl hp)
        exact ⟨e, he, hc⟩
    · rintro ⟨e, he, ha⟩
      have hnt := (two_le_length_iff ((hsorted e he).imp ne_of_lt)).mp (h2 e he)
      obtain ⟨b, hb', hne⟩ := hnt.exists_ne a
      rcases (mem_primalEdges hsorted).mpr ⟨hne.symm, e, he, ha, hb'⟩ with hp | hp
      · exact ⟨_, hp, Or.inl rfl⟩
      · exact ⟨_, hp, Or.inr rfl⟩
  have hmono := hb.valid.mapBack_strictMono
  have hedge : ∀ e ∈ edges, ∃ e', (do
      let e ← e.mapM g.mapInto
      pure (sortAndDedup e) : Option (List (Fin _))) = some e' ∧
      (e'.map g.mapBack = e ∧ e'.Pairwise (· < ·)) := by
    intro e he
    have hinto : ∀ a ∈ e, ∃ v, g.mapInto a = some v ∧ g.mapBack v = a := by
      intro a ha
      obtain ⟨v, rfl⟩ := hb.valid.exists_mapBack ((hlabel a).mpr ⟨e, he, ha⟩)
      exact ⟨v, hb.valid.mapInto_mapBack v, rfl⟩
    obtain ⟨e', hrun, hall⟩ := exists_mapM hinto
    have hmap : e'.map g.mapBack = e := map_eq_of_forall₂ hall
    have hsort : e'.Pairwise (· < ·) := by
      have hs := hsorted e he
      rw [← hmap, List.pairwise_map] at hs
      exact hs.imp fun h => hmono.lt_iff_lt.mp h
    refine ⟨e', ?_, hmap, hsort⟩
    rw [hrun, Option.bind_eq_bind, Option.bind_some, sortAndDedup_of_sorted hsort]
    rfl
  obtain ⟨edges', hrun, hall⟩ := exists_mapM hedge
  have hmaps : (edges'.map fun e => e.map g.mapBack) = edges :=
    map_eq_of_forall₂ (hall.imp fun _ _ hab => hab.1)
  have hsorted' : ∀ e' ∈ edges', e'.Pairwise (· < ·) := fun e' he' => by
    obtain ⟨e, -, -, hs⟩ := exists_of_forall₂ hall.flip he'
    exact hs
  have hmem : ∀ e : List ℕ, e ∈ edges ↔ ∃ e' ∈ edges', e'.map g.mapBack = e := by
    intro e
    have hiff := List.mem_map (b := e) (f := fun e => e.map g.mapBack) (l := edges')
    rwa [hmaps] at hiff
  refine ⟨⟨_, g, edges'⟩, ?_, ⟨hb.valid, fun u v => ?_, hsorted'⟩, fun v => ?_, hmaps⟩
  · rw [ofEdges, hg, Option.bind_eq_bind, Option.bind_some, hrun]
    rfl
  · rw [hb.adj_iff, mem_primalEdges hsorted, hmono.injective.ne_iff]
    simp only [hmem, exists_exists_and_eq_and, List.mem_map_of_injective hmono.injective]
  · obtain ⟨e, he, hv⟩ := (hlabel _).mp (hb.valid.mapBack_mem v)
    obtain ⟨e', he', rfl⟩ := (hmem e).mp he
    exact ⟨e', he', (List.mem_map_of_injective hmono.injective).mp hv⟩

/-! ## The hypergraph on an atom -/

theorem mem_edgesIn {vs e' : List (Fin n)} :
    e' ∈ h.edgesIn vs ↔
      2 ≤ e'.length ∧ ∃ e ∈ h.edges, e' = e.filter fun v => decide (v ∈ vs) := by
  have hmark : mark (fun _ => false) vs = fun v => decide (v ∈ vs) :=
    funext fun v => mark_false_apply vs v
  rw [edgesIn, hmark, List.mem_filter, List.mem_map, decide_eq_true_eq, and_comm]
  simp only [eq_comm]

/-- The constructor on the kept intersections. -/
theorem ofEdges_edgesIn (hh : h.Valid) (vs : List (Fin n)) :
    ∃ h' : Io.SomeHyperGraph,
      ofEdges ((h.edgesIn vs).map fun e => e.map Fin.val) = some h' ∧
      BuiltFrom ((h.edgesIn vs).map fun e => e.map Fin.val) h'.2 := by
  have hin : ∀ e', (e' ∈ (h.edgesIn vs).map fun e => e.map Fin.val) ↔
      ∃ d ∈ h.edgesIn vs, d.map Fin.val = e' := fun e' => List.mem_map
  apply ofEdges_spec
  · intro e' he'
    obtain ⟨d, hd, rfl⟩ := (hin e').mp he'
    obtain ⟨-, e, he, rfl⟩ := mem_edgesIn.mp hd
    exact List.pairwise_map.mpr ((hh.sorted e he).filter _)
  · intro e' he'
    obtain ⟨d, hd, rfl⟩ := (hin e').mp he'
    rw [List.length_map]
    exact (mem_edgesIn.mp hd).1

/-- The hyperedges are the traces on the range of `f`, and the labels of the vertices are
the vertices that they come from. -/
structure IsTrace (h : HyperGraph n) (h' : HyperGraph k) (f : Fin k ↪ Fin n) : Prop where
  valid : h'.Valid
  covering : h'.Covering
  label : ∀ j, (f j : ℕ) = h'.primal.mapBack j
  edgeSets_eq : h'.edgeSets = trace h.edgeSets f

/-- Label lists of vertices embed the new vertices. -/
theorem BuiltFrom.exists_embedding {edges : List (List (Fin n))} {h' : HyperGraph k}
    (hb : BuiltFrom (edges.map fun e => e.map Fin.val) h') :
    ∃ f : Fin k ↪ Fin n, (∀ j, (f j : ℕ) = h'.primal.mapBack j) ∧
      (h'.edges.map fun e => e.map f) = edges := by
  have hlt : ∀ j, h'.primal.mapBack j < n := by
    intro j
    obtain ⟨edge, hedge, hj⟩ := hb.covering j
    have hmem : edge.map h'.primal.mapBack ∈ edges.map fun e => e.map Fin.val := by
      rw [← hb.map_eq]
      exact List.mem_map_of_mem hedge
    obtain ⟨d, -, heq⟩ := List.mem_map.mp hmem
    have hjd := List.mem_map_of_mem (f := h'.primal.mapBack) hj
    rw [← heq] at hjd
    obtain ⟨v, -, hv⟩ := List.mem_map.mp hjd
    exact hv ▸ v.isLt
  refine ⟨⟨fun j => ⟨h'.primal.mapBack j, hlt j⟩, fun i j hij =>
    hb.valid.primal.mapBack_strictMono.injective (congrArg Fin.val hij)⟩, fun _ => rfl, ?_⟩
  apply List.map_injective_iff.mpr (List.map_injective_iff.mpr Fin.val_injective)
  refine Eq.trans ?_ hb.map_eq
  rw [List.map_map]
  apply List.map_congr_left
  intro e _
  exact List.map_map

section Restriction

variable {vss : List (Fin n)} {h' : HyperGraph k} {f : Fin k ↪ Fin n}

/-- The vertices that the kept intersections contain: those with a neighbour in the list. -/
theorem mem_range_of_edgesIn (hc : h'.Covering)
    (hmap : (h'.edges.map fun e => e.map f) = h.edgesIn vss) (hh : h.Valid) (v : Fin n) :
    v ∈ Set.range f ↔ v ∈ vss ∧ ∃ u ∈ vss, h.primal.toSimple.Adj v u := by
  have hmem : ∀ d, d ∈ h.edgesIn vss ↔ ∃ edge ∈ h'.edges, edge.map f = d := by
    intro d
    rw [← hmap, List.mem_map]
  constructor
  · rintro ⟨j, rfl⟩
    obtain ⟨edge, hedge, hj⟩ := hc j
    obtain ⟨h2, e, he, heq⟩ := mem_edgesIn.mp ((hmem _).mpr ⟨edge, hedge, rfl⟩)
    have hnd : (edge.map f).Nodup := heq ▸ (hh.nodup he).filter _
    obtain ⟨u, hu, hne⟩ := ((two_le_length_iff hnd).mp h2).exists_ne (f j)
    have hjd := List.mem_map_of_mem (f := f) hj
    rw [mem_vset, heq, List.mem_filter, decide_eq_true_eq] at hu
    rw [heq, List.mem_filter, decide_eq_true_eq] at hjd
    exact ⟨hjd.2, u, hu.2, (hh.adj_iff _ _).mpr ⟨hne.symm, e, he, hjd.1, hu.1⟩⟩
  · rintro ⟨hv, u, hu, hadj⟩
    obtain ⟨hne, e, he, hve, hue⟩ := (hh.adj_iff _ _).mp hadj
    have hvd : v ∈ e.filter fun v => decide (v ∈ vss) :=
      List.mem_filter.mpr ⟨hve, decide_eq_true hv⟩
    have hud : u ∈ e.filter fun v => decide (v ∈ vss) :=
      List.mem_filter.mpr ⟨hue, decide_eq_true hu⟩
    have h2 := (two_le_length_iff ((hh.nodup he).filter _)).mpr ⟨v, hvd, u, hud, hne⟩
    obtain ⟨edge, -, heq⟩ := (hmem _).mp (mem_edgesIn.mpr ⟨h2, e, he, rfl⟩)
    rw [← heq] at hvd
    obtain ⟨j, -, hj⟩ := List.mem_map.mp hvd
    exact ⟨j, hj⟩

/-- The kept intersections are the traces. -/
theorem edgeSets_of_edgesIn (hh : h.Valid) (hh' : h'.Valid)
    (hmap : (h'.edges.map fun e => e.map f) = h.edgesIn vss)
    (hvss : ∀ v, v ∈ vss ↔ v ∈ Set.range f) : h'.edgeSets = trace h.edgeSets f := by
  have hmem : ∀ d, d ∈ h.edgesIn vss ↔ ∃ edge ∈ h'.edges, edge.map f = d := by
    intro d
    rw [← hmap, List.mem_map]
  have hpre : ∀ (e : List (Fin n)) (edge : List (Fin k)),
      edge.map f = e.filter (fun v => decide (v ∈ vss)) → vset edge = Set.preimage f (vset e) := by
    intro e edge heq
    ext j
    rw [mem_vset, ← List.mem_map_of_injective f.injective, heq, List.mem_filter,
      decide_eq_true_eq, hvss]
    exact and_iff_left ⟨j, rfl⟩
  ext t
  constructor
  · rintro ⟨edge, hedge, rfl⟩
    obtain ⟨h2, e, he, heq⟩ := mem_edgesIn.mp ((hmem _).mpr ⟨edge, hedge, rfl⟩)
    rw [List.length_map] at h2
    exact ⟨(two_le_length_iff (hh'.nodup hedge)).mp h2, vset e, ⟨e, he, rfl⟩,
      hpre e edge heq⟩
  · rintro ⟨hnt, _, ⟨e, he, rfl⟩, rfl⟩
    have hsub : f '' Set.preimage f (vset e) ⊆
        vset (e.filter fun v => decide (v ∈ vss)) := by
      rintro _ ⟨j, hj, rfl⟩
      rw [mem_vset, List.mem_filter, decide_eq_true_eq, hvss]
      exact ⟨hj, j, rfl⟩
    have h2 := (two_le_length_iff ((hh.nodup he).filter _)).mpr
      ((hnt.image f.injective).mono hsub)
    obtain ⟨edge, hedge, heq⟩ := (hmem _).mp (mem_edgesIn.mpr ⟨h2, e, he, rfl⟩)
    exact ⟨edge, hedge, (hpre e edge heq).symm⟩

end Restriction

/-- The hypergraph on an atom is the trace on the vertices of the atom. -/
theorem hyperAtom_spec (hh : h.Valid) {A : Set (Fin n)} {atom : Mcs.SomeGraph}
    {ψ : Fin atom.1 ↪ Fin n} (ha : InducedOn h.primal A atom.2 ψ) :
    ∃ h' : Io.SomeHyperGraph, h.hyperAtom atom = some h' ∧
      ∃ f, IsTrace h h'.2 f ∧ Set.range f = Set.range ψ := by
  obtain ⟨vss, hrun, hall⟩ := exists_mapM
    (f := fun i : Fin atom.1 => toVertex n (atom.2.mapBack i)) (r := fun i v => ψ i = v)
    (l := List.finRange atom.1) fun i _ => by
      refine ⟨ψ i, ?_, rfl⟩
      rw [toVertex, dif_pos (ha.label i ▸ (ψ i).isLt)]
      exact congrArg some (Fin.ext (ha.label i).symm)
  have hvss : ∀ v, v ∈ vss ↔ v ∈ Set.range ψ := by
    intro v
    have hmap : (List.finRange atom.1).map ψ = vss := by
      rw [← List.forall₂_eq_eq_eq]
      exact List.forall₂_map_left_iff.mpr hall
    simp [← hmap]
  obtain ⟨h', hof, hb⟩ := ofEdges_edgesIn hh vss
  obtain ⟨f, hlabel, hmap⟩ := hb.exists_embedding
  have hrange : Set.range f = Set.range ψ := by
    ext v
    rw [mem_range_of_edgesIn hb.covering hmap hh]
    simp only [hvss]
    refine and_iff_left_of_imp ?_
    rintro ⟨i, rfl⟩
    obtain ⟨i', hadj⟩ := ha.support i
    exact ⟨_, ⟨i', rfl⟩, ((ha.adj_iff i i').mp hadj).1⟩
  refine ⟨h', ?_, f, ⟨hb.valid, hb.covering, hlabel, ?_⟩, hrange⟩
  · rw [hyperAtom, hrun, Option.bind_eq_bind, Option.bind_some, hof]
  · exact edgeSets_of_edgesIn hh hb.valid hmap fun v => by rw [hvss, hrange]

end HyperGraph

end Triangulator
