import Triangulator.Verification.HyperGraphBuild

/-!
# Vertex maps of nested graphs

A graph that was cut out of a cut-out graph, to any depth, and inherited the map each
time is numbered by the vertices of the first graph in their order.
-/

namespace Triangulator

open SimpleGraph

variable {n : ℕ} {g₀ : Graph n} {S : Set (Fin n)} {g h : Mcs.SomeGraph} {vs : List (Fin g.1)}

/-- The graphs built as `Graph(g.EdgesIn(vs))` with the map of `g`, to any depth, with the
vertices of the first graph that lie in every chosen list. -/
inductive IsNested (g₀ : Graph n) : Set (Fin n) → Mcs.SomeGraph → Prop
  | base : IsNested g₀ Set.univ ⟨n, g₀⟩
  | cut {S : Set (Fin n)} {g h : Mcs.SomeGraph} {vs : List (Fin g.1)}
      (hg : IsNested g₀ S g) (hrun : Mcs.inducedGraph g.2 vs = some h) :
      IsNested g₀ {u | u ∈ S ∧ ∃ v ∈ vs, g.2.mapBack v = u} ⟨h.1, h.2.inheritMap g.2⟩

/-- The map of `g` embeds its vertices into `S`, and the edges of `g` are the edges inside
`S` of the first graph. -/
structure MapsInto (g₀ : Graph n) (S : Set (Fin n)) {k : ℕ} (g : Graph k) (ψ : Fin k ↪ Fin n) :
    Prop where
  valid : g.Valid
  label : ∀ v, g.mapBack v = ψ v
  mem : ∀ v, ψ v ∈ S
  map_eq : g.toSimple.map ψ = g₀.toSimple.within S

theorem mapBack_identity (hid : g₀.vertexMap = StaticSet.init (List.range n)) (v : Fin n) :
    g₀.mapBack v = v := by
  rw [Graph.mapBack, hid, StaticSet.init_values, sortAndDedup_range]
  simp

theorem MapsInto.base (hg₀ : g₀.Valid) (hid : g₀.vertexMap = StaticSet.init (List.range n)) :
    MapsInto g₀ Set.univ g₀ (Function.Embedding.refl (Fin n)) where
  valid := hg₀
  label := mapBack_identity hid
  mem := fun _ => trivial
  map_eq := by
    ext u v
    rw [map_adj, within_adj]
    constructor
    · rintro ⟨a, b, hab, rfl, rfl⟩
      exact ⟨hab, trivial, trivial⟩
    · rintro ⟨huv, -, -⟩
      exact ⟨u, v, huv, rfl, rfl⟩

theorem MapsInto.adj_iff {k : ℕ} {g : Graph k} {ψ : Fin k ↪ Fin n} (hg : MapsInto g₀ S g ψ)
    (a b : Fin k) : g.toSimple.Adj a b ↔ g₀.toSimple.Adj (ψ a) (ψ b) := by
  have hmap : (g.toSimple.map ψ).Adj (ψ a) (ψ b) ↔ g.toSimple.Adj a b := map_adj_apply
  rw [← hmap, hg.map_eq, within_adj]
  exact and_iff_left ⟨hg.mem a, hg.mem b⟩

/-- One more graph of the chain. -/
theorem MapsInto.cut {ψ : Fin g.1 ↪ Fin n} (hg : MapsInto g₀ S g.2 ψ)
    (hrun : Mcs.inducedGraph g.2 vs = some h) :
    ∃ χ, MapsInto g₀ {u | u ∈ S ∧ ∃ v ∈ vs, g.2.mapBack v = u} (h.2.inheritMap g.2) χ := by
  obtain ⟨h', hrun', φ, hφ⟩ := inducedGraph_spec hg.valid vs
  obtain rfl : h = h' := Option.some.inj (hrun.symm.trans hrun')
  obtain ⟨hvalid, hsimple, hlabel⟩ := hφ.inheritMap hg.valid
  -- Every vertex of a cut-out graph has a neighbour, so it comes from the list.
  have hrange : ∀ v, φ v ∈ vs := by
    intro v
    obtain ⟨w, hvw⟩ := hφ.support v
    exact ((hφ.adj_iff v w).mp hvw).2.1
  refine ⟨φ.trans ψ, hvalid, fun v => (hlabel v).trans (hg.label (φ v)), ?_, ?_⟩
  · intro v
    exact ⟨hg.mem (φ v), φ v, hrange v, hg.label (φ v)⟩
  · rw [hsimple, Function.Embedding.coe_trans, ← SimpleGraph.map_map, hφ.map_eq]
    ext u v
    rw [map_adj, within_adj]
    constructor
    · rintro ⟨a, b, hab, rfl, rfl⟩
      obtain ⟨hadj, ha, hb⟩ := within_adj.mp hab
      exact ⟨(hg.adj_iff a b).mp hadj, ⟨hg.mem a, a, ha, hg.label a⟩,
        ⟨hg.mem b, b, hb, hg.label b⟩⟩
    · rintro ⟨huv, ⟨-, a, ha, hau⟩, -, b, hb, hbv⟩
      obtain rfl : ψ a = u := Fin.ext ((hg.label a).symm.trans hau)
      obtain rfl : ψ b = v := Fin.ext ((hg.label b).symm.trans hbv)
      exact ⟨a, b, within_adj.mpr ⟨(hg.adj_iff a b).mpr huv, ha, hb⟩, rfl, rfl⟩

theorem IsNested.exists_mapsInto (hg₀ : g₀.Valid)
    (hid : g₀.vertexMap = StaticSet.init (List.range n)) (hg : IsNested g₀ S g) :
    ∃ ψ, MapsInto g₀ S g.2 ψ := by
  induction hg with
  | base => exact ⟨_, MapsInto.base hg₀ hid⟩
  | cut hg hrun ih =>
      obtain ⟨ψ, hψ⟩ := ih
      exact hψ.cut hrun

/-- Along a chain of nested graphs the maps stay increasing maps into the vertices of the
first graph, `MapInto` undoes `MapBack`, and the edges are the edges of the first graph
between vertices in every chosen list. -/
theorem nested_vertexMap (hg₀ : g₀.Valid)
    (hid : g₀.vertexMap = StaticSet.init (List.range n)) (hg : IsNested g₀ S g) :
    StrictMono g.2.mapBack ∧ (∀ v, g.2.mapBack v < n) ∧
    (∀ v, g.2.mapInto (g.2.mapBack v) = some v) ∧
    (∀ (a b : Fin g.1) (u v : Fin n), g.2.mapBack a = u → g.2.mapBack b = v →
      (g.2.hasEdge a b = g₀.hasEdge u v ∧ u ∈ S ∧ v ∈ S)) ∧
    (∀ u v : Fin n, u ∈ S → v ∈ S → g₀.hasEdge u v = true →
      ∃ a b, g.2.mapBack a = u ∧ g.2.mapBack b = v ∧ g.2.hasEdge a b = true) ∧
    ∀ vs, ∃ h, Mcs.inducedGraph g.2 vs = some h := by
  obtain ⟨ψ, hψ⟩ := hg.exists_mapsInto hg₀ hid
  refine ⟨hψ.valid.mapBack_strictMono, ?_, hψ.valid.mapInto_mapBack, ?_, ?_, ?_⟩
  · intro v
    rw [hψ.label]
    exact (ψ v).isLt
  · intro a b u v hau hbv
    obtain rfl : ψ a = u := Fin.ext ((hψ.label a).symm.trans hau)
    obtain rfl : ψ b = v := Fin.ext ((hψ.label b).symm.trans hbv)
    refine ⟨?_, hψ.mem a, hψ.mem b⟩
    have hadj := hψ.adj_iff a b
    rw [hψ.valid.adj_iff, hg₀.adj_iff] at hadj
    exact Bool.eq_iff_iff.mpr hadj
  · intro u v hu hv huv
    have hadj : (g.2.toSimple.map ψ).Adj u v := by
      rw [hψ.map_eq, within_adj]
      exact ⟨hg₀.adj_iff.mpr huv, hu, hv⟩
    obtain ⟨a, b, hab, rfl, rfl⟩ := (map_adj ψ _ _ _).mp hadj
    exact ⟨a, b, hψ.label a, hψ.label b, hψ.valid.adj_iff.mp hab⟩
  · intro vs
    obtain ⟨h, hrun, -⟩ := inducedGraph_spec hψ.valid vs
    exact ⟨h, hrun⟩

/-- Two cuts through a path with a triangle at its end. -/
theorem nested_vertexMap_triangle :
    ∃ (g₀ : Graph 4) (h h' : Mcs.SomeGraph),
      (Graph.empty 4).addEdges [(0, 1), (1, 2), (2, 3), (1, 3)] = some g₀ ∧
      Mcs.inducedGraph g₀ [3, 1, 2] = some h ∧
      Mcs.inducedGraph (h.2.inheritMap g₀) (List.finRange h.1) = some h' ∧
      StrictMono (h'.2.inheritMap (h.2.inheritMap g₀)).mapBack := by
  obtain ⟨g₀, hadd, hspec⟩ := addEdges_spec (Graph.valid_empty 4)
    [(0, 1), (1, 2), (2, 3), (1, 3)] (by decide)
  have hid : g₀.vertexMap = StaticSet.init (List.range 4) := hspec.vertexMap
  obtain ⟨-, -, -, -, -, hrun⟩ := nested_vertexMap hspec.valid hid .base
  obtain ⟨h, hh⟩ := hrun [3, 1, 2]
  obtain ⟨-, -, -, -, -, hrun⟩ := nested_vertexMap hspec.valid hid (.cut .base hh)
  obtain ⟨h', hh'⟩ := hrun (List.finRange h.1)
  exact ⟨g₀, h, h', hadd, hh, hh',
    (nested_vertexMap hspec.valid hid (.cut (.cut .base hh) hh')).1⟩

end Triangulator
