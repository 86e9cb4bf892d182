import Triangulator.Verification.HyperGraphBuild
import Triangulator.Verification.ReadGraph

/-!
# The hypergraphs that can be read

The vertices of a hypergraph that was read are numbered by the ranks of their names, and
every vertex lies in the hyperedge of a line with its name.
-/

namespace Triangulator

namespace Io

variable {values : List Text}

theorem ranks_spec {edge : List Text} (hedge : ∀ a ∈ edge, a ∈ values) :
    ∃ e, ranks (StaticSet.init values) edge = some e ∧
      ∀ a ∈ edge, ∃ v ∈ e, (StaticSet.init values).rank a = (v : ℕ) := by
  obtain ⟨e, hrun, hall⟩ := exists_mapM (l := edge)
    (f := fun a => if h : (StaticSet.init values).rank a < (StaticSet.init values).size then
      some (⟨_, h⟩ : Fin (StaticSet.init values).size) else none)
    (r := fun a v => (StaticSet.init values).rank a = (v : ℕ))
    fun a ha => ⟨_, dif_pos (StaticSet.rank_lt (hedge a ha)), rfl⟩
  exact ⟨e, hrun, fun a ha => exists_of_forall₂ hall ha⟩

/-- What holds after the hyperedges of `done` have been added. -/
structure LinesAdded (done : List (List Text))
    (h : HyperGraph (StaticSet.init values).size) : Prop where
  valid : h.Valid
  mem : ∀ edge ∈ done, ∀ a ∈ edge, ∃ e ∈ h.edges, ∃ v ∈ e,
    (StaticSet.init values).rank a = (v : ℕ)

theorem linesAdded_run (rest done : List (List Text))
    {h : HyperGraph (StaticSet.init values).size} (hh : LinesAdded done h)
    (hrest : ∀ edge ∈ rest, ∀ a ∈ edge, a ∈ values) :
    ∃ h', rest.foldlM
        (fun (graph : HyperGraph (StaticSet.init values).size) edge => do
          let e ← ranks (StaticSet.init values) edge
          graph.addEdge e) h = some h' ∧ LinesAdded (done ++ rest) h' := by
  induction rest generalizing done h with
  | nil => exact ⟨h, rfl, by rwa [List.append_nil]⟩
  | cons edge rest ih =>
      obtain ⟨e, hranks, hmem⟩ := ranks_spec (hrest edge List.mem_cons_self)
      obtain ⟨h₁, hadd, hv₁, hedges₁⟩ := HyperGraph.addEdge_spec hh.valid e
      have hh₁ : LinesAdded (done ++ [edge]) h₁ := by
        refine ⟨hv₁, fun edge' hedge' a ha => ?_⟩
        rw [hedges₁]
        rcases List.mem_append.mp hedge' with hedge' | hedge'
        · obtain ⟨d, hd, hv⟩ := hh.mem edge' hedge' a ha
          exact ⟨d, List.mem_append_left _ hd, hv⟩
        · obtain rfl := List.mem_singleton.mp hedge'
          obtain ⟨v, hv, hrank⟩ := hmem a ha
          exact ⟨_, List.mem_append_right _ (List.mem_singleton_self _), v,
            mem_sortAndDedup.mpr hv, hrank⟩
      obtain ⟨h', hrun, hh'⟩ := ih (done ++ [edge]) hh₁ fun edge' hedge' =>
        hrest edge' (List.mem_cons_of_mem _ hedge')
      refine ⟨h', ?_, by rwa [List.append_assoc] at hh'⟩
      rw [List.foldlM_cons, hranks]
      dsimp only [Option.bind_eq_bind, Option.bind_some]
      rw [hadd]
      exact hrun

/-- Every vertex of a hypergraph that was read lies in a hyperedge. -/
theorem readHyperGraph_spec {input : List Text} {n : ℕ} {h : HyperGraph n}
    (hread : readHyperGraph input = some ⟨n, h⟩) : h.Valid ∧ h.Covering := by
  have hstart : LinesAdded [] (HyperGraph.empty (StaticSet.init (input.flatMap hyperTokens)).size) :=
    ⟨HyperGraph.valid_empty _, by simp⟩
  obtain ⟨h', hrun, hh'⟩ := linesAdded_run (input.map fun inE => sortAndDedup (hyperTokens inE)) []
    hstart fun edge hedge a ha => by
      obtain ⟨inE, hinE, rfl⟩ := List.mem_map.mp hedge
      exact List.mem_flatMap.mpr ⟨inE, hinE, mem_sortAndDedup.mp ha⟩
  have hresult : readHyperGraph input = some ⟨_, h'⟩ := by
    rw [readHyperGraph, hrun]
    rfl
  rw [hresult, Option.some_inj] at hread
  cases hread
  refine ⟨hh'.valid, fun v => ?_⟩
  obtain ⟨a, ha, hrank⟩ := StaticSet.exists_rank v
  obtain ⟨inE, hinE, hain⟩ := List.mem_flatMap.mp ha
  obtain ⟨e, he, w, hw, hrank'⟩ := hh'.mem _ (List.mem_map_of_mem hinE) a
    (mem_sortAndDedup.mpr hain)
  have hwv : w = v := Fin.ext (hrank'.symm.trans hrank)
  exact ⟨e, he, hwv ▸ hw⟩

end Io

/-- A triangle of three hyperedges and an empty one. -/
def triangleLines : List Text :=
  [['1', ' ', '2'], ['2', ',', '3'], [], ['3', ' ', '1', ' ', '3']]

theorem exists_read_triangle :
    ∃ n h, Io.readHyperGraph triangleLines = some ⟨n, h⟩ ∧ 0 < n := by
  have hsome : (Io.readHyperGraph triangleLines).isSome = true := by decide
  obtain ⟨⟨n, h⟩, hread⟩ := Option.isSome_iff_exists.mp hsome
  have hsize : (Io.readHyperGraph triangleLines).map Sigma.fst = some 3 := by decide
  rw [hread, Option.map_some, Option.some_inj] at hsize
  have hn : n = 3 := hsize
  exact ⟨n, h, hread, hn ▸ Nat.succ_pos 2⟩

end Triangulator
