import Triangulator.Verification.BtSolve
import Triangulator.Verification.CombSearch
import Triangulator.Verification.Connectivity

/-!
# The two tests for potential maximal cliques

`ConnectedMatrix` connects the pairs that a path past the separator joins.  The test
with this matrix and the test with two searches both decide whether a vertex list is a
maximal clique of a minimal triangulation.
-/

namespace Triangulator

open SimpleGraph

variable {n : ℕ} {g : Graph n}

/-! ## The connectivity matrix -/

/-- `ConnectedMatrix` connects two vertices when a path joins them whose inner vertices
are outside the separator; it is symmetric, and a larger separator connects fewer
pairs. -/
theorem connectedMatrix_exact (hg : g.Valid) (separator : List (Fin n)) :
    (∀ v u, v ≠ u → (g.connectedMatrix separator v u = true ↔
      ∃ p : g.toSimple.Walk v u, p.IsPath ∧
        ∀ w ∈ p.support, w ≠ v → w ≠ u → w ∉ separator)) ∧
    (∀ v u, g.connectedMatrix separator v u = g.connectedMatrix separator u v) ∧
    ∀ larger, separator ⊆ larger → ∀ v u,
      g.connectedMatrix larger v u = true → g.connectedMatrix separator v u = true := by
  have hlinked := fun sep => Enumerator.connectedMatrix_iff_linked hg sep
  refine ⟨?_, ?_, ?_⟩
  · intro v u hvu
    rw [hlinked separator, linked_iff_exists_path hvu]
    rfl
  · intro v u
    rw [Bool.eq_iff_iff, hlinked separator, hlinked separator]
    exact ⟨Linked.symm, Linked.symm⟩
  · intro larger hsub v u h
    rw [hlinked larger] at h
    rw [hlinked separator]
    exact h.anti hsub

theorem connectedMatrix_exact_path :
    ∃ g, BtAlgorithm.path = some g ∧ ∀ v u, v ≠ u → (g.connectedMatrix [] v u = true ↔
      ∃ p : g.toSimple.Walk v u, p.IsPath ∧
        ∀ w ∈ p.support, w ≠ v → w ≠ u → w ∉ ([] : List (Fin 3))) := by
  obtain ⟨g, hg, hvalid, -⟩ := BtAlgorithm.path_spec
  exact ⟨g, hg, (connectedMatrix_exact hvalid []).1⟩

/-! ## The tests -/

/-- `Graph::IsPmc` fails no assertion and decides whether a vertex list is a maximal
clique of a minimal triangulation; the empty list is not. -/
theorem isPmc_decides (hg : g.Valid) (hn : 0 < n) :
    (∀ pmc : List (Fin n), pmc.Nodup → ∃ b, g.isPmc pmc = some b ∧
      (b = true ↔
        ∃ H, g.toSimple.IsMinimalTriangulation H ∧ Maximal H.IsClique (vset pmc))) ∧
    g.isPmc [] = some false := by
  constructor
  · intro pmc hnd
    exact isPmc_spec hg hnd
  · have hnil : ([] : List (Fin n)).Nodup := List.nodup_nil
    obtain ⟨b, hb, hiff⟩ := isPmc_spec hg hnil
    cases b with
    | false => exact hb
    | true =>
        have hpmc := isPotentialMaximalClique_iff.mp (hiff.mp rfl)
        have : Nonempty (Fin n) := ⟨⟨0, hn⟩⟩
        obtain ⟨v, hv⟩ := hpmc.nonempty
        exact absurd hv List.not_mem_nil

theorem isPmc_decides_path :
    ∃ g, BtAlgorithm.path = some g ∧
      (∀ pmc : List (Fin 3), pmc.Nodup → ∃ b, g.isPmc pmc = some b ∧
        (b = true ↔
          ∃ H, g.toSimple.IsMinimalTriangulation H ∧ Maximal H.IsClique (vset pmc))) ∧
      g.isPmc [] = some false := by
  obtain ⟨g, hg, hvalid, -⟩ := BtAlgorithm.path_spec
  exact ⟨g, hg, isPmc_decides hvalid (by decide)⟩

/-- The two tests agree on every vertex list. -/
theorem isPmc_tests_agree (hg : g.Valid) {pmc : List (Fin n)} (hnd : pmc.Nodup) :
    ∃ b, CombEnumerator.isPmc g pmc = some b ∧ g.isPmc pmc = some b := by
  obtain ⟨b, hb, hiff⟩ := CombEnumerator.isPmc_spec hg hnd
  obtain ⟨b', hb', hiff'⟩ := isPmc_spec hg hnd
  refine ⟨b, hb, ?_⟩
  have heq : b = b' := by
    rw [Bool.eq_iff_iff, hiff, hiff', isPotentialMaximalClique_iff]
  rw [heq]
  exact hb'

theorem isPmc_tests_agree_path :
    ∃ g, BtAlgorithm.path = some g ∧
      ∃ b, CombEnumerator.isPmc g [0, 2] = some b ∧ g.isPmc [0, 2] = some b := by
  obtain ⟨g, hg, hvalid, -⟩ := BtAlgorithm.path_spec
  exact ⟨g, hg, isPmc_tests_agree hvalid (by decide)⟩

end Triangulator
