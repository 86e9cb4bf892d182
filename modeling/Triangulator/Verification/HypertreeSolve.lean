import Triangulator.Model.HypertreeSolver
import Triangulator.Verification.BtSolve
import Triangulator.Verification.HypertreewidthPreprocessor

/-!
# Solving an instance with the coverable cliques

When all potential maximal cliques that `k` hyperedges cover are listed, `Solve` finds a
triangulation exactly when the generalized hypertree width is at most `k`.
-/

namespace Triangulator

open SimpleGraph HyperGraph

variable {n k : ℕ} {h : HyperGraph n} {pmcs : List (List (Fin n))}

/-- The list holds the potential maximal cliques that at most `k` hyperedges cover. -/
structure ListsCovered (h : HyperGraph n) (k : ℕ) (pmcs : List (List (Fin n))) : Prop where
  nodup : ∀ l ∈ pmcs, l.Nodup
  isPmc : ∀ l ∈ pmcs, h.primal.toSimple.IsPmc (vset l)
  covered : ∀ l ∈ pmcs, IsCovered h.edgeSets k (vset l)
  complete : ∀ Ω, h.primal.toSimple.IsPmc Ω → IsCovered h.edgeSets k Ω → ∃ l ∈ pmcs, vset l = Ω

namespace ListsCovered

theorem isPmcList (hl : ListsCovered h k pmcs) : BtAlgorithm.IsPmcList h.primal pmcs :=
  fun l hmem => ⟨hl.nodup l hmem, isPotentialMaximalClique_iff.mpr (hl.isPmc l hmem)⟩

/-- The listed triangulations are those with covered cliques. -/
theorem isListed_iff (hl : ListsCovered h k pmcs) {H : SimpleGraph (Fin n)} :
    BtAlgorithm.IsListed h.primal pmcs H ↔ h.primal.toSimple.IsMinimalTriangulation H ∧
      ∀ Q, Maximal H.IsClique Q → IsCovered h.edgeSets k Q := by
  constructor
  · intro hlisted
    refine ⟨hlisted.minimal, fun Q hQ => ?_⟩
    obtain ⟨l, hmem, rfl⟩ := hlisted.listed Q hQ
    exact hl.covered l hmem
  · rintro ⟨hH, hcov⟩
    exact ⟨hH, fun Q hQ => hl.complete Q (hH.isPmc hQ) (hcov Q hQ)⟩

/-- `Solve` succeeds exactly from the width on. -/
theorem solve_iff (hl : ListsCovered h k pmcs) (ks : KeySort) (hn : 0 < n) (hh : h.Valid)
    (hc : h.Covering) :
    ∃ solB, BtAlgorithm.solve ks h.primal pmcs = some solB ∧ (0 ≤ solB.1 ↔ h.ghtw ≤ k) := by
  have hwidth : h.ghtw ≤ k ↔ ∃ H, BtAlgorithm.IsListed h.primal pmcs H := by
    rw [ghtw, hypertreeWidth_le_iff_minimal hc.exists_edgeSet, ← hh.toSimple_eq]
    exact exists_congr fun H => hl.isListed_iff.symm
  obtain ⟨c, F, hsolve, ⟨rfl, rfl, hnone⟩ | ⟨hpos, hbest⟩⟩ :=
    BtAlgorithm.solve_cases ks hn hh.primal hl.isPmcList
  · have hneg : ¬(0 : ℤ) ≤ -1 := by decide
    refine ⟨_, hsolve, iff_of_false hneg fun hle => ?_⟩
    obtain ⟨H, hH⟩ := hwidth.mp hle
    exact hnone H hH
  · exact ⟨_, hsolve, iff_of_true hpos (hwidth.mpr ⟨_, hbest.isListed⟩)⟩

end ListsCovered

/-! ## The loop over the instances -/

/-- When every instance is left at its width, the width of the hypergraph is returned. -/
theorem foldlM_instances {solve : Io.SomeHyperGraph → Option (Option ℕ)}
    {instances : List Io.SomeHyperGraph}
    (hsolve : ∀ inst ∈ instances, solve inst = some (some inst.2.ghtw)) (w : ℕ) :
    instances.foldlM
        (fun solution inst => do
          let k ← solve inst
          pure (updateSolution solution k))
        w =
      some (instances.foldl (fun w inst => max w inst.2.ghtw) w) := by
  induction instances generalizing w with
  | nil => rfl
  | cons inst instances ih =>
      rw [List.foldlM_cons, hsolve inst List.mem_cons_self, List.foldl_cons]
      exact ih (fun inst hmem => hsolve inst (List.mem_cons_of_mem _ hmem)) _

end Triangulator
