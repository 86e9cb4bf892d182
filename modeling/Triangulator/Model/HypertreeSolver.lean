import Triangulator.Model.BtAlgorithm
import Triangulator.Model.CombEnum
import Triangulator.Model.HypertreewidthPreprocessor
import Triangulator.Model.SatInterface
import Triangulator.Model.Setcover

/-!
# The hypertree width solvers

A translation of `HypertreewidthSat` and `HypertreewidthComb` of `solver.cpp`.  Every
instance gets a new enumerator or a new `Setcover` object.  A failed assertion is `none`,
a lookup that `BtAlgorithm` misses is read as there, as a missing child, and a loop over the
sizes returns the size at which it was left, if it was.
-/

namespace Triangulator

open AbortM

variable {n : ℕ}

/-- The assignment to `solution` after an instance. -/
def updateSolution (solution : ℕ) (k : Option ℕ) : ℕ :=
  k.elim solution fun k => max solution k

/-! ## `HypertreewidthSat` -/

/-- The loop of `HypertreewidthSat` over the sizes. -/
def hypertreewidthSatLoop (ks : KeySort) (solver : Solver) (sh : Shuffle) (fuel : ℕ)
    (g : Graph n) : List ℕ → List (List (Fin n)) → SizedEnumerator n → SatM (Option ℕ)
  | [], _, _ => pure none
  | k :: sizes, apmcs, e => do
      let r ← e.allPmcs solver sh fuel k
      let apmcs := apmcs ++ r.1
      let solB ← ofOption (BtAlgorithm.solve ks g apmcs)
      if 0 ≤ solB.1 then pure (some k)
      else hypertreewidthSatLoop ks solver sh fuel g sizes apmcs r.2

/-- The body of the loop of `HypertreewidthSat` over the instances. -/
def hypertreewidthSatInstance (ks : KeySort) (solver : Solver) (sh : Shuffle) (fuel : ℕ)
    (minsepEncoding cardEncoding : ℕ) (inst : HyperGraph n) : SatM (Option ℕ) := do
  let e ← FixedSizeHyperEnumerator.new inst minsepEncoding cardEncoding
  hypertreewidthSatLoop ks solver sh fuel inst.primal (List.range' 1 n) [] e

/-- `HypertreewidthSat`, with a bound on the depth of the preprocessing and on the rounds
of the refinement. -/
def hypertreewidthSat (ks : KeySort) (solver : Solver) (sh : Shuffle) (fuel : ℕ)
    (hypergraph : HyperGraph n) (minsepEncoding cardEncoding : ℕ) : Option ℕ := do
  let instances ← HypertreewidthPreprocessor.preprocess fuel hypergraph
  instances.foldlM
    (fun solution inst => do
      let k ← (hypertreewidthSatInstance ks solver sh fuel minsepEncoding cardEncoding
        inst.2 []).1
      pure (updateSolution solution k))
    1

/-- `HypertreewidthSat` with the libraries that the program is linked to. -/
def Libraries.hypertreewidthSat (libraries : Libraries) (ks : KeySort) (sh : Shuffle)
    (fuel : ℕ) (hypergraph : HyperGraph n) (minsepEncoding cardEncoding : ℕ) (solver : Text) :
    Option ℕ := do
  let instances ← HypertreewidthPreprocessor.preprocess fuel hypergraph
  instances.foldlM
    (fun solution inst => do
      let k ← (satSolver libraries solver).bind fun I => I.run fun solver =>
        hypertreewidthSatInstance ks solver sh fuel minsepEncoding cardEncoding inst.2
      pure (updateSolution solution k))
    1

/-! ## `HypertreewidthComb` -/

/-- The body of the loop of `HypertreewidthComb` over the cliques: `tpmcs` and the written
part of `can`. -/
def coverRound (sortBy : (ℕ → ℕ) → List ℕ → List ℕ) (k : ℕ)
    (s : List (List (Fin n)) × List Bool) (p : List (Fin n) × Bool) :
    AbortM Setcover (List (List (Fin n)) × List Bool) :=
  if p.2 then pure (s.1 ++ [p.1], s.2 ++ [true])
  else do
    let sol ← Setcover.solve sortBy (p.1.map Fin.val) k k
    match sol with
    | [] => abort
    | x :: _ =>
        if x ≠ -1 then do
          assert (decide (sol.length = k))
          pure (s.1 ++ [p.1], s.2 ++ [true])
        else pure (s.1, s.2 ++ [false])

/-- The loop of `HypertreewidthComb` over the sizes. -/
def hypertreewidthCombLoop (ks : KeySort) (sortBy : (ℕ → ℕ) → List ℕ → List ℕ) (g : Graph n)
    (pmcs : List (List (Fin n))) : List ℕ → List Bool → AbortM Setcover (Option ℕ)
  | [], _ => pure none
  | k :: sizes, can => do
      let r ← (pmcs.zip can).foldlM (coverRound sortBy k) ([], [])
      let solB ← ofOption (BtAlgorithm.solve ks g r.1)
      if 0 ≤ solB.1 then pure (some k)
      else hypertreewidthCombLoop ks sortBy g pmcs sizes r.2

/-- The body of the loop of `HypertreewidthComb` over the instances. -/
def hypertreewidthCombInstance (ks : KeySort) (sortBy : (ℕ → ℕ) → List ℕ → List ℕ)
    (inst : HyperGraph n) : AbortM Setcover (Option ℕ) := do
  let pmcs ← ofOption (CombEnumerator.pmcs inst.primal)
  hypertreewidthCombLoop ks sortBy inst.primal pmcs (List.range' 1 n)
    (pmcs.map fun _ => false)

/-- `HypertreewidthComb`, with a bound on the depth of the preprocessing. -/
def hypertreewidthComb (ks : KeySort) (sortBy : (ℕ → ℕ) → List ℕ → List ℕ) (fuel : ℕ)
    (hypergraph : HyperGraph n) : Option ℕ := do
  let instances ← HypertreewidthPreprocessor.preprocess fuel hypergraph
  instances.foldlM
    (fun solution inst => do
      let k ← (hypertreewidthCombInstance ks sortBy inst.2
        (Setcover.init (inst.2.edges.map fun e => e.map Fin.val))).1
      pure (updateSolution solution k))
    1

end Triangulator
