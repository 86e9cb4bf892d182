import Triangulator.Model.BtAlgorithm
import Triangulator.Model.CombEnum
import Triangulator.Model.FixedSize
import Triangulator.Model.SatInterface
import Triangulator.Model.TreewidthPreprocessor

/-!
# The treewidth solvers

A translation of `TreewidthSat`, `TreewidthComb` and `CountMinseps` of `solver.cpp`.  Each
instance gets a new solver, whose run begins with the empty trace.  A failed assertion is
`none`; a lookup that `BtAlgorithm` misses is read as there, as a missing child.
-/

namespace Triangulator

open AbortM

variable {n : ℕ}

/-- The pair returned by `BtAlgorithm::Solve` as a solution. -/
def treewidthSolution (solB : ℤ × List (Fin n × Fin n)) : TreewidthSolution where
  fillEdges := edgeNumbers solB.2
  treewidth := solB.1

/-! ## `TreewidthComb` -/

/-- The body of the loop of `TreewidthComb` over the instances. -/
def treewidthCombInstance (ks : KeySort) (inst : TreewidthInstance) :
    Option TreewidthSolution := do
  let pmcs ← CombEnumerator.pmcs inst.graph.2
  let solB ← BtAlgorithm.solve ks inst.graph.2 pmcs
  pure (treewidthSolution solB)

/-- `TreewidthComb`, with a bound on the depth of the preprocessing. -/
def treewidthComb (ks : KeySort) (fuel : ℕ) (graph : Graph n) (pp : Bool) : Option ℤ := do
  let twpp ← preprocess fuel graph pp
  let solutions ← twpp.instances.mapM (treewidthCombInstance ks)
  let solution ← mapBack graph twpp solutions
  pure solution.treewidth

/-! ## `TreewidthSat` -/

/-- The loop of `TreewidthSat` over the sizes: the solution that is pushed before the
loop is left, if there is one. -/
def treewidthSatLoop (ks : KeySort) (solver : Solver) (sh : Shuffle) (fuel : ℕ) (g : Graph n) :
    List ℕ → List (List (Fin n)) → SizedEnumerator n → SatM (Option TreewidthSolution)
  | [], _, _ => pure none
  | k :: sizes, apmcs, e => do
      let r ← e.allPmcs solver sh fuel k
      assert (r.1.all fun pmc => decide (pmc.length = k))
      let apmcs := apmcs ++ r.1
      let solB ← ofOption (BtAlgorithm.solve ks g apmcs)
      let solution := treewidthSolution solB
      if 0 ≤ solution.treewidth then do
        assert (decide (solution.treewidth = (k : ℤ) - 1))
        pure (some solution)
      else treewidthSatLoop ks solver sh fuel g sizes apmcs r.2

/-- The body of the loop of `TreewidthSat` over the instances. -/
def treewidthSatInstance (ks : KeySort) (solver : Solver) (sh : Shuffle) (fuel : ℕ)
    (minsepEncoding cardEncoding : ℕ) (g : Graph n) : SatM (Option TreewidthSolution) := do
  let e ← FixedSizeEnumerator.new g minsepEncoding cardEncoding
  treewidthSatLoop ks solver sh fuel g (List.range' 1 n) [] e

/-- `TreewidthSat`, with a bound on the depth of the preprocessing and on the rounds of
the refinement. -/
def treewidthSat (ks : KeySort) (solver : Solver) (sh : Shuffle) (fuel : ℕ) (graph : Graph n)
    (minsepEncoding cardEncoding : ℕ) (pp : Bool) : Option ℤ := do
  let twpp ← preprocess fuel graph pp
  let solutions ← twpp.instances.mapM fun inst =>
    (treewidthSatInstance ks solver sh fuel minsepEncoding cardEncoding inst.graph.2 []).1
  let solution ← mapBack graph twpp solutions.reduceOption
  pure solution.treewidth

/-- `TreewidthSat` with the libraries that the program is linked to. -/
def Libraries.treewidthSat (libraries : Libraries) (ks : KeySort) (sh : Shuffle) (fuel : ℕ)
    (graph : Graph n) (minsepEncoding cardEncoding : ℕ) (solver : Text) (pp : Bool) :
    Option ℤ := do
  let twpp ← preprocess fuel graph pp
  let solutions ← twpp.instances.mapM fun inst =>
    (satSolver libraries solver).bind fun I => I.run fun solver =>
      treewidthSatInstance ks solver sh fuel minsepEncoding cardEncoding inst.graph.2
  let solution ← mapBack graph twpp solutions.reduceOption
  pure solution.treewidth

/-! ## `CountMinseps` -/

/-- The loop of `CountMinseps` over the instances. -/
def countMinsepsLoop (ub : ℤ) : List TreewidthInstance → ℤ → Option ℤ
  | [], ans => some ans
  | inst :: instances, ans => do
      let minseps ← CombEnumerator.findMinSeps inst.graph.2 ub
      let ans := ans + minseps.length
      if ub < ans then some ans else countMinsepsLoop ub instances ans

/-- `CountMinseps`, with a bound on the depth of the preprocessing. -/
def countMinseps (fuel : ℕ) (graph : Graph n) (ub : ℤ) : Option ℤ := do
  let twpp ← preprocess fuel graph true
  let ans ← countMinsepsLoop ub twpp.instances 0
  pure (min ans ub)

end Triangulator
