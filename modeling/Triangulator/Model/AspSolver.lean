import Triangulator.Model.AspEnumerator
import Triangulator.Model.HypertreeSolver
import Triangulator.Model.Solver

/-!
# The solvers by answer set programming

A translation of `TreewidthAsp` and `HypertreewidthAsp` of `solver.cpp`.  The program
`clingo` is called once for every instance and every size.
-/

namespace Triangulator

open AnswerSet AspEnumerator

variable {n : ℕ}

/-- The loop of `TreewidthAsp` over the sizes: the solution that is pushed before the
loop is left, if there is one. -/
def treewidthAspLoop (ks : KeySort) (clingo : Set (Statement Atom) → List (List Char))
    (g : Graph n) : List ℕ → List (List (Fin n)) → Option (Option TreewidthSolution)
  | [], _ => some none
  | k :: sizes, apmcs => do
      let pmcs ← treewidthPmcs clingo g k
      if pmcs.all fun pmc => decide (pmc.length = k) then
        let apmcs := apmcs ++ pmcs
        let solB ← BtAlgorithm.solve ks g apmcs
        let solution := treewidthSolution solB
        if 0 ≤ solution.treewidth then
          if solution.treewidth = (k : ℤ) - 1 then some (some solution) else none
        else treewidthAspLoop ks clingo g sizes apmcs
      else none

/-- `TreewidthAsp`, with a bound on the depth of the preprocessing. -/
def treewidthAsp (ks : KeySort) (clingo : Set (Statement Atom) → List (List Char)) (fuel : ℕ)
    (graph : Graph n) (pp : Bool) : Option ℤ := do
  let twpp ← preprocess fuel graph pp
  let solutions ← twpp.instances.mapM fun inst =>
    treewidthAspLoop ks clingo inst.graph.2 (List.range' 1 inst.graph.1) []
  let solution ← mapBack graph twpp solutions.reduceOption
  pure solution.treewidth

/-- The loop of `HypertreewidthAsp` over the sizes.  The cliques of one size are those of
all smaller sizes too. -/
def hypertreewidthAspLoop (ks : KeySort) (clingo : Set (Statement Atom) → List (List Char))
    (inst : HyperGraph n) : List ℕ → Option (Option ℕ)
  | [] => some none
  | k :: sizes => do
      let pmcs ← hypertreewidthPmcs clingo inst k
      let solB ← BtAlgorithm.solve ks inst.primal pmcs
      if 0 ≤ solB.1 then some (some k)
      else hypertreewidthAspLoop ks clingo inst sizes

/-- `HypertreewidthAsp`, with a bound on the depth of the preprocessing. -/
def hypertreewidthAsp (ks : KeySort) (clingo : Set (Statement Atom) → List (List Char))
    (fuel : ℕ) (hypergraph : HyperGraph n) : Option ℕ := do
  let instances ← HypertreewidthPreprocessor.preprocess fuel hypergraph
  instances.foldlM
    (fun solution inst => do
      let k ← hypertreewidthAspLoop ks clingo inst.2 (List.range' 1 inst.1)
      pure (updateSolution solution k))
    1

end Triangulator
