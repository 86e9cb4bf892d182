import Triangulator.Model.Io
import Triangulator.Model.TreewidthPreprocessor

/-!
# The hypertreewidth preprocessor

A translation of the rest of `hypergraph.cpp` and of `hypertreewidthpreprocessor.cpp`.
The depth of the recursion is bounded by a parameter; `none` is a failed assertion, an
exhausted bound or a vertex outside the range of its vector.
-/

namespace Triangulator

open Mcs

variable {n : ℕ}

/-- A vertex of a graph with `n` vertices by its number. -/
def toVertex (n v : ℕ) : Option (Fin n) :=
  if h : v < n then some ⟨v, h⟩ else none

/-- `Graph::MapInto` of a vertex. -/
def Graph.mapInto (g : Graph n) (v : ℕ) : Option (Fin n) :=
  toVertex n (g.vertexMap.rank v)

namespace HyperGraph

/-- `PrimalEdges`. -/
def primalEdges {α : Type*} (edges : List (List α)) : List (α × α) :=
  edges.flatMap pairs

/-- `HyperGraph::HyperGraph(std::vector<std::vector<int>> edges)`. -/
def ofEdges (edges : List (List ℕ)) : Option Io.SomeHyperGraph := do
  let primal ← Graph.ofEdges (primalEdges edges)
  let edges ← edges.mapM fun e => do
    let e ← e.mapM primal.mapInto
    pure (sortAndDedup e)
  pure ⟨_, primal, edges⟩

/-- `HyperGraph::m`. -/
def m (h : HyperGraph n) : ℕ :=
  h.edges.length

/-- `HyperGraph::EdgesIn`. -/
def edgesIn (h : HyperGraph n) (vs : List (Fin n)) : List (List (Fin n)) :=
  let is := mark (fun _ => false) vs
  (h.edges.map fun e => e.filter fun v => is v).filter fun newEdge =>
    decide (2 ≤ newEdge.length)

/-- The hypergraph on an atom of the primal graph: the body of the loop of `Preprocess1`
before the recursive call. -/
def hyperAtom (h : HyperGraph n) (atom : SomeGraph) : Option Io.SomeHyperGraph := do
  let vss ← (List.finRange atom.1).mapM fun i => toVertex n (atom.2.mapBack i)
  ofEdges ((h.edgesIn vss).map fun e => e.map Fin.val)

end HyperGraph

namespace HypertreewidthPreprocessor

/-- `Preprocess1`. -/
def preprocess1 : ℕ → Io.SomeHyperGraph → List Io.SomeHyperGraph →
    Option (List Io.SomeHyperGraph)
  | 0, _, _ => none
  | fuel + 1, hypergraph, instances =>
      if hypergraph.1 = 0 then some instances
      else do
        let minimalTriangulation ← mcsM hypergraph.2.primal
        let atoms ← Mcs.atoms hypergraph.2.primal minimalTriangulation
        if atoms.length = 1 then
          some (if 1 < hypergraph.2.m then instances ++ [hypergraph] else instances)
        else
          atoms.foldlM
            (fun instances atom => do
              let hyperAtom ← hypergraph.2.hyperAtom atom
              preprocess1 fuel hyperAtom instances)
            instances

/-- `HypertreewidthPreprocessor::Preprocess`, with a bound on the depth of the
recursion. -/
def preprocess (fuel : ℕ) (hypergraph : HyperGraph n) : Option (List Io.SomeHyperGraph) :=
  preprocess1 fuel ⟨n, hypergraph⟩ []

end HypertreewidthPreprocessor

end Triangulator
