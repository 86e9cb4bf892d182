import Triangulator.Model.McsM

/-!
# The treewidth preprocessor

A translation of `treewidthpreprocessor.cpp`.  A graph of a recursive call carries
its number of vertices, and fill edges are pairs of vertex numbers.  The depth of
the recursion is bounded by a parameter; `none` is a failed assertion or an
exhausted bound.
-/

namespace Triangulator

open Mcs

variable {n : ℕ}

/-! ## Vertices of degree at most two -/

/-- The loop of `GreedyDegree2` that fills the queue. -/
def degree2Queue (graph : Graph n) : Option (List (Fin n)) :=
  (List.finRange n).foldlM
    (fun d2 i =>
      if 1 < (graph.adjList i).length then
        some (if (graph.adjList i).length = 2 then d2 ++ [i] else d2)
      else none) []

/-- The loop of `GreedyDegree2` over the queue. -/
def degree2Loop : ℕ → List (Fin n) → Graph n → List (Fin n × Fin n) →
    Option (Graph n × List (Fin n × Fin n))
  | _, [], graph, fill => some (graph, fill)
  | 0, _ :: _, _, _ => none
  | fuel + 1, x :: d2, graph, fill =>
      match graph.adjList x with
      | [] => degree2Loop fuel d2 graph fill
      | [nb] => do
          let graph ← graph.removeEdge x nb
          degree2Loop fuel d2 graph fill
      | [nb1, nb2] => do
          let graph ← graph.removeEdge x nb1
          let graph ← graph.removeEdge x nb2
          let r ←
            if graph.hasEdge nb1 nb2 then some (graph, fill)
            else (graph.addEdge nb1 nb2).map fun graph => (graph, fill ++ [(nb1, nb2)])
          degree2Loop fuel
            (d2 ++ [nb1, nb2].filter fun nb => decide ((r.1.adjList nb).length ≤ 2)) r.1 r.2
      | _ => none

/-- `GreedyDegree2`: the new graph and the fill edges.  Every entry of the queue but
the first ones is paid for by a removed edge. -/
def greedyDegree2 (graph : Graph n) : Option (Graph n × List (Fin n × Fin n)) := do
  let d2 ← degree2Queue graph
  degree2Loop (d2.length + 2 * graph.m) d2 graph []

/-! ## Neighbourhoods with one missing edge -/

/-- The pairs `(l[i], l[ii])` with `i < ii`, in the order of the two loops. -/
def pairs {α : Type*} : List α → List (α × α)
  | [] => []
  | u :: l => l.map (fun v => (u, v)) ++ pairs l

/-- The two loops over the neighbours; `none` is the second missing edge, at which both
loops stop. -/
def scanPairs (graph : Graph n) : List (Fin n × Fin n) → Option (Fin n × Fin n) →
    Option (Option (Fin n × Fin n))
  | [], fo => some fo
  | p :: ps, fo =>
      if graph.hasEdge p.1 p.2 then scanPairs graph ps fo
      else
        match fo with
        | none => scanPairs graph ps (some p)
        | some _ => none

/-- The loop of `NeighborClique` over the vertices. -/
def neighborCliqueLoop (graph : Graph n) :
    List (Fin n) → Option (Option (Graph n × (Fin n × Fin n)))
  | [] => some none
  | x :: xs =>
      if 2 < (graph.adjList x).length then
        match scanPairs graph (pairs (graph.adjList x)) none with
        | none => neighborCliqueLoop graph xs
        | some none => none
        | some (some fo) =>
            if graph.hasEdge fo.1 fo.2 then none
            else do
              let graph ← graph.addEdge fo.1 fo.2
              some (some (graph, fo))
      else none

/-- `NeighborClique`: the new graph and the added edge, or nothing for `{-1, -1}`. -/
def neighborClique (graph : Graph n) : Option (Option (Graph n × (Fin n × Fin n))) :=
  neighborCliqueLoop graph (List.finRange n)

/-! ## The recursion -/

structure TreewidthInstance where
  graph : SomeGraph
  upperBound : ℤ
  upperBoundFill : List (ℕ × ℕ)

structure TreewidthSolution where
  fillEdges : List (ℕ × ℕ)
  treewidth : ℤ

/-- The members of `TreewidthPreprocessor` that the recursion changes. -/
structure PreprocessorState where
  instances : List TreewidthInstance
  fillEdges : List (ℕ × ℕ)
  lowerBound : ℤ

/-- `Graph::MapBack` of an edge, on a vector of edges given by their numbers. -/
def mapBackEdges (g : SomeGraph) (es : List (ℕ × ℕ)) : List (ℕ × ℕ) :=
  es.map fun e => (g.2.vertexMap.values.getD e.1 0, g.2.vertexMap.values.getD e.2 0)

/-- The vertex numbers of fill edges. -/
def edgeNumbers (es : List (Fin n × Fin n)) : List (ℕ × ℕ) :=
  es.map fun e => ((e.1 : ℕ), (e.2 : ℕ))

/-- `Preprocess2`, for the recursive calls `preprocess1`. -/
def preprocess2 (preprocess1 : SomeGraph → PreprocessorState → Option PreprocessorState)
    (inst : TreewidthInstance) (s : PreprocessorState) : Option PreprocessorState := do
  let d2 ← greedyDegree2 inst.graph.2
  if 0 < d2.2.length then
    preprocess1 ⟨_, d2.1⟩
      { s with fillEdges := s.fillEdges ++ mapBackEdges ⟨_, d2.1⟩ (edgeNumbers d2.2) }
  else
    match ← neighborClique d2.1 with
    | some r =>
        preprocess1 ⟨_, r.1⟩
          { s with fillEdges := s.fillEdges ++ mapBackEdges ⟨_, r.1⟩ (edgeNumbers [r.2]) }
    | none =>
        some { s with instances := s.instances ++ [{ inst with graph := ⟨_, d2.1⟩ }] }

/-- `Preprocess1`. -/
def preprocess1 : ℕ → SomeGraph → PreprocessorState → Option PreprocessorState
  | 0, _, _ => none
  | fuel + 1, graph, s => do
      let minimalTriangulation ← mcsM graph.2
      let fill := minimalTriangulation.fillEdges
      let filled ← graph.2.addEdges fill
      if fill.length ≤ 1 then do
        let tw ← Mcs.treewidth filled
        some
          { s with
            lowerBound := max s.lowerBound tw
            fillEdges := s.fillEdges ++ mapBackEdges graph (edgeNumbers fill) }
      else do
        let atoms ← Mcs.atoms graph.2 minimalTriangulation
        match atoms with
        | [atom] =>
            if 2 ≤ atom.2.minDegree then do
              let tw ← Mcs.treewidth filled
              preprocess2 (preprocess1 fuel)
                { graph := ⟨atom.1, atom.2.inheritMap graph.2⟩
                  upperBound := tw
                  upperBoundFill := edgeNumbers fill }
                { s with lowerBound := max s.lowerBound atom.2.minDegree }
            else none
        | _ =>
            atoms.foldlM
              (fun s atom => preprocess1 fuel ⟨atom.1, atom.2.inheritMap graph.2⟩ s) s

/-! ## The public functions -/

/-- The loop of `Preprocess` that drops the instances whose bounds meet. -/
def dropSolved (lowerBound : ℤ) (s : List TreewidthInstance × List (ℕ × ℕ))
    (inst : TreewidthInstance) : List TreewidthInstance × List (ℕ × ℕ) :=
  if inst.upperBound ≤ lowerBound then
    (s.1, s.2 ++ mapBackEdges inst.graph inst.upperBoundFill)
  else (s.1 ++ [inst], s.2)

/-- `TreewidthPreprocessor::Preprocess`, with a bound on the depth of the recursion. -/
def preprocess (fuel : ℕ) (origGraph : Graph n) (pp : Bool) : Option PreprocessorState := do
  let s ←
    if pp then
      preprocess1 fuel ⟨n, origGraph⟩ { instances := [], fillEdges := [], lowerBound := 0 }
    else
      some
        { instances :=
            [{ graph := ⟨n, origGraph⟩, upperBound := 1000000000, upperBoundFill := [] }]
          fillEdges := []
          lowerBound := 0 }
  let r := s.instances.foldl (dropSolved s.lowerBound) ([], s.fillEdges)
  some { s with instances := r.1, fillEdges := r.2 }

/-- The comparison of pairs. -/
def edgeLE (a b : ℕ × ℕ) : Bool :=
  decide (a.1 < b.1) || (decide (a.1 = b.1) && decide (a.2 ≤ b.2))

/-- The loop of `MapBack` that adds the fill edges to the original graph. -/
def addFillEdges (finalFill : Graph n) : List (ℕ × ℕ) → Option (Graph n)
  | [] => some finalFill
  | edge :: edges =>
      if h : edge.1 < n ∧ edge.2 < n then
        if finalFill.hasEdge ⟨edge.1, h.1⟩ ⟨edge.2, h.2⟩ then none
        else do
          let finalFill ← finalFill.addEdge ⟨edge.1, h.1⟩ ⟨edge.2, h.2⟩
          addFillEdges finalFill edges
      else none

/-- `TreewidthPreprocessor::MapBack`. -/
def mapBack (origGraph : Graph n) (s : PreprocessorState)
    (solutions : List TreewidthSolution) : Option TreewidthSolution :=
  if solutions.length = s.instances.length then
    let treewidth := solutions.foldl (fun tw sol => max tw sol.treewidth) s.lowerBound
    let fillEdges := (s.instances.zip solutions).foldl
      (fun fill p => fill ++ mapBackEdges p.1.graph p.2.fillEdges) s.fillEdges
    let swapped := fillEdges.map fun e => if e.2 < e.1 then (e.2, e.1) else e
    let sorted := swapped.insertionSort fun a b => edgeLE a b = true
    if sorted.IsChain (· ≠ ·) then do
      let finalFill ← addFillEdges origGraph sorted
      let tw ← Mcs.treewidth finalFill
      if treewidth = tw then some { fillEdges := sorted, treewidth := treewidth } else none
    else none
  else none

end Triangulator
