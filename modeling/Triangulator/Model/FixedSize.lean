import Triangulator.Model.Enumerator

/-!
# Enumeration by size

A translation of `hypergraph.cpp`, `fixed_size_enumerator.cpp` and
`fixed_size_hyper_enumerator.cpp`.
-/

namespace Triangulator

open AbortM

/-! ## Hypergraphs -/

/-- The data members of `HyperGraph`. -/
structure HyperGraph (n : ℕ) where
  primal : Graph n
  edges : List (List (Fin n))

namespace HyperGraph

variable {n : ℕ}

/-- `HyperGraph::HyperGraph(int n)`. -/
def empty (n : ℕ) : HyperGraph n := ⟨Graph.empty n, []⟩

/-- `HyperGraph::AddEdge`. -/
def addEdge (h : HyperGraph n) (edge : List (Fin n)) : Option (HyperGraph n) := do
  let edge := sortAndDedup edge
  let primal ← h.primal.addEdges ((List.range edge.length).flatMap fun i =>
    (edge.drop i).head?.elim [] fun v => (edge.drop (i + 1)).map fun u => (v, u))
  pure ⟨primal, h.edges ++ [edge]⟩

/-- The numbers of the hyperedges of a vertex, one for each occurrence. -/
def inEdge (h : HyperGraph n) (v : Fin n) : List ℕ :=
  h.edges.zipIdx.flatMap fun p => (p.1.filter fun w => decide (w = v)).map fun _ => p.2

end HyperGraph

/-! ## The two enumerators -/

/-- The data members that `FixedSizeEnumerator` and `FixedSizeHyperEnumerator` add
to those of `Enumerator`. -/
structure SizedEnumerator (n : ℕ) extends Enumerator n where
  cardinalityNetwork : List Lit
  cardEncoding : ℕ
  tb : TotalizerBuilder

namespace SizedEnumerator

variable {n : ℕ}

/-- The outputs that count the true literals of `input`. -/
def cardinalityOutputs (cardEncoding : ℕ) (input : List Lit) :
    SatM (List Lit × TotalizerBuilder) :=
  if cardEncoding = 0 then do
    let r ← CardinalityNetworkBuilder.init.equalNetwork input
    pure (r.1, TotalizerBuilder.empty)
  else if cardEncoding = 1 then TotalizerBuilder.empty.init input
  else abort

/-- The part of the two constructors that limits the number of true literals of
`input`; the network has to have `size` outputs. -/
def withCardinality (e : Enumerator n) (cardEncoding : ℕ) (input : List Lit) (size : ℕ) :
    SatM (SizedEnumerator n) := do
  let r ← cardinalityOutputs cardEncoding input
  assert (decide (r.1.length = size))
  forM r.1 freezeVar
  pure
    { e with
      cardinalityNetwork := r.1
      cardEncoding := cardEncoding
      tb := r.2 }

/-- The assumptions that the first `k` outputs are true and the others false. -/
def assumptions (e : SizedEnumerator n) (k : ℕ) : List Lit :=
  e.cardinalityNetwork.zipIdx.map fun p => if p.2 < k then p.1 else -p.1

/-- The loop of `AllPmcs`, with a bound on its rounds. -/
def allPmcsLoop (solver : Solver) (sh : Shuffle) (assumptions : List Lit) (fuel : ℕ) :
    ℕ → Bool → List (List (Fin n)) → Enumerator n →
    SatM (List (List (Fin n)) × Enumerator n)
  | 0, _, _, _ => abort
  | rounds + 1, firstCall, pmcs, e => do
      let r ← Enumerator.getPmc solver sh assumptions firstCall fuel e
      if r.1.length = 0 then pure (pmcs, r.2)
      else allPmcsLoop solver sh assumptions fuel rounds false (pmcs ++ [r.1]) r.2

/-- `AllPmcs`, the same in both classes. -/
def allPmcs (solver : Solver) (sh : Shuffle) (fuel k : ℕ) (e : SizedEnumerator n) :
    SatM (List (List (Fin n)) × SizedEnumerator n) := do
  let tb ← (if e.cardEncoding = 1 then e.tb.buildToSize (k + 1) else pure e.tb)
  let r ← allPmcsLoop solver sh (e.assumptions k) fuel fuel true [] e.toEnumerator
  pure (r.1, { e with toEnumerator := r.2, tb := tb })

/-- The calls `AllPmcs(1)`, …, `AllPmcs(K)`: the results in their order. -/
def run (solver : Solver) (sh : Shuffle) (fuel K : ℕ) (e : SizedEnumerator n) :
    SatM (List (List (List (Fin n))) × SizedEnumerator n) :=
  (List.range' 1 K).foldlM
    (fun s k => do
      let r ← allPmcs solver sh fuel k s.2
      pure (s.1 ++ [r.1], r.2))
    ([], e)

end SizedEnumerator

/-- The constructor of `FixedSizeEnumerator`. -/
def FixedSizeEnumerator.new {n : ℕ} (g : Graph n) (minsepEncoding cardEncoding : ℕ) :
    SatM (SizedEnumerator n) := do
  let e ← Enumerator.new g minsepEncoding
  SizedEnumerator.withCardinality e cardEncoding e.xVars n

/-- The calls `AllPmcs(1)`, …, `AllPmcs(K)` of a new `FixedSizeEnumerator`. -/
def FixedSizeEnumerator.run {n : ℕ} (g : Graph n) (minsepEncoding cardEncoding : ℕ)
    (solver : Solver) (sh : Shuffle) (fuel K : ℕ) : SatM (List (List (List (Fin n)))) := do
  let e ← FixedSizeEnumerator.new g minsepEncoding cardEncoding
  let r ← e.run solver sh fuel K
  pure r.1

/-- The constructor of `FixedSizeHyperEnumerator`. -/
def FixedSizeHyperEnumerator.new {n : ℕ} (h : HyperGraph n)
    (minsepEncoding cardEncoding : ℕ) : SatM (SizedEnumerator n) := do
  let e ← Enumerator.new h.primal minsepEncoding
  let edgeVars ← h.edges.foldlM
    (fun edgeVars _ => do
      let v ← newVar
      pure (edgeVars ++ [v]))
    []
  forM (List.finRange n) fun i =>
    addClause (-e.xVar i :: (h.inEdge i).map fun j => edgeVars.getD j .undef)
  SizedEnumerator.withCardinality e cardEncoding edgeVars h.edges.length

/-- The calls `AllPmcs(1)`, …, `AllPmcs(K)` of a new `FixedSizeHyperEnumerator`. -/
def FixedSizeHyperEnumerator.run {n : ℕ} (h : HyperGraph n)
    (minsepEncoding cardEncoding : ℕ) (solver : Solver) (sh : Shuffle) (fuel K : ℕ) :
    SatM (List (List (List (Fin n)))) := do
  let e ← FixedSizeHyperEnumerator.new h minsepEncoding cardEncoding
  let r ← e.run solver sh fuel K
  pure r.1

end Triangulator
