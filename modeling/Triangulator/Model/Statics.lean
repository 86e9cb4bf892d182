import Triangulator.Model.HypertreewidthPreprocessor
import Triangulator.Program.Buffer

/-!
# The searches on their static vectors

`Mcs`, `McsM`, `Atoms` and the two `EdgesIn` functions keep some of their vectors from call
to call.  Here they take these vectors as the calls before have left them and return them
for the next call.  Every access checks its index against the size of its vector, and the
main loop of `Mcs` takes one step for each iteration of the source.
-/

namespace Triangulator

namespace Buffered

variable {n : ℕ}

/-! ## Preparing the vectors -/

/-- `utils::InitZero`. -/
def initZero {α : Type} (zero : α) (vec : List α) (size : ℕ) : List α :=
  (Buffer.resize zero size vec).map fun _ => zero

/-- How `Mcs` prepares `labels` and `McsM` prepares `reach`: the vector grows to `n` stacks
if it is shorter, and its first `n` stacks are cleared. -/
def clearStacks (n : ℕ) (vec : List (List ℕ)) : Except Fault (List (List ℕ)) :=
  Buffer.setEach (if vec.length < n then Buffer.resize [] n vec else vec)
    (List.finRange n) []

/-- An index into the vectors of a graph. -/
def vertex (n x : ℕ) : Except Fault (Fin n) :=
  if h : x < n then .ok ⟨x, h⟩ else .error .index

/-! ## Maximum cardinality search -/

/-- The static vectors of `Mcs`. -/
structure McsStatics where
  label : List ℕ
  rm : List Bool
  labels : List (List ℕ)

/-- The variables of `Mcs` before an iteration of its main loop; `it` entries of `order`
are left, which is filled from its end. -/
structure McsVars (n : ℕ) extends McsStatics where
  maxLabel : ℤ
  it : ℕ
  order : List (Fin n)

/-- `Mcs` up to its main loop. -/
def mcsInit (n : ℕ) (b : McsStatics) : Except Fault (McsVars n) := do
  let labels ← clearStacks n b.labels
  let labels ← (List.finRange n).foldlM
    (fun labels (i : Fin n) => Buffer.pushBack labels 0 (i : ℕ)) labels
  pure
    { label := initZero 0 b.label n
      rm := initZero false b.rm n
      labels := labels
      maxLabel := 0
      it := n
      order := [] }

/-- The body of the loop over the neighbours of the chosen vertex. -/
def mcsVisit (s : McsVars n) (nx : Fin n) : Except Fault (McsVars n) := do
  if ← Buffer.get s.rm nx then pure s
  else do
    let k ← Buffer.get s.label nx
    let label ← Buffer.set s.label nx (k + 1)
    let labels ← Buffer.pushBack s.labels (k + 1) (nx : ℕ)
    pure { s with label := label, labels := labels, maxLabel := max s.maxLabel (k + 1) }

/-- An iteration of the main loop: an empty stack lowers `max_label`, a removed vertex is
only popped. -/
def mcsRound (g : Graph n) (s : McsVars n) : Except Fault (McsVars n) := do
  let k ← Buffer.index s.maxLabel
  let stack ← Buffer.get s.labels k
  match stack.getLast? with
  | none => pure { s with maxLabel := s.maxLabel - 1 }
  | some x => do
      let labels ← Buffer.set s.labels k stack.dropLast
      if ← Buffer.get s.rm x then pure { s with labels := labels }
      else do
        let x ← vertex n x
        let s ← (g.adjList x).foldlM mcsVisit { s with labels := labels }
        let rm ← Buffer.set s.rm x true
        pure { s with rm := rm, it := s.it - 1, order := x :: s.order }

/-- The main loop of `Mcs`, with a bound on its iterations. -/
def mcsLoop (g : Graph n) : ℕ → McsVars n → Except Fault (McsVars n)
  | fuel, s =>
      if s.it = 0 then .ok s
      else
        match fuel with
        | 0 => .error .rounds
        | fuel + 1 => do
            let s ← mcsRound g s
            mcsLoop g fuel s

/-- `mcs::Mcs`. -/
def mcs (g : Graph n) (b : McsStatics) : Except Fault (List (Fin n) × McsStatics) := do
  let s ← mcsInit n b
  let s ← mcsLoop g (n * (2 * n + 3)) s
  pure (s.order, s.toMcsStatics)

/-! ## Minimal triangulations -/

/-- The static vectors of `McsM`. -/
structure McsMStatics where
  label : List ℕ
  rm : List Bool
  rc : List Bool
  reach : List (List ℕ)

/-- The variables of `McsM` before a round of its main loop; `order` and `isMaximalPoint`
are filled from their ends. -/
structure McsMVars (n : ℕ) extends McsMStatics where
  fill : List (Fin n × Fin n)
  order : List (Fin n)
  isMaximalPoint : List Bool
  prevLabel : ℤ

/-- `McsM` up to its main loop. -/
def mcsMInit (n : ℕ) (b : McsMStatics) : Except Fault (McsMVars n) := do
  let reach ← clearStacks n b.reach
  pure
    { label := initZero 0 b.label n
      rm := initZero false b.rm n
      rc := initZero false b.rc n
      reach := reach
      fill := []
      order := []
      isMaximalPoint := []
      prevLabel := -1 }

/-- The loop for `x` and `max_label`, which are returned. -/
def selectMax (s : McsMVars n) : Except Fault (ℕ × ℕ) :=
  (List.finRange n).foldlM
    (fun p (i : Fin n) => do
      if ← Buffer.get s.rm i then pure p
      else do
        let k ← Buffer.get s.label i
        pure (if p.2 ≤ k then ((i : ℕ), k) else p))
    (0, 0)

/-- The body of the first loop over the neighbours of the chosen vertex. -/
def startNeighbor (s : McsMVars n) (y : Fin n) : Except Fault (McsMVars n) := do
  if ← Buffer.get s.rm y then pure s
  else do
    let rc ← Buffer.set s.rc y true
    let k ← Buffer.get s.label y
    let reach ← Buffer.pushBack s.reach k (y : ℕ)
    pure { s with rc := rc, reach := reach }

/-- The body of the loop over the neighbours `z` of a vertex of stack `i`. -/
def touch (x : Fin n) (i : ℕ) (s : McsMVars n) (z : Fin n) : Except Fault (McsMVars n) := do
  if ← Buffer.get s.rm z then pure s
  else if ← Buffer.get s.rc z then pure s
  else do
    let rc ← Buffer.set s.rc z true
    let k ← Buffer.get s.label z
    if i < k then do
      let reach ← Buffer.pushBack s.reach k (z : ℕ)
      let label ← Buffer.set s.label z (k + 1)
      pure { s with rc := rc, reach := reach, label := label, fill := s.fill ++ [(x, z)] }
    else do
      let reach ← Buffer.pushBack s.reach i (z : ℕ)
      pure { s with rc := rc, reach := reach }

/-- The loop that empties stack `i`, with a bound on its rounds. -/
def drain (g : Graph n) (x : Fin n) (i : ℕ) : ℕ → McsMVars n → Except Fault (McsMVars n)
  | fuel, s => do
      let stack ← Buffer.get s.reach i
      match stack.getLast? with
      | none => pure s
      | some y =>
          match fuel with
          | 0 => .error .rounds
          | fuel + 1 => do
              let reach ← Buffer.set s.reach i stack.dropLast
              let y ← vertex n y
              let s ← (g.adjList y).foldlM (touch x i) { s with reach := reach }
              drain g x i fuel s

/-- The body of the last loop over the neighbours of the chosen vertex. -/
def raiseNeighbor (s : McsMVars n) (y : Fin n) : Except Fault (McsMVars n) := do
  if ← Buffer.get s.rm y then pure s
  else do
    let k ← Buffer.get s.label y
    let label ← Buffer.set s.label y (k + 1)
    pure { s with label := label }

/-- What a round of `McsM` does with the selected vertex, whose label is `k`. -/
def mcsMVisit (g : Graph n) (s : McsMVars n) (x : Fin n) (k : ℕ) :
    Except Fault (McsMVars n) := do
  let rc ← Buffer.setEach s.rc (List.finRange n) false
  let rc ← Buffer.set rc x true
  let rm ← Buffer.set s.rm x true
  let s ← (g.adjList x).foldlM startNeighbor
    { s with
      rc := rc
      rm := rm
      order := x :: s.order
      isMaximalPoint := decide ((k : ℤ) ≤ s.prevLabel) :: s.isMaximalPoint
      prevLabel := k }
  let s ← (List.range n).foldlM (fun s i => drain g x i n s) s
  (g.adjList x).foldlM raiseNeighbor s

/-- A round of the main loop of `McsM`. -/
def mcsMRound (g : Graph n) (s : McsMVars n) : Except Fault (McsMVars n) := do
  let p ← selectMax s
  let removed ← Buffer.get s.rm p.1
  let k ← Buffer.get s.label p.1
  if !removed && decide (k < n) then do
    let x ← vertex n p.1
    mcsMVisit g s x k
  else .error .assertion

/-- The main loop of `McsM`. -/
def mcsMLoop (g : Graph n) : ℕ → McsMVars n → Except Fault (McsMVars n)
  | 0, s => .ok s
  | it + 1, s => do
      let s ← mcsMRound g s
      mcsMLoop g it s

/-- `mcs::McsM`. -/
def mcsM (g : Graph n) (b : McsMStatics) :
    Except Fault (Mcs.McsMOutput n × McsMStatics) := do
  let s ← mcsMInit n b
  let s ← mcsMLoop g n s
  pure
    ({ fillEdges := s.fill
       eliminationOrder := s.order
       isMaximalCliquePoint := s.isMaximalPoint }, s.toMcsMStatics)

/-! ## Induced edges -/

/-- `Graph::EdgesIn`, with its static vector. -/
def edgesIn (g : Graph n) (vs : List (Fin n)) (is : List Bool) :
    Except Fault (List (Fin n × Fin n) × List Bool) := do
  let is ← Buffer.setEach (initZero false is n) vs true
  let edges ← vs.foldlM
    (fun edges (v : Fin n) =>
      if (g.adjList v).length ≤ vs.length then
        (g.adjList v).foldlM
          (fun edges (nv : Fin n) => do
            let isIn ← Buffer.get is nv
            pure (if isIn && decide (v < nv) then edges ++ [(v, nv)] else edges))
          edges
      else
        pure (vs.foldl
          (fun edges (nv : Fin n) =>
            if g.adjMat v nv && decide (v < nv) then edges ++ [(v, nv)] else edges)
          edges))
    []
  pure (edges, is)

/-- `HyperGraph::EdgesIn`, with its static vector. -/
def hyperEdgesIn (h : HyperGraph n) (vs : List (Fin n)) (is : List Bool) :
    Except Fault (List (List (Fin n)) × List Bool) := do
  let is ← Buffer.setEach (initZero false is n) vs true
  let edges ← h.edges.foldlM
    (fun edges e => do
      let newEdge ← e.foldlM
        (fun newEdge (v : Fin n) => do
          let isIn ← Buffer.get is v
          pure (if isIn then newEdge ++ [v] else newEdge))
        []
      pure (if 2 ≤ newEdge.length then edges ++ [newEdge] else edges))
    []
  pure (edges, is)

/-! ## Atoms -/

/-- `Graph::Dfs` on a vertex vector of the caller, with a bound on the recursion depth. -/
def dfs (g : Graph n) : ℕ → Fin n → List Bool × List (Fin n) →
    Except Fault (List Bool × List (Fin n))
  | 0, _, s => .ok s
  | fuel + 1, v, s => do
      let block ← Buffer.set s.1 v true
      (g.adjList v).foldlM
        (fun s (nv : Fin n) => do
          if ← Buffer.get s.1 nv then pure s else dfs g fuel nv s)
        (block, s.2 ++ [v])

/-- `Graph::FindComponentAndMark`. -/
def findComponentAndMark (g : Graph n) (v : Fin n) (block : List Bool) :
    Except Fault (List Bool × List (Fin n)) :=
  dfs g n v (block, [])

/-- `Graph(graph.EdgesIn(vs))`. -/
def inducedGraph (g : Graph n) (vs : List (Fin n)) (is : List Bool) :
    Except Fault (Mcs.SomeGraph × List Bool) := do
  let r ← edgesIn g vs is
  let h ← Fault.ofOption (Graph.ofEdges (r.1.map fun e => ((e.1 : ℕ), (e.2 : ℕ))))
  pure (⟨_, h⟩, r.2)

/-- The static vectors of `Atoms`. -/
structure AtomsStatics where
  rm : List Bool
  block : List Bool

/-- The variables of `Atoms`, with the static vector of `Graph::EdgesIn`. -/
structure AtomsVars extends AtomsStatics where
  is : List Bool
  atoms : List Mcs.SomeGraph

/-- The loop that collects the neighbours of `x` that are not removed. -/
def candClique (rm : List Bool) (filled : Graph n) (x : Fin n) :
    Except Fault (List (Fin n)) :=
  (filled.adjList x).foldlM
    (fun clique (nx : Fin n) => do
      let removed ← Buffer.get rm nx
      pure (if removed then clique else clique ++ [nx]))
    []

/-- The atom below the candidate clique of `x`. -/
def cutAtom (g : Graph n) (s : AtomsVars) (x : Fin n) (clique : List (Fin n)) :
    Except Fault AtomsVars := do
  let block ← Buffer.setEach s.block clique true
  let r ← findComponentAndMark g x block
  let block ← Buffer.setEach r.1 clique false
  let atom ← inducedGraph g (r.2 ++ clique) s.is
  pure { s with block := block, is := atom.2, atoms := s.atoms ++ [atom.1] }

/-- What the body of the loop over the elimination order does for a marked vertex. -/
def cutMarked (g filled : Graph n) (s : AtomsVars) (x : Fin n) (marked : Bool) :
    Except Fault AtomsVars :=
  if marked then do
    let clique ← candClique s.rm filled x
    if g.isClique clique then cutAtom g s x clique else pure s
  else pure s

/-- The body of the loop over the elimination order. -/
def atomsRound (g filled : Graph n) (out : Mcs.McsMOutput n) (s : AtomsVars) (it : ℕ) :
    Except Fault AtomsVars := do
  let x ← Buffer.get out.eliminationOrder it
  let marked ← Buffer.get out.isMaximalCliquePoint it
  let s ← cutMarked g filled s x marked
  let rm ← Buffer.set s.rm x true
  pure { s with rm := rm }

/-- The loop over the vertices that are left; the last value counts the components
found. -/
def restRound (g : Graph n) (s : AtomsVars × ℕ) (x : Fin n) :
    Except Fault (AtomsVars × ℕ) := do
  if ← Buffer.get s.1.block x then pure s
  else do
    let r ← findComponentAndMark g x s.1.block
    let atom ← inducedGraph g r.2 s.1.is
    pure ({ s.1 with block := r.1, is := atom.2, atoms := s.1.atoms ++ [atom.1] }, s.2 + 1)

/-- `mcs::Atoms`. -/
def atoms (g : Graph n) (out : Mcs.McsMOutput n) (b : AtomsStatics) (is : List Bool) :
    Except Fault (List Mcs.SomeGraph × AtomsStatics × List Bool) := do
  let filled ← Fault.ofOption (g.addEdges out.fillEdges)
  let s ← (List.range n).foldlM (atomsRound g filled out)
    { rm := initZero false b.rm n, block := initZero false b.block n, is := is, atoms := [] }
  let t ← (List.finRange n).foldlM (restRound g) (s, 0)
  if t.2 = 1 then pure (t.1.atoms, t.1.toAtomsStatics, t.1.is) else .error .assertion

/-! ## Sequences of calls -/

/-- The static vectors of the program. -/
structure Statics where
  mcs : McsStatics
  mcsM : McsMStatics
  atoms : AtomsStatics
  edgesIn : List Bool
  hyperEdgesIn : List Bool

/-- A call of a function with static vectors. -/
inductive Call
  | mcs {n : ℕ} (g : Graph n)
  | mcsM {n : ℕ} (g : Graph n)
  | atoms {n : ℕ} (g : Graph n) (out : Mcs.McsMOutput n)
  | edgesIn {n : ℕ} (g : Graph n) (vs : List (Fin n))
  | hyperEdgesIn {n : ℕ} (h : HyperGraph n) (vs : List (Fin n))

/-- What a call returns. -/
inductive Result
  | order {n : ℕ} (order : List (Fin n))
  | mcsMOutput {n : ℕ} (out : Mcs.McsMOutput n)
  | atoms (atoms : List Mcs.SomeGraph)
  | edges {n : ℕ} (edges : List (Fin n × Fin n))
  | hyperEdges {n : ℕ} (edges : List (List (Fin n)))

/-- A call on the static vectors that the calls before have left. -/
def Call.run (b : Statics) : Call → Except Fault (Result × Statics)
  | .mcs g => do
      let r ← Buffered.mcs g b.mcs
      pure (.order r.1, { b with mcs := r.2 })
  | .mcsM g => do
      let r ← Buffered.mcsM g b.mcsM
      pure (.mcsMOutput r.1, { b with mcsM := r.2 })
  | .atoms g out => do
      let r ← Buffered.atoms g out b.atoms b.edgesIn
      pure (.atoms r.1, { b with atoms := r.2.1, edgesIn := r.2.2 })
  | .edgesIn g vs => do
      let r ← Buffered.edgesIn g vs b.edgesIn
      pure (.edges r.1, { b with edgesIn := r.2 })
  | .hyperEdgesIn h vs => do
      let r ← Buffered.hyperEdgesIn h vs b.hyperEdgesIn
      pure (.hyperEdges r.1, { b with hyperEdgesIn := r.2 })

/-- The results of a sequence of calls. -/
def runAll : List Call → Statics → Except Fault (List Result)
  | [], _ => .ok []
  | c :: calls, b => do
      let r ← c.run b
      let results ← runAll calls r.2
      pure (r.1 :: results)

end Buffered

end Triangulator
