import Triangulator.Model.Mcs

/-!
# Minimal triangulations and atoms

A translation of `McsM` and `Atoms` of `mcs.cpp`.  A bucket of the search is a
list with its top first.
-/

namespace Triangulator

namespace Mcs

variable {n : ℕ}

/-- `McsMOutput`. -/
structure McsMOutput (n : ℕ) where
  fillEdges : List (Fin n × Fin n)
  eliminationOrder : List (Fin n)
  isMaximalCliquePoint : List Bool

/-! ## The search from one vertex -/

/-- The local variables of `McsM` that one search changes: the labels, the reached
vertices, the buckets by label and the fill edges. -/
structure Sweep (n : ℕ) where
  label : Fin n → ℕ
  rc : Fin n → Bool
  reach : ℕ → List (Fin n)
  fill : List (Fin n × Fin n)

/-- The body of the loop over the neighbours `z` of a vertex of bucket `i`. -/
def touch (rm : Fin n → Bool) (x : Fin n) (i : ℕ) (t : Sweep n) (z : Fin n) : Sweep n :=
  if rm z || t.rc z then t
  else if i < t.label z then
    { label := Function.update t.label z (t.label z + 1)
      rc := Function.update t.rc z true
      reach := Function.update t.reach (t.label z) (z :: t.reach (t.label z))
      fill := t.fill ++ [(x, z)] }
  else
    { t with
      rc := Function.update t.rc z true
      reach := Function.update t.reach i (z :: t.reach i) }

/-- The loop that empties bucket `i`, with a bound on its rounds. -/
def drain (g : Graph n) (rm : Fin n → Bool) (x : Fin n) (i : ℕ) :
    ℕ → Sweep n → Option (Sweep n)
  | fuel, t =>
      match t.reach i with
      | [] => some t
      | y :: rest =>
          match fuel with
          | 0 => none
          | fuel + 1 =>
              drain g rm x i fuel
                ((g.adjList y).foldl (touch rm x i)
                  { t with reach := Function.update t.reach i rest })

/-- The body of the first loop over the neighbours of the chosen vertex. -/
def startNeighbor (rm : Fin n → Bool) (t : Sweep n) (y : Fin n) : Sweep n :=
  if rm y then t
  else
    { t with
      rc := Function.update t.rc y true
      reach := Function.update t.reach (t.label y) (y :: t.reach (t.label y)) }

/-- The search from `x`.  Every vertex enters a bucket at most once. -/
def sweep (g : Graph n) (rm : Fin n → Bool) (x : Fin n) (t : Sweep n) : Option (Sweep n) :=
  (List.range n).foldlM (fun t i => drain g rm x i n t)
    ((g.adjList x).foldl (startNeighbor rm)
      { t with rc := Function.update (fun _ => false) x true })

/-! ## The main loop -/

/-- The local variables of `McsM` before a round of the main loop; `order` and
`isMaximalPoint` are filled from their ends. -/
structure McsMState (n : ℕ) where
  label : Fin n → ℕ
  rm : Fin n → Bool
  reach : ℕ → List (Fin n)
  fill : List (Fin n × Fin n)
  order : List (Fin n)
  isMaximalPoint : List Bool
  prevLabel : ℤ

def McsMState.init (n : ℕ) : McsMState n where
  label := fun _ => 0
  rm := fun _ => false
  reach := fun _ => []
  fill := []
  order := []
  isMaximalPoint := []
  prevLabel := -1

/-- The last vertex with the largest label among those not removed.  `none` stands
for the removed vertex `0`, on which the assertion fails. -/
def selectMax (rm : Fin n → Bool) (label : Fin n → ℕ) : Option (Fin n) :=
  ((List.finRange n).foldl
    (fun (p : Option (Fin n) × ℕ) i =>
      if !rm i && decide (p.2 ≤ label i) then (some i, label i) else p)
    (none, 0)).1

/-- The body of the last loop over the neighbours of the chosen vertex. -/
def raiseNeighbor (rm : Fin n → Bool) (label : Fin n → ℕ) (y : Fin n) : Fin n → ℕ :=
  if rm y then label else Function.update label y (label y + 1)

/-- A round of the main loop of `McsM`. -/
def mcsMRound (g : Graph n) (s : McsMState n) : Option (McsMState n) := do
  let x ← selectMax s.rm s.label
  if s.label x < n then
    let rm := Function.update s.rm x true
    let t ← sweep g rm x
      { label := s.label, rc := fun _ => false, reach := s.reach, fill := s.fill }
    some
      { label := (g.adjList x).foldl (raiseNeighbor rm) t.label
        rm := rm
        reach := t.reach
        fill := t.fill
        order := x :: s.order
        isMaximalPoint := decide ((s.label x : ℤ) ≤ s.prevLabel) :: s.isMaximalPoint
        prevLabel := s.label x }
  else none

/-- The main loop of `McsM`. -/
def mcsMLoop (g : Graph n) : ℕ → McsMState n → Option (McsMState n)
  | 0, s => some s
  | it + 1, s => do
      let s' ← mcsMRound g s
      mcsMLoop g it s'

/-- `mcs::McsM`. -/
def mcsM (g : Graph n) : Option (McsMOutput n) := do
  let s ← mcsMLoop g n (McsMState.init n)
  pure
    { fillEdges := s.fill
      eliminationOrder := s.order
      isMaximalCliquePoint := s.isMaximalPoint }

/-! ## Atoms -/

/-- A graph with its number of vertices. -/
abbrev SomeGraph : Type :=
  Σ k, Graph k

/-- `Graph(graph.EdgesIn(vs))`. -/
def inducedGraph (g : Graph n) (vs : List (Fin n)) : Option SomeGraph := do
  let h ← Graph.ofEdges ((g.edgesIn vs).map fun e => ((e.1 : ℕ), (e.2 : ℕ)))
  pure ⟨_, h⟩

/-- The local variables of `Atoms`. -/
structure AtomsState (n : ℕ) where
  rm : Fin n → Bool
  block : Fin n → Bool
  atoms : List SomeGraph

/-- The body of the loop over the elimination order, for the vertex `x` and its mark. -/
def atomsRound (g filled : Graph n) (s : AtomsState n) (p : Fin n × Bool) :
    Option (AtomsState n) :=
  let candClique := (filled.adjList p.1).filter fun nx => !s.rm nx
  let rm := Function.update s.rm p.1 true
  if p.2 && g.isClique candClique then do
    let r := g.findComponentAndMark p.1 (mark s.block candClique)
    let atom ← inducedGraph g (r.2 ++ candClique)
    some
      { rm := rm
        block := candClique.foldl (fun b y => Function.update b y false) r.1
        atoms := s.atoms ++ [atom] }
  else some { s with rm := rm }

/-- The loop over the vertices that are left; the last value counts the components
found. -/
def restRound (g : Graph n) (s : (Fin n → Bool) × List SomeGraph × ℕ) (x : Fin n) :
    Option ((Fin n → Bool) × List SomeGraph × ℕ) :=
  if s.1 x then some s
  else do
    let r := g.findComponentAndMark x s.1
    let atom ← inducedGraph g r.2
    some (r.1, s.2.1 ++ [atom], s.2.2 + 1)

/-- `mcs::Atoms`. -/
def atoms (g : Graph n) (out : McsMOutput n) : Option (List SomeGraph) := do
  let filled ← g.addEdges out.fillEdges
  let s ← (out.eliminationOrder.zip out.isMaximalCliquePoint).foldlM (atomsRound g filled)
    { rm := fun _ => false, block := fun _ => false, atoms := [] }
  let t ← (List.finRange n).foldlM (restRound g) (s.block, s.atoms, 0)
  if t.2.2 = 1 then some t.2.1 else none

end Mcs

end Triangulator
