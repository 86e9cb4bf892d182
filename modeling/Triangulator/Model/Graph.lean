import Triangulator.GraphTheory.Reach

/-!
# The graph class

A translation of `graph.cpp`, `staticset.hpp` and the helpers of `utils.hpp`.
A graph on `n` vertices has the vertices `Fin n`; a vector indexed by vertices
is a function on `Fin n`.  A failed assertion is `none`.
-/

namespace Triangulator

/-! ## Helpers of `utils.hpp` and `staticset.hpp` -/

section Utils

variable {α : Type*} [LinearOrder α]

/-- `std::sort` on a vector of totally ordered values. -/
def sort (l : List α) : List α :=
  l.insertionSort (· ≤ ·)

/-- `utils::SortAndDedup`. -/
def sortAndDedup (l : List α) : List α :=
  (sort l).dedup

/-- `StaticSet`: a sorted vector without repetitions. -/
structure StaticSet (α : Type*) where
  values : List α
  deriving DecidableEq

namespace StaticSet

/-- `StaticSet::Init` on a vector of values. -/
def init (values : List α) : StaticSet α :=
  ⟨sortAndDedup values⟩

/-- `StaticSet::Init` on a vector of pairs. -/
def initPairs (values : List (α × α)) : StaticSet α :=
  init (values.flatMap fun value => [value.1, value.2])

/-- `StaticSet::Rank`: the position of the first element not below `value`. -/
def rank (s : StaticSet α) (value : α) : ℕ :=
  s.values.findIdx fun x => decide (value ≤ x)

def size (s : StaticSet α) : ℕ :=
  s.values.length

end StaticSet

end Utils

/-! ## The graph class -/

/-- Membership in a vertex vector is decided by comparing vertices. -/
instance instLawfulBEqFin (n : ℕ) : LawfulBEq (Fin n) :=
  inferInstance

/-- The data members of `Graph`: the edge counter, the labels of the vertices in
the graph the first ancestor was built from, the adjacency lists and the
adjacency matrix. -/
structure Graph (n : ℕ) where
  m : ℕ
  vertexMap : StaticSet ℕ
  adjList : Fin n → List (Fin n)
  adjMat : Fin n → Fin n → Bool

/-- A vertex bitmap with the entries of `l` set. -/
def mark {n : ℕ} (bits : Fin n → Bool) (l : List (Fin n)) : Fin n → Bool :=
  l.foldl (fun b v => Function.update b v true) bits

namespace Graph

variable {n : ℕ}

/-- `Graph::Graph(int n)`. -/
def empty (n : ℕ) : Graph n where
  m := 0
  vertexMap := StaticSet.init (List.range n)
  adjList := fun _ => []
  adjMat := fun _ _ => false

def hasEdge (g : Graph n) (v u : Fin n) : Bool :=
  g.adjMat v u

/-- `Graph::AddEdge`. -/
def addEdge (g : Graph n) (v u : Fin n) : Option (Graph n) :=
  if g.adjMat v u then some g
  else if v = u then none
  else some
    { g with
      m := g.m + 1
      adjMat := fun a b =>
        if (a = v ∧ b = u) ∨ (a = u ∧ b = v) then true else g.adjMat a b
      adjList := fun a =>
        if a = v then g.adjList a ++ [u]
        else if a = u then g.adjList a ++ [v]
        else g.adjList a }

/-- `Graph::AddEdges`. -/
def addEdges (g : Graph n) (edges : List (Fin n × Fin n)) : Option (Graph n) :=
  edges.foldlM (fun g e => g.addEdge e.1 e.2) g

/-- `Graph::Graph(std::vector<Edge>)`: the vertices are the endpoints of the
edges, in increasing order. -/
def ofEdges (edges : List (ℕ × ℕ)) :
    Option (Graph (StaticSet.initPairs edges).size) :=
  edges.foldlM (fun g e =>
      if h : (StaticSet.initPairs edges).rank e.1 < (StaticSet.initPairs edges).size ∧
          (StaticSet.initPairs edges).rank e.2 < (StaticSet.initPairs edges).size then
        g.addEdge ⟨_, h.1⟩ ⟨_, h.2⟩
      else none)
    { m := 0
      vertexMap := StaticSet.initPairs edges
      adjList := fun _ => []
      adjMat := fun _ _ => false }

/-- The swap-and-pop removal of one occurrence of `u` from an adjacency list. -/
def swapRemove (l : List (Fin n)) (u : Fin n) : List (Fin n) × ℕ :=
  if u ∈ l then
    ((l.set (l.idxOf u) (l.getLast?.getD u)).dropLast, 1)
  else (l, 0)

/-- `Graph::RemoveEdge`. -/
def removeEdge (g : Graph n) (v u : Fin n) : Option (Graph n) :=
  if g.adjMat v u && g.adjMat u v then
    let lv := swapRemove (g.adjList v) u
    let g' : Graph n :=
      { g with
        m := g.m - 1
        adjMat := fun a b =>
          if (a = v ∧ b = u) ∨ (a = u ∧ b = v) then false else g.adjMat a b
        adjList := Function.update g.adjList v lv.1 }
    let lu := swapRemove (g'.adjList u) v
    if lv.2 + lu.2 = 2 then
      some { g' with adjList := Function.update g'.adjList u lu.1 }
    else none
  else none

/-- `Graph::Edges`. -/
def edges (g : Graph n) : List (Fin n × Fin n) :=
  (List.finRange n).flatMap fun i =>
    ((g.adjList i).filter fun a => decide (i < a)).map fun a => (i, a)

/-- `Graph::MinDegree`. -/
def minDegree (g : Graph n) : ℤ :=
  (List.finRange n).foldl
    (fun mdg i => min mdg (g.adjList i).length) ((n : ℤ) - 1)

/-- `Graph::Dfs`, with a bound on the recursion depth. -/
def dfs (g : Graph n) : ℕ → Fin n → (Fin n → Bool) × List (Fin n) →
    (Fin n → Bool) × List (Fin n)
  | 0, _, s => s
  | fuel + 1, v, s =>
      (g.adjList v).foldl
        (fun s nv => if s.1 nv then s else g.dfs fuel nv s)
        (Function.update s.1 v true, s.2 ++ [v])

/-- `Graph::FindComponentAndMark`: the new bitmap and the component.  The
recursion never nests deeper than the number of vertices. -/
def findComponentAndMark (g : Graph n) (v : Fin n) (block : Fin n → Bool) :
    (Fin n → Bool) × List (Fin n) :=
  g.dfs n v (block, [])

/-- `Graph::Components`. -/
def components (g : Graph n) (separator : List (Fin n)) : List (List (Fin n)) :=
  ((List.finRange n).foldl
    (fun (s : (Fin n → Bool) × List (List (Fin n))) i =>
      if s.1 i then s
      else
        let r := g.findComponentAndMark i s.1
        (r.1, s.2 ++ [r.2]))
    (mark (fun _ => false) separator, [])).2

/-- `Graph::Neighbors` of a vertex list, with its two size-dependent cases. -/
def neighbors (g : Graph n) (vs : List (Fin n)) : List (Fin n) :=
  let sum := (vs.map fun v => (g.adjList v).length).sum
  if n / 4 ≤ sum then
    let nbs := mark (fun _ => false) (vs.flatMap g.adjList)
    let nbs := vs.foldl (fun b v => Function.update b v false) nbs
    (List.finRange n).filter fun i => nbs i
  else
    (sortAndDedup (vs.flatMap g.adjList)).filter fun v => decide (v ∉ vs)

/-- `Graph::EdgesIn`. -/
def edgesIn (g : Graph n) (vs : List (Fin n)) : List (Fin n × Fin n) :=
  let is := mark (fun _ => false) vs
  vs.flatMap fun v =>
    if (g.adjList v).length ≤ vs.length then
      ((g.adjList v).filter fun nv => is nv && decide (v < nv)).map fun nv => (v, nv)
    else
      (vs.filter fun nv => g.adjMat v nv && decide (v < nv)).map fun nv => (v, nv)

/-- `Graph::IsConnectedOrIsolated`. -/
def isConnectedOrIsolated (g : Graph n) : Bool :=
  decide (((g.components []).countP fun c => decide (1 < c.length)) ≤ 1)

/-- `Graph::ConnectedMatrix`. -/
def connectedMatrix (g : Graph n) (separator : List (Fin n)) :
    Fin n → Fin n → Bool :=
  (g.components separator).foldl
    (fun connected component =>
      let component := component ++ g.neighbors component
      fun v u =>
        if v ∈ component ∧ u ∈ component then true else connected v u)
    g.adjMat

/-- The main loop of `Graph::IsPmc` over the vertices. -/
def isPmcLoop (g : Graph n) (pmc : List (Fin n)) (connected : Fin n → Fin n → Bool)
    (inPmc : Fin n → Bool) : List (Fin n) → Option Bool
  | [] => some true
  | i :: is =>
      if inPmc i then
        if pmc.any fun v => decide (i ≠ v) && !connected i v && !g.adjMat i v then
          some false
        else g.isPmcLoop pmc connected inPmc is
      else
        let connectedTo :=
          (List.finRange n).countP fun j => connected i j && inPmc j
        if connectedTo ≤ pmc.length then
          if connectedTo = pmc.length then some false
          else g.isPmcLoop pmc connected inPmc is
        else none

/-- `Graph::IsPmc`. -/
def isPmc (g : Graph n) (pmc : List (Fin n)) : Option Bool :=
  g.isPmcLoop pmc (g.connectedMatrix pmc) (mark (fun _ => false) pmc)
    (List.finRange n)

/-- `Graph::IsClique`. -/
def isClique (g : Graph n) : List (Fin n) → Bool
  | [] => true
  | v :: vs => vs.all (fun u => g.adjMat v u) && g.isClique vs

/-- `Graph::MapBack` of a vertex. -/
def mapBack (g : Graph n) (v : Fin n) : ℕ :=
  g.vertexMap.values.getD v 0

/-- `Graph::InheritMap`. -/
def inheritMap {k : ℕ} (g : Graph n) (parent : Graph k) : Graph n :=
  { g with
    vertexMap := StaticSet.init
      (g.vertexMap.values.map fun v => parent.vertexMap.values.getD v 0) }

end Graph

end Triangulator
