import Triangulator.Model.FixedSize
import Triangulator.Model.McsM

/-!
# Reading graphs and hypergraphs

A translation of `io.cpp`.  A string is a list of characters, and a stream is the
list of its lines.  A failed assertion is `none`.
-/

namespace Triangulator

open Mcs

/-- `std::string`. -/
abbrev Text := List Char

namespace Io

/-- The characters that separate the tokens of a stream. -/
def isSpace (c : Char) : Bool :=
  c = ' ' || c = '\t' || c = '\n' || c = '\x0b' || c = '\x0c' || c = '\r'

/-- `GetTokens`. -/
def getTokens (s : Text) : List Text :=
  (s.splitOnP isSpace).filter fun token => !token.isEmpty

/-- `NumTokens`. -/
def numTokens (s : Text) : ℕ :=
  (getTokens s).length

/-! ## Graphs -/

/-- The local variables of `ReadGraph` that the loop over the lines changes. -/
structure ReadState where
  edges : List (Text × Text)
  dimacs : Bool

/-- One round of the loop of `ReadGraph`. -/
def readLine (s : ReadState) (inputLine : Text) : Option ReadState :=
  if 0 < inputLine.length then
    if inputLine.take 2 = ['p', ' '] ∧ 3 ≤ numTokens inputLine then
      some { edges := [], dimacs := true }
    else if s.dimacs ∧ inputLine.take 2 = ['e', ' '] ∧ numTokens inputLine = 3 then
      match getTokens inputLine with
      | [token, v, u] =>
          if token = ['e'] then some { s with edges := s.edges ++ [(v, u)] } else none
      | _ => none
    else some s
  else none

/-- The graph of the edges between named vertices. -/
def graphOfNames (edges : List (Text × Text)) :
    Option (Graph (StaticSet.initPairs edges).size) :=
  edges.foldlM (fun graph edge =>
      if h : (StaticSet.initPairs edges).rank edge.1 < (StaticSet.initPairs edges).size ∧
          (StaticSet.initPairs edges).rank edge.2 < (StaticSet.initPairs edges).size then
        graph.addEdge ⟨_, h.1⟩ ⟨_, h.2⟩
      else none)
    (Graph.empty _)

/-- `Io::ReadGraph`. -/
def readGraph (input : List Text) : Option SomeGraph := do
  let s ← input.foldlM readLine { edges := [], dimacs := false }
  let graph ← graphOfNames s.edges
  pure ⟨_, graph⟩

/-! ## Hypergraphs -/

/-- A hypergraph together with its number of vertices. -/
abbrev SomeHyperGraph := Σ n, HyperGraph n

/-- The tokens of a line with commas read as blanks. -/
def hyperTokens (inE : Text) : List Text :=
  getTokens (inE.map fun c => if c = ',' then ' ' else c)

/-- The vertex numbers of a hyperedge. -/
def ranks (vertexMap : StaticSet Text) (edge : List Text) : Option (List (Fin vertexMap.size)) :=
  edge.mapM fun v =>
    if h : vertexMap.rank v < vertexMap.size then some ⟨_, h⟩ else none

/-- `Io::ReadHyperGraph`. -/
def readHyperGraph (input : List Text) : Option SomeHyperGraph := do
  let vertexMap := StaticSet.init (input.flatMap hyperTokens)
  let edges := input.map fun inE => sortAndDedup (hyperTokens inE)
  let graph ← edges.foldlM
    (fun (graph : HyperGraph vertexMap.size) edge => do
      let e ← ranks vertexMap edge
      graph.addEdge e)
    (HyperGraph.empty vertexMap.size)
  pure ⟨_, graph⟩

end Io

end Triangulator
