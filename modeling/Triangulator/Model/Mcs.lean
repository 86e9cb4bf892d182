import Triangulator.Model.Graph

/-!
# Maximum cardinality search

A translation of `Mcs` and `Treewidth` of `mcs.cpp`.  A stack of the search is a
list with its top first.
-/

namespace Triangulator

namespace Mcs

variable {n : ℕ}

/-- The local variables of `Mcs`: the number of removed neighbours of every
vertex, the removed vertices, the stacks by label, which may hold outdated
entries, and a bound on the labels. -/
structure State (n : ℕ) where
  label : Fin n → ℕ
  rm : Fin n → Bool
  labels : ℕ → List (Fin n)
  maxLabel : ℕ

/-- The state before the first round. -/
def State.init (n : ℕ) : State n where
  label := fun _ => 0
  rm := fun _ => false
  labels := fun k => if k = 0 then (List.finRange n).reverse else []
  maxLabel := 0

/-- The rounds that lower `max_label` past exhausted stacks and pop removed
vertices, up to the first vertex that is not removed.  `none` is an access below
the lowest stack. -/
def popMax (rm : Fin n → Bool) :
    ℕ → (ℕ → List (Fin n)) → Option (Fin n × ℕ × (ℕ → List (Fin n)))
  | 0, labels =>
      match (labels 0).dropWhile rm with
      | x :: rest => some (x, 0, Function.update labels 0 rest)
      | [] => none
  | k + 1, labels =>
      match (labels (k + 1)).dropWhile rm with
      | x :: rest => some (x, k + 1, Function.update labels (k + 1) rest)
      | [] => popMax rm k (Function.update labels (k + 1) [])

/-- The body of the loop over the neighbours of the chosen vertex. -/
def visitNeighbor (s : State n) (nx : Fin n) : State n :=
  if s.rm nx then s
  else
    { s with
      label := Function.update s.label nx (s.label nx + 1)
      labels := Function.update s.labels (s.label nx + 1)
        (nx :: s.labels (s.label nx + 1))
      maxLabel := max s.maxLabel (s.label nx + 1) }

/-- What happens to a chosen vertex. -/
def visit (g : Graph n) (s : State n) (x : Fin n) : State n :=
  let s := (g.adjList x).foldl visitNeighbor s
  { s with rm := Function.update s.rm x true }

/-- The main loop of `Mcs`: `order` is filled from its end. -/
def loop (g : Graph n) : ℕ → State n → List (Fin n) → Option (List (Fin n))
  | 0, _, order => some order
  | it + 1, s, order => do
      let p ← popMax s.rm s.maxLabel s.labels
      loop g it (visit g { s with maxLabel := p.2.1, labels := p.2.2 } p.1)
        (p.1 :: order)

/-- `mcs::Mcs`. -/
def mcs (g : Graph n) : Option (List (Fin n)) :=
  loop g n (State.init n) []

/-- `utils::PermInverse`. -/
def permInverse (perm : List (Fin n)) : Fin n → ℕ :=
  perm.zipIdx.foldl (fun ret p => Function.update ret p.1 p.2) fun _ => 0

/-- `mcs::Treewidth`. -/
def treewidth (g : Graph n) : Option ℤ :=
  if g.m = 0 then some 0
  else do
    let order ← mcs g
    let invOrder := permInverse order
    order.zipIdx.foldlM
      (fun tw p =>
        let clq := (g.adjList p.1).filter fun nx => decide (p.2 < invOrder nx)
        if g.isClique clq then some (max tw clq.length) else none) 0

end Mcs

end Triangulator
