import Triangulator.Model.Mcs

/-!
# The combinatorial enumeration of potential maximal cliques

A translation of `comb_enum.cpp`.  A failed assertion is `none`, and a search
that would nest deeper than the number of vertices fails too.
-/

namespace Triangulator

namespace CombEnumerator

variable {n : ℕ}

/-! ## Searches that stamp the separator -/

/-- What a search does with a neighbour: unvisited vertices (value `0`) are
visited, and `touch` gives the new value of a separator vertex that is to be
stamped.  The second component of the state counts the stamps. -/
def stampNeighbor (touch : ℕ → Option ℕ)
    (visit : Fin n → (Fin n → ℕ) × ℕ → Option ((Fin n → ℕ) × ℕ))
    (s : (Fin n → ℕ) × ℕ) (nx : Fin n) : Option ((Fin n → ℕ) × ℕ) :=
  if s.1 nx = 0 then visit nx s
  else
    match touch (s.1 nx) with
    | some value => some (Function.update s.1 nx value, s.2 + 1)
    | none => some s

/-- The recursion of `dfs1` and `dfs2`: a visited vertex gets the value `1`. -/
def stampDfs (g : Graph n) (touch : ℕ → Option ℕ) :
    ℕ → Fin n → (Fin n → ℕ) × ℕ → Option ((Fin n → ℕ) × ℕ)
  | 0, _, _ => none
  | fuel + 1, x, s =>
      if s.1 x = 0 then
        (g.adjList x).foldlM (stampNeighbor touch (stampDfs g touch fuel))
          (Function.update s.1 x 1, s.2)
      else none

/-- `dfs2`: separator vertices have the value `2` and are stamped with `3`. -/
def dfs2 (g : Graph n) (x : Fin n) (u : Fin n → ℕ) : Option (Fin n → ℕ) :=
  (stampDfs g (fun value => if value = 2 then some 3 else none) n x (u, 0)).map (·.1)

/-- `dfs1`: separator vertices have a value from `2` to `it - 1` and are stamped
with `it`. -/
def dfs1 (g : Graph n) (x : Fin n) (u : Fin n → ℕ) (it : ℕ) :
    Option ((Fin n → ℕ) × ℕ) :=
  stampDfs g (fun value => if 1 < value ∧ value < it then some it else none) n x (u, 0)

/-- A vector of zeros with the value `value` at the vertices of `vs`. -/
def fillAt (vs : List (Fin n)) (value : ℕ) : Fin n → ℕ :=
  vs.foldl (fun u v => Function.update u v value) fun _ => 0

/-- `extend2`. -/
def extend2 (g : Graph n) (pmc : List (Fin n)) (x : Fin n) : Option Bool := do
  let u ← dfs2 g x (fillAt pmc 2)
  pure (pmc.all fun v => decide (u v = 3))

/-- The loop of `HasFullComponent` over the vertices. -/
def fullComponentLoop (g : Graph n) (sep : List (Fin n)) :
    List (Fin n) → (Fin n → ℕ) → ℕ → Option Bool
  | [], _, _ => some false
  | i :: is, u, it =>
      if u i = 0 then do
        let r ← dfs1 g i u (it + 1)
        if r.2 ≤ sep.length then
          if r.2 = sep.length then pure true
          else fullComponentLoop g sep is r.1 (it + 1)
        else none
      else fullComponentLoop g sep is u it

/-- `HasFullComponent`. -/
def hasFullComponent (g : Graph n) (sep : List (Fin n)) : Option Bool :=
  fullComponentLoop g sep (List.finRange n) (fillAt sep 2) 2

/-- The loop of `IsPmc` over the vertices of the candidate. -/
def isPmcLoop (g : Graph n) (pmc : List (Fin n)) : List (Fin n) → Option Bool
  | [] => some true
  | x :: xs => do
      let u ← dfs2 g x (fillAt (pmc.filter fun y => decide (y ≠ x)) 2)
      if pmc.all fun y => decide (y = x) || decide (u y = 3) then isPmcLoop g pmc xs
      else pure false

/-- `IsPmc`. -/
def isPmc (g : Graph n) (pmc : List (Fin n)) : Option Bool := do
  if ← hasFullComponent g pmc then pure false else isPmcLoop g pmc pmc

/-! ## One more vertex -/

/-- The part of `OneMoreVertex` for one potential maximal clique of the old
graph. -/
def extendPmc (g : Graph n) (x : Fin n) (newPmcs : List (List (Fin n)))
    (pmc : List (Fin n)) : Option (List (List (Fin n))) := do
  if ← hasFullComponent g pmc then
    if ← extend2 g pmc x then pure (newPmcs ++ [pmc ++ [x]]) else pure newPmcs
  else pure (newPmcs ++ [pmc])

/-- The candidate built from a separator, a component and a second separator. -/
def candidate (minsep minsep2 c : List (Fin n)) : List (Fin n) :=
  minsep ++ minsep2.filter fun y => decide (y ∈ c) && decide (y ∉ minsep)

/-- The loops over the second separator and the components: the cliques found and
the candidates tried. -/
def tryCandidates (g : Graph n) (minsep : List (Fin n))
    (pairs : List (List (Fin n) × List (Fin n)))
    (s : List (List (Fin n)) × List (List (Fin n))) :
    Option (List (List (Fin n)) × List (List (Fin n))) :=
  pairs.foldlM
    (fun s p =>
      let npmc := candidate minsep p.1 p.2
      if minsep.length < npmc.length then
        let npmc := sort npmc
        if npmc ∈ s.2 then some s
        else do
          if ← isPmc g npmc then pure (s.1 ++ [npmc], npmc :: s.2)
          else pure (s.1, npmc :: s.2)
      else some s)
    s

/-- The separator extended by `x`. -/
def extendMinsep (g : Graph n) (x : Fin n) (newPmcs : List (List (Fin n)))
    (minsep : List (Fin n)) : Option (List (List (Fin n))) := do
  if ← extend2 g minsep x then
    if ← hasFullComponent g (minsep ++ [x]) then pure newPmcs
    else pure (newPmcs ++ [minsep ++ [x]])
  else pure newPmcs

/-- The local variables of the loop over the separators: the cliques found, the
rest of the old separators and the candidates tried. -/
structure MinsepState (n : ℕ) where
  newPmcs : List (List (Fin n))
  oldMinseps : List (List (Fin n))
  tried : List (List (Fin n))

/-- The body of the loop of `OneMoreVertex` over the new separators; `i2` points
to the head of `oldMinseps`. -/
def processMinsep (g : Graph n) (newMinseps : List (List (Fin n))) (x : Fin n)
    (s : MinsepState n) (minsep : List (Fin n)) : Option (MinsepState n) :=
  if x ∈ minsep then some s
  else do
    let newPmcs ← extendMinsep g x s.newPmcs minsep
    let oldMinseps := s.oldMinseps.dropWhile fun old => decide (old < minsep)
    if oldMinseps.head? = some minsep then pure ⟨newPmcs, oldMinseps, s.tried⟩
    else
      let cs := (g.components minsep).map sort
      if 2 ≤ cs.length then
        let r ← tryCandidates g minsep
          (newMinseps.flatMap fun minsep2 => cs.map fun c => (minsep2, c))
          (newPmcs, s.tried)
        pure ⟨r.1, oldMinseps, r.2⟩
      else none

/-- `OneMoreVertex`. -/
def oneMoreVertex (g : Graph n) (pmcs minseps newMinseps : List (List (Fin n)))
    (x : Fin n) : Option (List (List (Fin n))) := do
  let newPmcs ← pmcs.foldlM (extendPmc g x) []
  let s ← newMinseps.foldlM (processMinsep g newMinseps x) ⟨newPmcs, minseps, []⟩
  pure s.newPmcs

/-! ## Minimal separators -/

/-- The neighbourhoods of the components outside `block` that are not yet listed
are appended.  The set `ff` of the source holds the elements of `minseps`. -/
def addSeparators (g : Graph n) (minseps : List (List (Fin n)))
    (block : List (Fin n)) : List (List (Fin n)) :=
  (g.components block).foldl
    (fun minseps c =>
      let nbs := sort (g.neighbors c)
      if nbs ∈ minseps then minseps else minseps ++ [nbs])
    minseps

/-- The loop of `FindMinSeps` over the growing list, with a bound on the number of
rounds. -/
def findMinSepsLoop (g : Graph n) (ub : ℤ) : ℕ → ℕ → List (List (Fin n)) →
    Option (List (List (Fin n)))
  | fuel, i, minseps =>
      match minseps[i]? with
      | none => some minseps
      | some minsep =>
          if ub ≠ -1 ∧ ub ≤ minseps.length then some minseps
          else
            match fuel with
            | 0 => none
            | fuel + 1 =>
                findMinSepsLoop g ub fuel (i + 1)
                  (minsep.foldl
                    (fun minseps x => addSeparators g minseps (minsep ++ g.adjList x))
                    minseps)

/-- `FindMinSeps`.  No more rounds are needed than there are vertex sets. -/
def findMinSeps (g : Graph n) (ub : ℤ) : Option (List (List (Fin n))) := do
  let start := (List.finRange n).foldl
    (fun minseps i =>
      if (g.adjList i).isEmpty then minseps
      else addSeparators g minseps (g.adjList i ++ [i]))
    []
  let minseps ← findMinSepsLoop g ub (2 ^ n) 0 start
  pure (sort minseps)

/-! ## The enumeration -/

/-- The local variables of the main loop of `Pmcs`. -/
structure EnumState (n : ℕ) where
  graph : Graph n
  pmcs : List (List (Fin n))
  minseps : List (List (Fin n))

/-- The body of the main loop of `Pmcs` for the vertex `x = order[i]`. -/
def addVertex (g : Graph n) (ord : Fin n → ℕ) (s : EnumState n) (x : Fin n) :
    Option (EnumState n) := do
  let newGraph ← s.graph.addEdges
    (((g.adjList x).filter fun nx => decide (ord nx < ord x)).map fun nx => (nx, x))
  if newGraph.isConnectedOrIsolated then
    let newMinseps ← findMinSeps newGraph (-1)
    let pmcs ← oneMoreVertex newGraph s.pmcs s.minseps newMinseps x
    pure ⟨newGraph, sortAndDedup (pmcs.map sort), newMinseps⟩
  else none

/-- `Pmcs`. -/
def pmcs (g : Graph n) : Option (List (List (Fin n))) :=
  if n = 0 then some []
  else if g.isConnectedOrIsolated then do
    let order ← Mcs.mcs g
    match order.reverse with
    | [] => none
    | x :: rest => do
        let ord := Mcs.permInverse (x :: rest)
        let s ← rest.foldlM (addVertex g ord) ⟨Graph.empty n, [[x]], []⟩
        pure s.pmcs
  else none

end CombEnumerator

end Triangulator
