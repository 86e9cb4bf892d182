import Triangulator.Model.Cardinality
import Triangulator.Model.Graph

/-!
# Enumeration with a SAT solver

A translation of `enumerator.cpp`.  The random number generator, which every enumerator
starts anew, is given by the order in which its shuffles leave a vector.
-/

namespace Triangulator

open AbortM

/-- `std::shuffle` with a new generator, whose later states are known by the lengths of the
vectors that were shuffled, the last one first. -/
structure Shuffle where
  order : ∀ {n : ℕ}, List ℕ → List (Fin n) → List (Fin n)
  perm : ∀ {n : ℕ} (lengths : List ℕ) (l : List (Fin n)), (order lengths l).Perm l

/-- Vectors are left as they are. -/
def Shuffle.none : Shuffle where
  order _ l := l
  perm _ _ := List.Perm.refl _

/-- The data members of `Enumerator`, apart from the solver and the counters of
its statistics. -/
structure Enumerator (n : ℕ) where
  xVar : Fin n → Lit
  cVar : Fin n → Fin n → Lit
  minsepVars : List (List (Fin n) × Lit)
  graph : Graph n
  minsepEncoding : ℕ
  randomGen : List ℕ

namespace Enumerator

variable {n : ℕ}

/-- Writes an entry of a matrix. -/
def setEntry (c : Fin n → Fin n → Lit) (i ii : Fin n) (l : Lit) : Fin n → Fin n → Lit :=
  Function.update c i (Function.update (c i) ii l)

/-! ## The basic encoding -/

/-- The selection variables. -/
def selectionVars (n : ℕ) : SatM (Fin n → Lit) :=
  (List.finRange n).foldlM
    (fun xVar i => do
      let v ← newVar
      freezeVar v
      pure (Function.update xVar i v))
    fun _ => Lit.undef

/-- The connectivity variables. -/
def connectivityVars (g : Graph n) : SatM (Fin n → Fin n → Lit) :=
  (List.finRange n).foldlM
    (fun cVar i => (List.finRange n).foldlM
      (fun cVar ii =>
        if i = ii then pure cVar
        else if i < ii then do
          let l ← (if g.hasEdge i ii then pure .trueLit else newVar)
          pure (setEntry cVar i ii l)
        else do
          assert (cVar ii i).isDef
          pure (setEntry cVar i ii (cVar ii i)))
      cVar)
    fun _ _ => Lit.undef

/-- The basic connectivity implications. -/
def connectivityClauses (g : Graph n) (xVar : Fin n → Lit) (cVar : Fin n → Fin n → Lit) :
    SatM Unit :=
  forM (List.finRange n) fun i => forM (List.finRange n) fun ii =>
    if i = ii then pure ()
    else forM (g.adjList ii) fun iii =>
      when (iii ≠ i) (addClause [-cVar i ii, xVar ii, cVar i iii])

/-- The check that a solution becomes a clique. -/
def cliqueClauses (xVar : Fin n → Lit) (cVar : Fin n → Fin n → Lit) : SatM Unit :=
  forM (List.finRange n) fun i =>
    forM ((List.finRange n).filter fun ii => decide (i < ii)) fun ii =>
      addClause [-xVar i, -xVar ii, cVar i ii]

/-- The check that there is no full component. -/
def fullComponentClauses (minsepEncoding : ℕ) (xVar : Fin n → Lit)
    (cVar : Fin n → Fin n → Lit) : SatM Unit :=
  forM (List.finRange n) fun i => do
    let newClause ← (List.finRange n).foldlM
      (fun newClause ii =>
        if i = ii then pure newClause
        else do
          let v ← newVar
          addClause [xVar ii, -v]
          addClause [-cVar i ii, -v]
          when (minsepEncoding = 5) (addClause [-xVar ii, cVar i ii, v])
          pure (newClause ++ [v]))
      [xVar i]
    addClause newClause

/-- `BuildBasicEncoding`. -/
def buildBasicEncoding (g : Graph n) (minsepEncoding : ℕ) :
    SatM ((Fin n → Lit) × (Fin n → Fin n → Lit)) := do
  let xVar ← selectionVars n
  let cVar ← connectivityVars g
  connectivityClauses g xVar cVar
  cliqueClauses xVar cVar
  fullComponentClauses minsepEncoding xVar cVar
  pure (xVar, cVar)

/-! ## The path length encoding -/

/-- The literal of `cl_var` for a path of length at most `j`. -/
def pathLit (g : Graph n) (clVar : ℕ → Fin n → Fin n → Lit) (j : ℕ) (i ii : Fin n) :
    SatM Lit :=
  if i < ii then
    if g.hasEdge i ii then pure .trueLit
    else if j = 1 then pure .falseLit
    else newVar
  else do
    assert (clVar j ii i).isDef
    pure (clVar j ii i)

/-- The variables for the paths of every length, with the clauses that relate the
two families: `cl_var` for the existence of a path and `f_var` for one that may be
continued. -/
def pathVars (g : Graph n) (xVar : Fin n → Lit) :
    SatM ((ℕ → Fin n → Fin n → Lit) × (ℕ → Fin n → Fin n → Lit)) :=
  (List.range' 1 (n - 1)).foldlM
    (fun s j => (List.finRange n).foldlM
      (fun s i => (List.finRange n).foldlM
        (fun s ii =>
          if i = ii then pure s
          else do
            let l ← pathLit g s.1 j i ii
            let v ← newVar
            addClause [-v, l]
            addClause [-v, -xVar ii]
            pure (Function.update s.1 j (setEntry (s.1 j) i ii l),
              Function.update s.2 j (setEntry (s.2 j) i ii v)))
        s)
      s)
    (fun _ _ _ => .undef, fun _ _ _ => .undef)

/-- A path of some length is one of every larger length. -/
def pathMonoClauses (clVar fVar : ℕ → Fin n → Fin n → Lit) : SatM Unit :=
  forM (List.range' 1 (n - 2)) fun j =>
    forM (List.finRange n) fun i => forM (List.finRange n) fun ii =>
      if i = ii then pure ()
      else do
        when (i < ii) (addClause [-clVar j i ii, clVar (j + 1) i ii])
        addClause [-fVar j i ii, fVar (j + 1) i ii]

/-- A path has a last step. -/
def pathStepClauses (g : Graph n) (clVar fVar : ℕ → Fin n → Fin n → Lit) : SatM Unit :=
  forM (List.range' 2 (n - 2)) fun j =>
    forM (List.finRange n) fun i => forM (List.finRange n) fun ii =>
      if i = ii then pure ()
      else if g.hasEdge i ii then pure ()
      else addClause (-clVar j i ii ::
        ((g.adjList ii).filter fun iii => decide (iii ≠ i)).map fun iii =>
          fVar (j - 1) i iii)

/-- Connected vertices have a path. -/
def pathFinalClauses (cVar : Fin n → Fin n → Lit) (clVar : ℕ → Fin n → Fin n → Lit) :
    SatM Unit :=
  forM (List.finRange n) fun i =>
    forM ((List.finRange n).filter fun ii => decide (i < ii)) fun ii =>
      addClause [-cVar i ii, clVar (n - 1) i ii]

/-- `BuildPathLengthEncoding`. -/
def buildPathLengthEncoding (g : Graph n) (xVar : Fin n → Lit)
    (cVar : Fin n → Fin n → Lit) : SatM Unit := do
  let s ← pathVars g xVar
  pathMonoClauses s.1 s.2
  pathStepClauses g s.1 s.2
  pathFinalClauses cVar s.1

/-- The constructor. -/
def new (g : Graph n) (minsepEncoding : ℕ) : SatM (Enumerator n) := do
  let s ← buildBasicEncoding g minsepEncoding
  when (minsepEncoding = 4) (buildPathLengthEncoding g s.1 s.2)
  pure
    { xVar := s.1
      cVar := s.2
      minsepVars := []
      graph := g
      minsepEncoding := minsepEncoding
      randomGen := [] }

/-! ## Refinement -/

/-- `IsBadSep`: a pair that the solution calls connected is not. -/
def isBadSep (g : Graph n) (separator : List (Fin n)) (cValue : Fin n → Fin n → Bool) :
    Bool :=
  (List.finRange n).any fun i => (List.finRange n).any fun ii =>
    decide (i ≠ ii) && cValue i ii && !g.connectedMatrix separator i ii

/-- The loop that drops the vertices without which the separator is still bad;
the vertices of the first list have been kept. -/
def minimizeSep (bad : List (Fin n) → Bool) : List (Fin n) → List (Fin n) → List (Fin n)
  | minsep, [] => minsep
  | minsep, v :: rest =>
      if bad (minsep ++ rest) then minimizeSep bad minsep rest
      else minimizeSep bad (minsep ++ [v]) rest

/-- The values of the connectivity variables in the solution. -/
def solutionCValue (cVar : Fin n → Fin n → Lit) : SatM (Fin n → Fin n → Bool) :=
  (List.finRange n).foldlM
    (fun cValue i => (List.finRange n).foldlM
      (fun cValue ii =>
        if i = ii then pure cValue
        else do
          let b ← solutionValue (cVar i ii)
          pure (Function.update cValue i (Function.update (cValue i) ii b)))
      cValue)
    fun _ _ => false

/-- A loop over the pairs of components. -/
def forPairs (components : List (List (Fin n)))
    (body : List (Fin n) → List (Fin n) → SatM Unit) : SatM Unit :=
  forM (List.range components.length) fun i =>
    forM (List.range' (i + 1) (components.length - (i + 1))) fun ii =>
      body (components.getD i []) (components.getD ii [])

/-- The variable of a separator, with the clauses of a new one. -/
def minsepVar (e : Enumerator n) (minsep : List (Fin n)) : SatM (Lit × Enumerator n) :=
  ((e.minsepVars.find? fun p => decide (p.1 = minsep)).map (·.2)).elim
    (do
      let v ← newVar
      when (e.minsepEncoding ≠ 0 ∧ e.minsepEncoding ≠ 5) (freezeVar v)
      addClause (v :: minsep.map fun w => -e.xVar w)
      when (e.minsepEncoding = 5) (forM minsep fun w => addClause [-v, e.xVar w])
      pure (v, { e with minsepVars := (minsep, v) :: e.minsepVars }))
    fun v => pure (v, e)

/-- The clause that forbids to connect a pair across a separator. -/
def pairClause (e : Enumerator n) (minsepVar : Lit) (v u : Fin n) : SatM Unit :=
  addClause [-minsepVar, -e.cVar v u]

/-- All pairs of vertices of two components. -/
def allPairs (e : Enumerator n) (minsepVar : Lit) (C D : List (Fin n)) : SatM Unit :=
  forM C fun v => forM D fun u => e.pairClause minsepVar v u

/-- The pairs of two components that are broken in the solution. -/
def brokenPairs (e : Enumerator n) (minsepVar : Lit) (cValue : Fin n → Fin n → Bool)
    (C D : List (Fin n)) : SatM Unit :=
  forM C fun v => forM D fun u =>
    when (cValue v u = true) (e.pairClause minsepVar v u)

/-- All pairs of vertices of two components with a broken pair. -/
def pairsIfBroken (e : Enumerator n) (minsepVar : Lit) (cValue : Fin n → Fin n → Bool)
    (C D : List (Fin n)) : SatM Unit :=
  when ((C.any fun v => D.any fun u => cValue v u) = true) (e.allPairs minsepVar C D)

/-- The first broken pair of two components. -/
def firstBroken (cValue : Fin n → Fin n → Bool) (C D : List (Fin n)) :
    Option (Fin n × Fin n) :=
  (C.flatMap fun v => D.map fun u => (v, u)).find? fun p => cValue p.1 p.2

/-- One random broken pair for every pair of components that has one. -/
def randomPairs (e : Enumerator n) (sh : Shuffle) (minsepVar : Lit)
    (cValue : Fin n → Fin n → Bool) (components : List (List (Fin n))) :
    SatM (Enumerator n) := do
  let s ← (List.range components.length).foldlM
    (fun s i => (List.range' (i + 1) (components.length - (i + 1))).foldlM
      (fun s ii => do
        let C := sh.order s.2 (s.1.getD i [])
        let D := sh.order (C.length :: s.2) (s.1.getD ii [])
        (firstBroken cValue C D).elim (pure ()) fun p => e.pairClause minsepVar p.1 p.2
        pure ((s.1.set i C).set ii D, D.length :: C.length :: s.2))
      s)
    (components, e.randomGen)
  pure { e with randomGen := s.2 }

/-- The clauses added for a separator, by encoding. -/
def separatorClauses (e : Enumerator n) (sh : Shuffle) (minsepVar : Lit)
    (cValue : Fin n → Fin n → Bool) (components : List (List (Fin n))) :
    SatM (Enumerator n) :=
  if e.minsepEncoding = 0 ∨ e.minsepEncoding = 5 then do
    forPairs components (e.allPairs minsepVar)
    pure e
  else if e.minsepEncoding = 1 then do
    forPairs components (e.brokenPairs minsepVar cValue)
    pure e
  else if e.minsepEncoding = 2 then
    e.randomPairs sh minsepVar cValue components
  else if e.minsepEncoding = 3 then do
    forPairs components (e.pairsIfBroken minsepVar cValue)
    pure e
  else abort

/-- `BlockBadSolution`. -/
def blockBadSolution (e : Enumerator n) (sh : Shuffle) (solution : List (Fin n)) :
    SatM (Enumerator n) := do
  let solution := sort solution
  let cValue ← solutionCValue e.cVar
  assert (isBadSep e.graph solution cValue)
  let minsep := minimizeSep (fun sep => isBadSep e.graph sep cValue) [] solution
  let components := e.graph.components minsep
  assert (decide (2 ≤ components.length))
  assert (decide (minsep.Pairwise (· ≤ ·)))
  let r ← e.minsepVar minsep
  r.2.separatorClauses sh r.1 cValue components

/-! ## The search -/

/-- The solution in the model of the last solve call, with the clause that
excludes it. -/
def readSolution (e : Enumerator n) : SatM (List Lit × List (Fin n)) :=
  (List.finRange n).foldlM
    (fun s i => do
      let b ← solutionValue (e.xVar i)
      if b then pure (s.1 ++ [-e.xVar i], s.2 ++ [i])
      else pure (s.1 ++ [e.xVar i], s.2))
    ([], [])

/-- `GetPmc`, with a bound on the rounds of its loop. -/
def getPmc (solver : Solver) (sh : Shuffle) (assumptions : List Lit) (firstCall : Bool) :
    ℕ → Enumerator n → SatM (List (Fin n) × Enumerator n)
  | 0, _ => abort
  | fuel + 1, e => do
      let sat ← solve solver assumptions firstCall
      if sat then do
        let s ← e.readSolution
        let pmc ← ofOption (e.graph.isPmc s.2)
        if pmc then do
          addClause s.1
          pure (s.2, e)
        else do
          let e ← e.blockBadSolution sh s.2
          getPmc solver sh assumptions firstCall fuel e
      else pure ([], e)

/-- `XVars`. -/
def xVars (e : Enumerator n) : List Lit :=
  (List.finRange n).map e.xVar

end Enumerator

end Triangulator
