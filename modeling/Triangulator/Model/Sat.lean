import Triangulator.Program.Abort

/-!
# The interface to the SAT solvers

A translation of `sat_interface.cpp`.  A solver is known by the calls made to it;
what it answers is a function of these calls.  The assertions of the solver
interfaces on the range of a literal are part of the calls.
-/

namespace Triangulator

/-! ## Literals -/

/-- `Lit`: the undefined literal, the two constants, and a variable with a
sign. -/
inductive Lit
  | undef
  | const (b : Bool)
  | var (sign : Bool) (v : ℕ)
  deriving DecidableEq

namespace Lit

def trueLit : Lit := .const true

def falseLit : Lit := .const false

def isDef (l : Lit) : Bool :=
  decide (l ≠ .undef)

def isTrue (l : Lit) : Bool :=
  decide (l = trueLit)

def isFalse (l : Lit) : Bool :=
  decide (l = falseLit)

/-- The operator `-`. -/
def neg : Lit → Lit
  | undef => undef
  | const b => const !b
  | var sign v => var (!sign) v

instance : Neg Lit := ⟨neg⟩

/-- The literal is a variable, and one of the first `N`. -/
def isKnown (N : ℕ) : Lit → Bool
  | var _ v => decide (v < N)
  | _ => false

/-- The value under an assignment. -/
def eval (σ : ℕ → Bool) : Lit → Bool
  | undef => false
  | const b => b
  | var sign v => if sign then σ v else !σ v

end Lit

/-- The loop of `SatHelper::ProcessClause`; `lit_values` holds the literals of
`pro_clause`. -/
def processClauseLoop : List Lit → List Lit → Option (List Lit)
  | [], proClause => some proClause
  | lit :: clause, proClause =>
      if lit.isDef then
        if lit.isTrue then some [Lit.trueLit]
        else if lit.isFalse then processClauseLoop clause proClause
        else if -lit ∈ proClause then some [Lit.trueLit]
        else processClauseLoop clause (proClause ++ [lit])
      else none

/-- `SatHelper::ProcessClause`. -/
def processClause (clause : List Lit) : Option (List Lit) :=
  processClauseLoop clause []

/-! ## Calls and answers -/

/-- A call to a solver; a solve call is kept with its answer. -/
inductive Event
  | newVar
  | addClause (clause : List Lit)
  | freezeVar (lit : Lit)
  | solve (assumptions : List Lit) (allowSimp : Bool) (answer : Option (ℕ → Bool))

/-- The calls made to a solver so far, the last one first. -/
abbrev Trace := List Event

namespace Trace

/-- The number of variables created. -/
def numVars : Trace → ℕ
  | [] => 0
  | .newVar :: t => numVars t + 1
  | _ :: t => numVars t

/-- The clauses added. -/
def clauses : Trace → List (List Lit)
  | [] => []
  | .addClause clause :: t => clause :: clauses t
  | _ :: t => clauses t

/-- The answer to the last solve call. -/
def lastAnswer : Trace → Option (ℕ → Bool)
  | [] => none
  | .solve _ _ answer :: _ => answer
  | _ :: t => lastAnswer t

end Trace

/-- A solver: its answer to a solve call, given all earlier calls. -/
structure Solver where
  answer : Trace → List Lit → Bool → Option (ℕ → Bool)

/-- Programs that use a solver. -/
abbrev SatM := AbortM Trace

open AbortM

def newVar : SatM Lit := do
  let t ← get
  modify (Event.newVar :: ·)
  pure (.var true t.numVars)

def addClause (clause : List Lit) : SatM Unit := do
  let processed ← ofOption (processClause clause)
  let t ← get
  assert (decide (processed = [Lit.trueLit]) || processed.all fun l => l.isKnown t.numVars)
  modify (Event.addClause clause :: ·)

def freezeVar (lit : Lit) : SatM Unit := do
  let t ← get
  assert (lit.isKnown t.numVars)
  modify (Event.freezeVar lit :: ·)

/-- `Solve`: whether the clauses and the assumptions have a model. -/
def solve (solver : Solver) (assumptions : List Lit) (allowSimp : Bool) : SatM Bool := do
  let t ← get
  assert (assumptions.all fun l => l.isKnown t.numVars)
  modify (Event.solve assumptions allowSimp (solver.answer t assumptions allowSimp) :: ·)
  pure (solver.answer t assumptions allowSimp).isSome

/-- `SolutionValue` in the model of the last solve call. -/
def solutionValue (lit : Lit) : SatM Bool := do
  let t ← get
  let σ ← ofOption t.lastAnswer
  assert (lit.isDef && (decide (lit = .const true) || decide (lit = .const false) ||
    lit.isKnown t.numVars))
  pure (lit.eval σ)

end Triangulator
