import Triangulator.Model.Io
import Triangulator.Model.Sat

/-!
# The classes of SAT solvers

A translation of `sat_interface.cpp`, of the five classes derived from `SatInterface`, and of
the function `SatSolver` of `solver.cpp`.  The solvers themselves are libraries: what a
library returns is a function of all earlier calls to it, the last one first.  `abs` of a
literal is `Int.natAbs`; the counters of clauses, which are only printed, are left out.
-/

namespace Triangulator

open AbortM

/-! ## Literals -/

/-- `Lit`, by its data member. -/
structure IntLit where
  value : ℤ
  deriving DecidableEq

namespace IntLit

/-- The largest `int`. -/
def kTrueVal : ℤ := 2 ^ 31 - 1

def trueLit : IntLit := ⟨kTrueVal⟩

def falseLit : IntLit := ⟨-kTrueVal⟩

def isDef (l : IntLit) : Bool :=
  decide (l.value ≠ 0)

def isTrue (l : IntLit) : Bool :=
  decide (l.value = kTrueVal)

def isFalse (l : IntLit) : Bool :=
  decide (l.value = -kTrueVal)

instance : Neg IntLit := ⟨fun l => ⟨-l.value⟩⟩

/-- `CreateLit` of a size, which becomes an `int`. -/
def create (size : ℕ) : IntLit := ⟨Int.bmod size (2 ^ 32)⟩

/-- The loop of `SatHelper::ProcessClause`. -/
def processClauseLoop : List IntLit → List IntLit → Finset ℤ → Option (List IntLit)
  | [], proClause, _ => some proClause
  | lit :: clause, proClause, litValues =>
      if lit.isDef then
        if lit.isTrue then some [trueLit]
        else if lit.isFalse then processClauseLoop clause proClause litValues
        else if -lit.value ∈ litValues then some [trueLit]
        else processClauseLoop clause (proClause ++ [lit]) (insert lit.value litValues)
      else none

/-- `SatHelper::ProcessClause`. -/
def processClause (clause : List IntLit) : Option (List IntLit) :=
  processClauseLoop clause [] ∅

/-- The check for the clause that stands for a true one. -/
def isTautology (clause : List IntLit) : Bool :=
  decide (clause.length = 1) && clause.all isTrue

/-- An `int` that is compared with a size. -/
def toSize (x : ℤ) : ℕ := (x % 2 ^ 64).toNat

end IntLit

/-- The virtual functions of `SatInterface`, on the data members of a class. -/
structure SatInterface where
  State : Type
  init : State
  newVar : AbortM State IntLit
  addClause : List IntLit → AbortM State Unit
  solutionValue : IntLit → AbortM State Bool
  solve : List IntLit → Bool → AbortM State Bool
  freezeVar : IntLit → AbortM State Unit

/-! ## The libraries -/

/-- A literal of the libraries, which is made of a variable and the sign of a negation. -/
structure RawLit where
  var : ℕ
  sign : Bool
  deriving DecidableEq

/-- `lbool`. -/
inductive LBool
  | lTrue
  | lFalse
  | lUndef
  deriving DecidableEq

/-- `toInt` of an `lbool`. -/
def LBool.toInt : LBool → ℕ
  | lTrue => 0
  | lFalse => 1
  | lUndef => 2

/-- A call to a `SimpSolver`. -/
inductive SimpCall
  | newVar
  | addClause (ps : List RawLit)
  | setFrozen (v : ℕ) (b : Bool)
  | solve (assumps : List RawLit) (doSimp turnOffSimp : Bool)

/-- The next variable. -/
def SimpCall.numVars : List SimpCall → ℕ
  | [] => 0
  | .newVar :: calls => numVars calls + 1
  | _ :: calls => numVars calls

/-- A class `SimpSolver`: the model that `solve` finds. -/
structure SimpSolver where
  answer : List SimpCall → List RawLit → Bool → Bool → Option (ℕ → LBool)

/-- A call to a `CMSat::SATSolver`. -/
inductive CMSatCall
  | newVar
  | addClause (lits : List RawLit)
  | solve (assumptions : List RawLit)

/-- The class `CMSat::SATSolver`: what `solve` returns, and then `get_model`. -/
structure CMSat where
  answer : List CMSatCall → List RawLit → LBool × (ℕ → LBool)

/-- A call to a solver through `ipasir.h`. -/
inductive IpasirCall
  | add (litOrZero : ℤ)
  | assume (lit : ℤ)
  | solve

/-- A library with the functions of `ipasir.h`: what `ipasir_solve` returns, and then
`ipasir_val`. -/
structure Ipasir where
  answer : List IpasirCall → ℤ × (ℤ → ℤ)

/-- The libraries that the program is linked to. -/
structure Libraries where
  minisat : SimpSolver
  glucose : SimpSolver
  mapleglucose : SimpSolver
  cryptominisat : CMSat
  ipasir : Ipasir

/-! ## The classes over a `SimpSolver` -/

/-- The data members of `MinisatInterface`, `GlucoseInterface` and `MapleGlucoseInterface`:
the calls made to the library stand for its object, and `model` is its last model. -/
structure SimpInterface where
  vars : List ℕ
  preprocess : Bool
  calls : List SimpCall
  model : Option (ℕ → LBool)

namespace SimpInterface

/-- The literal of the library in `AddClause` and `Solve`. -/
def libraryLit (s : SimpInterface) (lit : IntLit) : Option RawLit :=
  if lit.value ≠ 0 ∧ lit.value.natAbs ≤ s.vars.length then
    (s.vars[lit.value.natAbs - 1]?).map fun v => ⟨v, decide (0 < lit.value)⟩
  else none

def newVar : AbortM SimpInterface IntLit := do
  modify fun s =>
    { s with vars := s.vars ++ [SimpCall.numVars s.calls], calls := .newVar :: s.calls }
  let s ← get
  pure (IntLit.create s.vars.length)

def addClause (clause : List IntLit) : AbortM SimpInterface Unit := do
  let clause ← ofOption (IntLit.processClause clause)
  if IntLit.isTautology clause then pure ()
  else do
    let s ← get
    let ps ← ofOption (clause.mapM s.libraryLit)
    modify fun s => { s with calls := .addClause ps :: s.calls }

/-- The second assertion is `abs` of a comparison with a size. -/
def solutionValue (lit : IntLit) : AbortM SimpInterface Bool := do
  assert lit.isDef
  if lit.isTrue then pure true
  else if lit.isFalse then pure false
  else do
    let s ← get
    assert (decide (lit.value ≠ 0) && decide (IntLit.toSize lit.value ≤ s.vars.length))
    let v ← ofOption s.vars[lit.value.natAbs - 1]?
    let model ← ofOption s.model
    let solutionValue := decide ((model v).toInt = 1)
    pure (if 0 < lit.value then solutionValue else !solutionValue)

def freezeVar (lit : IntLit) : AbortM SimpInterface Unit := do
  let s ← get
  if s.preprocess then do
    assert (decide (lit.value.natAbs ≠ 0) && decide (lit.value.natAbs ≤ s.vars.length))
    let v ← ofOption s.vars[lit.value.natAbs - 1]?
    modify fun s => { s with calls := .setFrozen v true :: s.calls }
  else pure ()

def solve (library : SimpSolver) (assumptions : List IntLit) (allowSimp : Bool) :
    AbortM SimpInterface Bool := do
  let s ← get
  let allowSimp := s.preprocess && allowSimp
  let assumps ← ofOption (assumptions.mapM s.libraryLit)
  let answer := library.answer s.calls assumps allowSimp (!allowSimp)
  modify fun s =>
    { s with calls := .solve assumps allowSimp (!allowSimp) :: s.calls, model := answer }
  pure answer.isSome

/-- An object of one of the three classes. -/
def new (library : SimpSolver) (preprocess : Bool) : SatInterface where
  State := SimpInterface
  init := ⟨[], preprocess, [], none⟩
  newVar := newVar
  addClause := addClause
  solutionValue := solutionValue
  solve := solve library
  freezeVar := freezeVar

end SimpInterface

/-! ## `CryptominisatInterface` -/

/-- The data members of `CryptominisatInterface`. -/
structure CryptominisatInterface where
  numVars : ℤ
  calls : List CMSatCall
  model : Option (ℕ → LBool)

namespace CryptominisatInterface

/-- The literal of the library in `AddClause` and `Solve`. -/
def libraryLit (s : CryptominisatInterface) (lit : IntLit) : Option RawLit :=
  if lit.value ≠ 0 ∧ lit.value.natAbs ≤ s.numVars then
    some ⟨lit.value.natAbs - 1, !decide (0 < lit.value)⟩
  else none

def newVar : AbortM CryptominisatInterface IntLit := do
  modify fun s => { s with numVars := s.numVars + 1, calls := .newVar :: s.calls }
  let s ← get
  pure ⟨s.numVars⟩

def addClause (clause : List IntLit) : AbortM CryptominisatInterface Unit := do
  let clause ← ofOption (IntLit.processClause clause)
  if IntLit.isTautology clause then pure ()
  else do
    let s ← get
    let lits ← ofOption (clause.mapM s.libraryLit)
    modify fun s => { s with calls := .addClause lits :: s.calls }

def solutionValue (lit : IntLit) : AbortM CryptominisatInterface Bool := do
  assert lit.isDef
  if lit.isTrue then pure true
  else if lit.isFalse then pure false
  else do
    let s ← get
    assert (decide (lit.value ≠ 0) && decide (lit.value.natAbs ≤ s.numVars))
    let model ← ofOption s.model
    let solutionValue := decide (model (lit.value.natAbs - 1) = .lTrue)
    pure (if 0 < lit.value then solutionValue else !solutionValue)

def freezeVar (_ : IntLit) : AbortM CryptominisatInterface Unit :=
  pure ()

def solve (library : CMSat) (assumptions : List IntLit) (_ : Bool) :
    AbortM CryptominisatInterface Bool := do
  let s ← get
  let lits ← ofOption (assumptions.mapM s.libraryLit)
  let answer := library.answer s.calls lits
  modify fun s => { s with calls := .solve lits :: s.calls, model := some answer.2 }
  pure (decide (answer.1 = .lTrue))

/-- An object of the class. -/
def new (library : CMSat) : SatInterface where
  State := CryptominisatInterface
  init := ⟨0, [], none⟩
  newVar := newVar
  addClause := addClause
  solutionValue := solutionValue
  solve := solve library
  freezeVar := freezeVar

end CryptominisatInterface

/-! ## `IpasirInterface` -/

/-- The states of `IpasirInterface`. -/
inductive IpasirState
  | kInput
  | kSat
  | kUnsat
  deriving DecidableEq

/-- The data members of `IpasirInterface`. -/
structure IpasirInterface where
  numVars : ℤ
  state : IpasirState
  calls : List IpasirCall
  val : Option (ℤ → ℤ)

namespace IpasirInterface

def newVar : AbortM IpasirInterface IntLit := do
  modify fun s => { s with numVars := s.numVars + 1 }
  let s ← get
  pure ⟨s.numVars⟩

def addClause (clause : List IntLit) : AbortM IpasirInterface Unit := do
  let clause ← ofOption (IntLit.processClause clause)
  if IntLit.isTautology clause then pure ()
  else do
    forM clause fun lit => modify fun s => { s with calls := .add lit.value :: s.calls }
    modify fun s => { s with calls := .add 0 :: s.calls, state := .kInput }

/-- The last assertion is `abs` of a comparison. -/
def solutionValue (lit : IntLit) : AbortM IpasirInterface Bool := do
  let s ← get
  assert (decide (s.state = .kSat))
  assert lit.isDef
  if lit.isTrue then pure true
  else if lit.isFalse then pure false
  else do
    assert (decide (lit.value ≠ 0) && decide (lit.value ≤ s.numVars))
    let val ← ofOption s.val
    let solutionValue := decide (val lit.value.natAbs = lit.value.natAbs)
    pure (if 0 < lit.value then solutionValue else !solutionValue)

def freezeVar (_ : IntLit) : AbortM IpasirInterface Unit :=
  pure ()

def solve (library : Ipasir) (assumptions : List IntLit) (_ : Bool) :
    AbortM IpasirInterface Bool := do
  forM assumptions fun lit => modify fun s => { s with calls := .assume lit.value :: s.calls }
  let s ← get
  let answer := library.answer s.calls
  modify fun s => { s with calls := .solve :: s.calls, val := some answer.2 }
  assert (decide (answer.1 = 10) || decide (answer.1 = 20))
  if answer.1 = 10 then do
    modify fun s => { s with state := .kSat }
    pure true
  else do
    modify fun s => { s with state := .kUnsat }
    pure false

/-- An object of the class. -/
def new (library : Ipasir) : SatInterface where
  State := IpasirInterface
  init := ⟨0, .kInput, [], none⟩
  newVar := newVar
  addClause := addClause
  solutionValue := solutionValue
  solve := solve library
  freezeVar := freezeVar

end IpasirInterface

/-! ## The choice of a class -/

def MinisatInterface.new (libraries : Libraries) (preprocess : Bool) : SatInterface :=
  SimpInterface.new libraries.minisat preprocess

def GlucoseInterface.new (libraries : Libraries) (preprocess : Bool) : SatInterface :=
  SimpInterface.new libraries.glucose preprocess

def MapleGlucoseInterface.new (libraries : Libraries) (preprocess : Bool) : SatInterface :=
  SimpInterface.new libraries.mapleglucose preprocess

/-- `SatSolver`. -/
def satSolver (libraries : Libraries) (name : Text) : Option SatInterface :=
  if name = "minisat".toList then some (MinisatInterface.new libraries true)
  else if name = "cryptominisat".toList then
    some (CryptominisatInterface.new libraries.cryptominisat)
  else if name = "ipasir".toList then some (IpasirInterface.new libraries.ipasir)
  else if name = "glucose".toList then some (GlucoseInterface.new libraries true)
  else if name = "mapleglucose".toList then some (MapleGlucoseInterface.new libraries true)
  else if name = "glucosenopp".toList then some (GlucoseInterface.new libraries false)
  else if name = "minisatnopp".toList then some (MinisatInterface.new libraries false)
  else none

/-! ## Programs on an object -/

/-- The integer of a literal. -/
def Lit.toInt : Lit → IntLit
  | .undef => ⟨0⟩
  | .const true => .trueLit
  | .const false => .falseLit
  | .var true v => ⟨v + 1⟩
  | .var false v => ⟨-(v + 1)⟩

/-- The values of the first `N` variables. -/
def restrictTo (N : ℕ) (σ : ℕ → Bool) (v : ℕ) : Bool :=
  decide (v < N) && σ v

namespace SatInterface

variable (I : SatInterface)

/-- A call to an object. -/
def call : Event → AbortM I.State Unit
  | .newVar => do
      let _ ← I.newVar
      pure ()
  | .addClause clause => I.addClause (clause.map Lit.toInt)
  | .freezeVar lit => I.freezeVar lit.toInt
  | .solve assumptions allowSimp _ => do
      let _ ← I.solve (assumptions.map Lit.toInt) allowSimp
      pure ()

/-- A new object after the calls, if none of them failed. -/
def object : Trace → Option I.State
  | [] => some I.init
  | event :: t => (object t).bind fun s => (I.call event s).1.map fun _ => (I.call event s).2

/-- The value that an object returns for a variable. -/
def value (s : I.State) (v : ℕ) : Bool :=
  decide ((I.solutionValue (Lit.var true v).toInt s).1 = some true)

/-- What a new object answers after the calls. -/
def solver : Solver where
  answer t assumptions allowSimp := do
    let s ← I.object t
    let sat ← (I.solve (assumptions.map Lit.toInt) allowSimp s).1
    if sat then
      some (restrictTo t.numVars (I.value (I.solve (assumptions.map Lit.toInt) allowSimp s).2))
    else none

/-- A program on a new object, which fails when one of its calls does. -/
def run {α : Type} (m : Solver → SatM α) : Option α := do
  let a ← (m I.solver []).1
  let _ ← I.object (m I.solver []).2
  pure a

end SatInterface

end Triangulator
