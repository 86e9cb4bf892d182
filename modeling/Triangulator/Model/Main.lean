import Triangulator.Model.AspSolver
import Triangulator.Model.Io

/-!
# The program

A translation of `main` of `triangulator.cpp` for the problems that print a number.  An
argument list begins with `argv[1]`.  A failed assertion, an exception and a call of `abort`
are all `none`.
-/

namespace Triangulator

open AnswerSet

namespace Main

/-- What the program does not contain: the files, the other programs and libraries, and the
orders that the standard library leaves open. -/
structure Environment where
  file : Text → List Text
  libraries : Libraries
  clingo : Set (Statement AspEnumerator.Atom) → List Text
  keySort : KeySort
  shuffle : Shuffle
  sortBy : (ℕ → ℕ) → List ℕ → List ℕ

/-- `std::stoi` with the range of `int`. -/
def stoi (s : Text) : Option ℤ :=
  (AspEnumerator.stoi s).filter fun k => decide (-2 ^ 31 ≤ k) && decide (k < 2 ^ 31)

/-- The ways to solve a problem, with the encodings that only the SAT solvers have. -/
inductive Backend
  | asp
  | comb
  | sat (solver : Text) (msEnc cardEnc : ℕ)

/-- An encoding has one of the numbers up to `largest`. -/
def encoding (largest : ℕ) (s : Text) : Option ℕ := do
  let enc ← stoi s
  if 0 ≤ enc ∧ enc ≤ largest then some enc.toNat else none

/-- The checks of the arguments after `countminseps`: the bound and the name of the file. -/
def bound : List Text → Option (ℤ × Text)
  | [ubArg, file] => do
      let ub ← stoi ubArg
      if 1 < ub then some (ub, file) else none
  | _ => none

variable {n : ℕ}

/-- The calls for the problems `tw` and `twnopp`. -/
def treewidth (env : Environment) (fuel : ℕ) (graph : Graph n) (pp : Bool) :
    Backend → Option ℤ
  | .asp => treewidthAsp env.keySort env.clingo fuel graph pp
  | .comb => treewidthComb env.keySort fuel graph pp
  | .sat solver msEnc cardEnc =>
      env.libraries.treewidthSat env.keySort env.shuffle fuel graph msEnc cardEnc solver pp

/-- The calls for the problem `ghtw`. -/
def hypertreewidth (env : Environment) (fuel : ℕ) (hypergraph : HyperGraph n) :
    Backend → Option ℕ
  | .asp => hypertreewidthAsp env.keySort env.clingo fuel hypergraph
  | .comb => hypertreewidthComb env.keySort env.sortBy fuel hypergraph
  | .sat solver msEnc cardEnc =>
      env.libraries.hypertreewidthSat env.keySort env.shuffle fuel hypergraph msEnc cardEnc
        solver

end Main

end Triangulator
