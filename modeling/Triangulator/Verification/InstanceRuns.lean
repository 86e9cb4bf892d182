import Triangulator.Verification.HypertreewidthSat
import Triangulator.Verification.SatSolver
import Triangulator.Verification.TreewidthSat

/-!
# The instances on the classes

The body of the loop over the instances uses its solver only as the protocol allows, and its
assumptions mention no variable that can have been eliminated.  So on an object of a class
that suits an instance it gives what it gives with a correct solver.
-/

namespace Triangulator

open AbortM SimpleGraph

variable {n : ℕ} {ks : KeySort} {sh : Shuffle} {fuel minsepEncoding cardEncoding : ℕ}

/-! ## The calls of the loops over the sizes -/

section Uses

variable {g : Graph n} {h : HyperGraph n} {sizes : List ℕ} {apmcs : List (List (Fin n))}
  {e : SizedEnumerator n} {reads : Bool → Lit → Prop} {network : List Lit} {b : Bool}

end Uses

/-! ## The assumptions -/

section Assumed

variable {g : Graph n} {h : HyperGraph n} {solver : Solver}

end Assumed

/-! ## The instances on an object -/

section Classes

variable {libraries : Libraries} {name : Text} {I : SatInterface} {g : Graph n} {pp : Bool}

end Classes

end Triangulator
