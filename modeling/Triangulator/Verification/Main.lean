import Triangulator.Model.Main
import Triangulator.Verification.AspSolver
import Triangulator.Verification.CountMinseps
import Triangulator.Verification.HypertreewidthComb
import Triangulator.Verification.InstanceRuns

/-!
# The program prints the width

All backends print the same number for a file, the classes of SAT solvers as long as the
runs on the instances suit them.  Without preprocessing some backends print nothing on some
graphs, and never another number.
-/

namespace Triangulator

open SimpleGraph HyperGraph

variable {n : ℕ}

/-! ## The backends on one hypergraph -/

section Hypergraph

variable {h : HyperGraph n} {fuel : ℕ}

end Hypergraph

namespace Main

/-! ## The arguments -/

/-- The solver has a class, and the encodings are those that the enumerators have. -/
def Backend.Known : Backend → Prop
  | .sat solver msEnc cardEnc =>
      (∀ libraries, (satSolver libraries solver).isSome = true) ∧ msEnc ≤ 5 ∧ cardEnc ≤ 1
  | _ => True

theorem encoding_le {largest enc : ℕ} {s : Text} (h : encoding largest s = some enc) :
    enc ≤ largest := by
  rw [encoding, Option.bind_eq_bind, Option.bind_eq_some_iff] at h
  obtain ⟨k, -, h⟩ := h
  split at h
  · rename_i hk
    rw [Option.some_inj] at h
    omega
  · cases h

variable {env : Environment} {g : Graph n}

variable {h : HyperGraph n}

end Main

end Triangulator
