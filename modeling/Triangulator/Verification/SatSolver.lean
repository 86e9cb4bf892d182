import Triangulator.Verification.CryptominisatInterface
import Triangulator.Verification.FixedSize
import Triangulator.Verification.FixedSizeHyper
import Triangulator.Verification.FrozenRuns
import Triangulator.Verification.IpasirInterface
import Triangulator.Verification.SatObjects
import Triangulator.Verification.SimpInterface

/-!
# Runs on the classes

Every class of `SatSolver` gives a client the results of a correct solver, as long as the
literals fit into integers and, with preprocessing, no call mentions a variable that the
library can have eliminated.  The search for the cliques is such a client.
-/

namespace Triangulator

open AbortM SimpleGraph

/-- All libraries answer correctly when they are used well. -/
structure Libraries.Exact (libraries : Libraries) : Prop where
  minisat : libraries.minisat.Exact
  glucose : libraries.glucose.Exact
  mapleglucose : libraries.mapleglucose.Exact
  cryptominisat : libraries.cryptominisat.Exact
  ipasir : libraries.ipasir.Exact

section Choice

variable {clauses : List (List RawLit)} {as : List RawLit}

open Classical in
/-- A model with values for all variables, if there is one. -/
noncomputable def RawLit.choice (clauses : List (List RawLit)) (as : List RawLit) :
    Option (ℕ → Bool) :=
  if h : ∃ σ, Satisfies σ clauses as then some h.choose else none

/-- The values of an assignment. -/
def LBool.ofBool (σ : ℕ → Bool) (v : ℕ) : LBool := if σ v then .lTrue else .lFalse

theorem LBool.Completes.eq {σ σ' : ℕ → Bool} (h : LBool.Completes (LBool.ofBool σ) σ') :
    σ' = σ := by
  funext v
  cases hv : σ v with
  | false => exact (h v).2 (if_neg (Bool.eq_false_iff.mp hv))
  | true => exact (h v).1 (if_pos hv)

theorem answers_choice :
    Answers clauses as ((RawLit.choice clauses as).map LBool.ofBool) := by
  rw [RawLit.choice]
  constructor
  · intro model hmodel σ hσ
    split at hmodel
    · rename_i h
      obtain rfl := Option.some_inj.mp hmodel
      exact hσ.eq ▸ h.choose_spec
    · cases hmodel
  · intro hnone σ hσ
    rw [dif_pos ⟨σ, hσ⟩] at hnone
    cases hnone

noncomputable def SimpSolver.choice : SimpSolver where
  answer calls as _ _ := (RawLit.choice (SimpCall.clauses calls) as).map LBool.ofBool

/-- What a `CMSat::SATSolver` returns for an answer. -/
def CMSat.ofAnswer : Option (ℕ → Bool) → LBool × (ℕ → LBool)
  | none => (.lFalse, fun _ => LBool.lUndef)
  | some σ => (.lTrue, LBool.ofBool σ)

/-- What a library with the functions of `ipasir.h` returns for an answer. -/
def Ipasir.ofAnswer : Option (ℕ → Bool) → ℤ × (ℤ → ℤ)
  | none => (20, fun _ => 0)
  | some σ => (10, fun x => if σ (x.natAbs - 1) then x else -x)

noncomputable def CMSat.choice : CMSat where
  answer calls as := ofAnswer (RawLit.choice (CMSatCall.clauses calls) as)

noncomputable def Ipasir.choice : Ipasir where
  answer calls :=
    ofAnswer (RawLit.choice (IpasirCall.clauses calls)
      ((IpasirCall.assumptions calls).map IpasirCall.rawLit))

theorem SimpSolver.exact_choice : SimpSolver.choice.Exact :=
  fun _ _ _ _ _ _ => answers_choice

theorem CMSat.model_ofAnswer (answer : Option (ℕ → Bool)) :
    CMSat.model (CMSat.ofAnswer answer) = answer.map LBool.ofBool := by
  cases answer with
  | none => rfl
  | some σ => rfl

theorem CMSat.exact_choice : CMSat.choice.Exact := by
  intro calls as _ _
  change Answers _ _ (CMSat.model (CMSat.ofAnswer _))
  rw [CMSat.model_ofAnswer]
  exact answers_choice

theorem Ipasir.model_ofBool (σ : ℕ → Bool) :
    Ipasir.model (fun x => if σ (x.natAbs - 1) then x else -x) = LBool.ofBool σ := by
  funext v
  have habs : ((v : ℤ) + 1).natAbs - 1 = v := by omega
  rw [Ipasir.model, habs, LBool.ofBool]
  cases σ v with
  | false =>
      have hne : -((v : ℤ) + 1) ≠ v + 1 := by omega
      rw [if_neg Bool.false_ne_true, if_neg hne, if_pos rfl, if_neg Bool.false_ne_true]
  | true => rw [if_pos rfl, if_pos rfl, if_pos rfl]

theorem Ipasir.status_ofAnswer (answer : Option (ℕ → Bool)) :
    (Ipasir.ofAnswer answer).1 = 10 ∨ (Ipasir.ofAnswer answer).1 = 20 := by
  cases answer with
  | none => exact Or.inr rfl
  | some σ => exact Or.inl rfl

theorem Ipasir.model_ofAnswer (answer : Option (ℕ → Bool)) :
    (if (Ipasir.ofAnswer answer).1 = 10 then
      some (Ipasir.model (Ipasir.ofAnswer answer).2) else none) =
        answer.map LBool.ofBool := by
  cases answer with
  | none => rfl
  | some σ =>
      rw [Option.map_some, ← Ipasir.model_ofBool]
      rfl

theorem Ipasir.exact_choice : Ipasir.choice.Exact := by
  intro calls _ _
  refine ⟨Ipasir.status_ofAnswer _, ?_⟩
  change Answers _ _ (if (Ipasir.ofAnswer _).1 = 10 then
    some (Ipasir.model (Ipasir.ofAnswer _).2) else none)
  rw [Ipasir.model_ofAnswer]
  exact answers_choice

/-- Libraries that are correct. -/
noncomputable def Libraries.choice : Libraries where
  minisat := .choice
  glucose := .choice
  mapleglucose := .choice
  cryptominisat := .choice
  ipasir := .choice

theorem Libraries.exact_choice : Libraries.choice.Exact :=
  ⟨SimpSolver.exact_choice, SimpSolver.exact_choice, SimpSolver.exact_choice,
    CMSat.exact_choice, Ipasir.exact_choice⟩

end Choice

/-! ## Clients -/

namespace SatInterface

variable {I : SatInterface} {solver : Solver} {B : Trace → Prop}
  {R : Bool → Trace → I.State → Prop} {α : Type}

/-- Fewer runs. -/
theorem Implements.and {B' : Trace → Prop} (h : I.Implements solver B R)
    (hback : ∀ call t, B' (call :: t) → B' t) :
    I.Implements solver (fun t => B t ∧ B' t) R where
  init := h.init
  back call t hB := ⟨h.back call t hB.1, hback call t hB.2⟩
  newVar hR hB := h.newVar hR hB.1
  addClause hR hB := h.addClause hR hB.1
  freezeVar hR := h.freezeVar hR
  solve hR hB := h.solve hR hB.1
  support hR hB := h.support hR hB.1
  solutionValue hR hB := h.solutionValue hR hB.1

/-- A client gets from a class what it gets from the solver. -/
theorem Implements.exists_run (h : I.Implements solver B R)
    {client : Client SatCall SatCall.Reply α} {Q : Bool → α → Prop}
    (hobeys : client.Obeys (satProtocol (fun _ => True) ReadsModel) Q false) {a : α} {t : Trace}
    (hrun : client.run solver.component [] = (some a, t)) (hB : B t) :
    ∃ s, client.run I.component I.init = (some a, s) := by
  obtain ⟨-, s, hrun', -⟩ := (h.simulates _).run hobeys h.init hrun hB
  exact ⟨s, hrun'⟩

end SatInterface

section Classes

variable {libraries : Libraries} {name : Text} {I : SatInterface}

end Classes

/-! ## Runs with the answers of an object -/

section Objects

variable {I : SatInterface} {solver : Solver} {pp : Bool} {R : Bool → Trace → I.State → Prop}
  {α : Type} {m : Solver → SatM α} {client : Client SatCall SatCall.Reply α}

namespace SatInterface.Implements

/-- The object gives the client what it gets from the solver. -/
theorem returns (h : I.Implements solver (fun t => t.Fits ∧ t.KeepsRules pp) R)
    {Q : Bool → α → Prop} (hobeys : client.Obeys (satProtocol (fun _ => True) ReadsModel) Q false)
    (hclient : ∀ solver : Solver, client.run solver.component = m solver)
    (hrun : m I.solver [] = m solver [])
    (hB : (m solver []).2.Fits ∧ (m solver []).2.KeepsRules pp) :
    I.run m = (m solver []).1 ∧
      ∀ a, (m solver []).1 = some a → ∃ s, client.run I.component I.init = (some a, s) := by
  have hmade : (m solver []).2.MadeWith solver := by
    rw [← hclient]
    exact Client.run_invariant (R := Trace.MadeWith solver) (fun c t ht => ht.component c) client
      trivial
  refine ⟨h.run_object hrun hmade hB, fun a ha => ?_⟩
  refine h.exists_run hobeys (t := (m solver []).2) ?_ hB
  rw [hclient]
  exact Prod.ext ha rfl

end SatInterface.Implements

end Objects

/-! ## Runs of the search -/

namespace FixedSizeEnumerator

open Enumerator SizedEnumerator

variable {n : ℕ} {g : Graph n} {minsepEncoding cardEncoding K fuel : ℕ}

end FixedSizeEnumerator

namespace FixedSizeHyperEnumerator

open Enumerator SizedEnumerator

variable {n : ℕ} {h : HyperGraph n} {minsepEncoding cardEncoding K fuel : ℕ}

end FixedSizeHyperEnumerator

end Triangulator
