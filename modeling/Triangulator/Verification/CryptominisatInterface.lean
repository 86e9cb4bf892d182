import Triangulator.Verification.SatClasses

/-!
# The class over `CMSat::SATSolver`

The library has no variables that a user has to freeze, so that the class is a solver on all
calls.
-/

namespace Triangulator

open AbortM

namespace CMSatCall

def numVars : List CMSatCall → ℕ
  | [] => 0
  | .newVar :: calls => numVars calls + 1
  | _ :: calls => numVars calls

def clauses : List CMSatCall → List (List RawLit)
  | [] => []
  | .addClause lits :: calls => lits :: clauses calls
  | _ :: calls => clauses calls

/-- All calls used variables that were there. -/
def WellUsed : List CMSatCall → Prop
  | [] => True
  | .newVar :: calls => WellUsed calls
  | .addClause lits :: calls => (∀ l ∈ lits, l.var < numVars calls) ∧ WellUsed calls
  | .solve as :: calls => (∀ l ∈ as, l.var < numVars calls) ∧ WellUsed calls

end CMSatCall

/-- The model, when `solve` returned `l_True`. -/
def CMSat.model (r : LBool × (ℕ → LBool)) : Option (ℕ → LBool) :=
  if r.1 = .lTrue then some r.2 else none

/-- The library answers correctly when it is used well. -/
def CMSat.Exact (library : CMSat) : Prop :=
  ∀ calls as, CMSatCall.WellUsed calls → (∀ l ∈ as, l.var < CMSatCall.numVars calls) →
    Answers (CMSatCall.clauses calls) as (CMSat.model (library.answer calls as))

/-! ## The calls to the library -/

def cmsatCalls : Trace → List CMSatCall
  | [] => []
  | .newVar :: t => .newVar :: cmsatCalls t
  | .addClause clause :: t =>
      (rawClause true clause).elim (cmsatCalls t) fun c => .addClause c :: cmsatCalls t
  | .freezeVar _ :: t => cmsatCalls t
  | .solve as _ _ :: t => .solve (as.map (Lit.toRaw true)) :: cmsatCalls t

section Calls

variable {t : Trace} {as : List Lit}

end Calls

namespace CryptominisatInterface

/-- The solver that the class is. -/
noncomputable def solver (library : CMSat) : Solver :=
  Solver.ofLibrary true SatReady fun t as _ =>
    CMSat.model (library.answer (cmsatCalls t) (as.map (Lit.toRaw true)))

/-- The data members after the calls. -/
structure Follows (b : Bool) (t : Trace) (s : CryptominisatInterface) : Prop where
  accepted : t.Accepted
  numVars : s.numVars = t.numVars
  calls : s.calls = cmsatCalls t
  model : b = true →
    t.lastAnswer = s.model.map fun model => restrictTo t.numVars (decode true model)

variable {b : Bool} {t : Trace} {s : CryptominisatInterface}

theorem Follows.libraryLit (h : Follows b t s) {l : Lit} (hl : l.Known t.numVars) :
    s.libraryLit l.toInt = some (l.toRaw true) := by
  cases l with
  | undef => exact hl.elim
  | const c => exact hl.elim
  | var c v =>
      rw [CryptominisatInterface.libraryLit, if_pos, Lit.natAbs_toInt, Nat.add_sub_cancel,
        Lit.toRaw, Bool.bne_true, Option.some_inj]
      · refine congrArg (RawLit.mk v) (congrArg (!·) (Bool.eq_iff_iff.mpr ?_))
        simp [Lit.toInt_pos_iff]
      · refine ⟨Lit.toInt_ne_zero, ?_⟩
        rw [Lit.natAbs_toInt, h.numVars]
        exact_mod_cast hl

theorem Follows.newVar (h : Follows b t s) :
    ∃ s', CryptominisatInterface.newVar s = (some (Lit.var true t.numVars).toInt, s') ∧
      Follows false (.newVar :: t) s' := by
  have hnum : s.numVars + 1 = (t.numVars : ℤ) + 1 := congrArg (· + 1) h.numVars
  refine ⟨{ s with numVars := s.numVars + 1, calls := .newVar :: s.calls }, ?_, h.accepted,
    hnum, congrArg (CMSatCall.newVar :: ·) h.calls, fun hb => absurd hb Bool.false_ne_true⟩
  rw [CryptominisatInterface.newVar, modify_bind, get_bind, pure_run]
  exact congrArg (fun x => (some (IntLit.mk x), _)) hnum

theorem Follows.addClause (h : Follows b t s) {clause : List Lit}
    (hfits : t.Fits) (hclause : AcceptedClause t.numVars clause) :
    ∃ s', CryptominisatInterface.addClause (clause.map Lit.toInt) s = (some (), s') ∧
      Follows false (.addClause clause :: t) s' := by
  have haccepted : Trace.Accepted (.addClause clause :: t) := ⟨hclause, h.accepted⟩
  obtain ⟨c, hc, ⟨htaut, hraw⟩ | ⟨htaut, hknown, hraw⟩⟩ := hclause.toInt hfits
  · refine ⟨s, ?_, haccepted, h.numVars, ?_, fun hb => absurd hb Bool.false_ne_true⟩
    · rw [CryptominisatInterface.addClause, hc, ofOption_bind, if_pos htaut]
      rfl
    · rw [cmsatCalls, hraw true]
      exact h.calls
  · have hlits := mapM_toInt fun l hl => h.libraryLit (hknown l hl)
    refine ⟨{ s with calls := .addClause (c.map (Lit.toRaw true)) :: s.calls }, ?_, haccepted,
      h.numVars, ?_, fun hb => absurd hb Bool.false_ne_true⟩
    · rw [CryptominisatInterface.addClause, hc, ofOption_bind,
        if_neg (Bool.eq_false_iff.mp htaut), get_bind, hlits, ofOption_bind]
      rfl
    · rw [cmsatCalls, hraw true]
      exact congrArg (CMSatCall.addClause _ :: ·) h.calls

theorem Follows.solve (h : Follows b t s) {library : CMSat} {as : List Lit}
    {allowSimp : Bool} (hready : SatReady t as) :
    ∃ s', CryptominisatInterface.solve library (as.map Lit.toInt) allowSimp s =
        (some ((solver library).answer t as allowSimp).isSome, s') ∧
      Follows ((solver library).answer t as allowSimp).isSome
        (.solve as allowSimp ((solver library).answer t as allowSimp) :: t) s' := by
  have hlits := mapM_toInt fun l hl => h.libraryLit (hready.known l hl)
  have hcalls := h.calls
  rw [solver, Solver.ofLibrary_of_ok hready, Option.isSome_map, CMSat.model]
  refine ⟨{ s with
      calls := .solve (as.map (Lit.toRaw true)) :: s.calls
      model := some (library.answer (cmsatCalls t) (as.map (Lit.toRaw true))).2 }, ?_,
    ⟨hready.known, h.accepted⟩, h.numVars, congrArg (CMSatCall.solve _ :: ·) hcalls, ?_⟩
  · rw [CryptominisatInterface.solve, get_bind, hlits, ofOption_bind, modify_bind, pure_run,
      ← hcalls]
    refine congrArg (fun x => (some x, _)) ?_
    by_cases htrue : (library.answer s.calls (as.map (Lit.toRaw true))).1 = .lTrue
    · rw [if_pos htrue, decide_eq_true htrue, Option.isSome_some]
    · rw [if_neg htrue, decide_eq_false htrue, Option.isSome_none]
  · intro hb
    by_cases htrue : (library.answer (cmsatCalls t) (as.map (Lit.toRaw true))).1 = .lTrue
    · rw [if_pos htrue]
      rfl
    · rw [if_neg htrue] at hb
      exact absurd hb Bool.false_ne_true

theorem Follows.solutionValue (h : Follows true t s) {l : Lit} {σ : ℕ → Bool}
    (hσ : t.lastAnswer = some σ) (hl : l.Valid t.numVars)
    (hfits : t.numVars ≤ IntLit.maxVars) :
    CryptominisatInterface.solutionValue l.toInt s = (some (l.eval σ), s) := by
  have hvalid := hl.mono hfits
  rw [CryptominisatInterface.solutionValue, Lit.isDef_toInt, assert_bind hl.isDef,
    hvalid.isTrue_toInt, hvalid.isFalse_toInt]
  cases l with
  | undef => exact hl.elim
  | const c => cases c <;> rfl
  | var c v =>
      have hmodel := (h.model rfl).symm.trans hσ
      obtain ⟨model, hsome, rfl⟩ := Option.map_eq_some_iff.mp hmodel
      have hin : (decide ((Lit.var c v).toInt.value ≠ 0) &&
          decide (((Lit.var c v).toInt.value.natAbs : ℤ) ≤ s.numVars)) = true := by
        rw [Bool.and_eq_true, decide_eq_true_iff, decide_eq_true_iff, Lit.natAbs_toInt, h.numVars]
        exact ⟨Lit.toInt_ne_zero, by exact_mod_cast hl⟩
      have htrue : (Lit.var c v).isTrue = false := rfl
      have hfalse : (Lit.var c v).isFalse = false := rfl
      rw [htrue, hfalse, if_neg Bool.false_ne_true, if_neg Bool.false_ne_true, get_bind,
        assert_bind hin, hsome, ofOption_bind, Lit.natAbs_toInt, Nat.add_sub_cancel, pure_run]
      refine congrArg (fun x => (some x, s)) ?_
      rw [Lit.eval, restrictTo_of_lt hl, decode, if_pos rfl]
      cases c with
      | false =>
          rw [if_neg (Lit.toInt_pos_iff.not.mpr Bool.false_ne_true),
            if_neg Bool.false_ne_true]
      | true => rw [if_pos (Lit.toInt_pos_iff.mpr rfl), if_pos rfl]

end CryptominisatInterface

end Triangulator
