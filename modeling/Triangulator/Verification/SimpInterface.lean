import Triangulator.Verification.FreezeDiscipline
import Triangulator.Verification.SatClasses

/-!
# The classes over a `SimpSolver`

The three classes are correct as long as the libraries are, which is promised for variables
that no simplification can have eliminated.  Without preprocessing nothing is eliminated.
-/

namespace Triangulator

open AbortM

/-! ## The rules of a `SimpSolver` -/

namespace SimpCall

def clauses : List SimpCall → List (List RawLit)
  | [] => []
  | .addClause ps :: calls => ps :: clauses calls
  | _ :: calls => clauses calls

def frozen : List SimpCall → ℕ → Bool
  | [], _ => false
  | .setFrozen w b :: calls, v => if w = v then b else frozen calls v
  | _ :: calls, v => frozen calls v

/-- The variable was there and not frozen in a `solve` call with simplification. -/
def eliminable : List SimpCall → ℕ → Bool
  | [], _ => false
  | .solve _ true _ :: calls, v =>
      (decide (v < numVars calls) && !frozen calls v) || eliminable calls v
  | _ :: calls, v => eliminable calls v

/-- The literal may be used: its variable is there and not eliminated. -/
def Usable (calls : List SimpCall) (l : RawLit) : Prop :=
  l.var < numVars calls ∧ eliminable calls l.var = false

/-- All calls used literals that may be used. -/
def WellUsed : List SimpCall → Prop
  | [] => True
  | .newVar :: calls => WellUsed calls
  | .addClause ps :: calls => (∀ l ∈ ps, Usable calls l) ∧ WellUsed calls
  | .setFrozen v _ :: calls => v < numVars calls ∧ WellUsed calls
  | .solve as _ _ :: calls => (∀ l ∈ as, Usable calls l) ∧ WellUsed calls

end SimpCall

/-- The library answers correctly when it is used well. -/
def SimpSolver.Exact (library : SimpSolver) : Prop :=
  ∀ calls as doSimp turnOffSimp, SimpCall.WellUsed calls →
    (∀ l ∈ as, SimpCall.Usable calls l) →
    Answers (SimpCall.clauses calls) as (library.answer calls as doSimp turnOffSimp)

/-! ## The calls to the library -/

/-- The calls to the library, with or without preprocessing. -/
def simpCalls (pp : Bool) : Trace → List SimpCall
  | [] => []
  | .newVar :: t => .newVar :: simpCalls pp t
  | .addClause clause :: t =>
      (rawClause false clause).elim (simpCalls pp t) fun c => .addClause c :: simpCalls pp t
  | .freezeVar (.var _ v) :: t =>
      if pp then .setFrozen v true :: simpCalls pp t else simpCalls pp t
  | .freezeVar _ :: t => simpCalls pp t
  | .solve as b _ :: t =>
      .solve (as.map (Lit.toRaw false)) (pp && b) (!(pp && b)) :: simpCalls pp t

section Calls

variable {pp : Bool} {t : Trace} {v : ℕ}

theorem numVars_simpCalls : SimpCall.numVars (simpCalls pp t) = t.numVars := by
  induction t with
  | nil => rfl
  | cons call t ih =>
      cases call with
      | newVar => exact congrArg (· + 1) ih
      | addClause clause =>
          rw [simpCalls]
          cases rawClause false clause with
          | none => exact ih
          | some c => exact ih
      | freezeVar l =>
          cases l with
          | var b w => cases pp <;> exact ih
          | undef => exact ih
          | const b => exact ih
      | solve as b answer => exact ih

end Calls

/-! ## Calls that a class over a `SimpSolver` can make -/

/-- The rules of the library are kept if it eliminates variables. -/
def Trace.KeepsRules (pp : Bool) (t : Trace) : Prop :=
  pp = true → t.disciplined = true ∧ t.Assumed

theorem Trace.Assumed.back {call : Event} {t : Trace} (h : Assumed (call :: t)) : t.Assumed := by
  cases call with
  | newVar => exact h
  | addClause clause => exact h
  | freezeVar l => exact h
  | solve as b answer => exact h.2

theorem Trace.KeepsRules.back {pp : Bool} {call : Event} {t : Trace}
    (h : KeepsRules pp (call :: t)) : t.KeepsRules pp :=
  fun hpp => ⟨disciplined_back (h hpp).1, (h hpp).2.back⟩

/-- The calls to the library, and a `solve` call after them, are as it requires. -/
structure SimpReady (pp : Bool) (t : Trace) (as : List Lit) : Prop where
  accepted : t.Accepted
  known : ∀ l ∈ as, l.Known t.numVars
  kept : t.KeepsRules pp
  usable : pp = true → ∀ l ∈ as, l.usable t = true

section Ready

variable {pp : Bool} {t : Trace} {as : List Lit}

end Ready

namespace SimpInterface

/-- The solver that the class is. -/
noncomputable def solver (library : SimpSolver) (pp : Bool) : Solver :=
  Solver.ofLibrary false (SimpReady pp) fun t as b =>
    library.answer (simpCalls pp t) (as.map (Lit.toRaw false)) (pp && b) (!(pp && b))

/-- The data members after the calls. -/
structure Follows (pp b : Bool) (t : Trace) (s : SimpInterface) : Prop where
  accepted : t.Accepted
  vars : s.vars = List.range t.numVars
  preprocess : s.preprocess = pp
  calls : s.calls = simpCalls pp t
  model : b = true →
    t.lastAnswer = s.model.map fun model => restrictTo t.numVars (decode false model)

variable {pp b : Bool} {t : Trace} {s : SimpInterface}

/-- The variable of a literal in the library. -/
theorem Follows.getElem_vars (h : Follows pp b t s) {v : ℕ} (hv : v < t.numVars) :
    s.vars[v]? = some v := by
  rw [h.vars, List.getElem?_range hv]

theorem Follows.libraryLit (h : Follows pp b t s) {l : Lit} (hl : l.Known t.numVars) :
    s.libraryLit l.toInt = some (l.toRaw false) := by
  cases l with
  | undef => exact hl.elim
  | const c => exact hl.elim
  | var c v =>
      rw [SimpInterface.libraryLit, if_pos, Lit.natAbs_toInt, Nat.add_sub_cancel,
        h.getElem_vars hl, Option.map_some, Lit.toRaw, Bool.bne_false, Option.some_inj]
      · exact congrArg (RawLit.mk v) (Bool.eq_iff_iff.mpr (by simp [Lit.toInt_pos_iff]))
      · refine ⟨Lit.toInt_ne_zero, ?_⟩
        rw [Lit.natAbs_toInt, h.vars, List.length_range]
        exact hl

theorem newVar_run : SimpInterface.newVar s =
    (some (IntLit.create (s.vars ++ [SimpCall.numVars s.calls]).length),
      { s with vars := s.vars ++ [SimpCall.numVars s.calls], calls := .newVar :: s.calls }) :=
  rfl

theorem create_eq {v : ℕ} (h : v < IntLit.maxVars) :
    IntLit.create (v + 1) = (Lit.var true v).toInt := by
  rw [IntLit.maxVars] at h
  have hmod : Int.bmod ((v + 1 : ℕ) : ℤ) (2 ^ 32) = ((v + 1 : ℕ) : ℤ) := by
    apply Int.bmod_eq_of_le
    · omega
    · omega
  exact congrArg IntLit.mk hmod

theorem Follows.newVar (h : Follows pp b t s) (hB : Trace.Fits (.newVar :: t)) :
    ∃ s', SimpInterface.newVar s = (some (Lit.var true t.numVars).toInt, s') ∧
      Follows pp false (.newVar :: t) s' := by
  have hsize : (s.vars ++ [SimpCall.numVars s.calls]).length = t.numVars + 1 := by
    rw [h.vars, List.length_append, List.length_range, List.length_singleton]
  rw [newVar_run, hsize, create_eq hB]
  refine ⟨_, rfl, h.accepted, ?_, h.preprocess, ?_, fun hb => absurd hb Bool.false_ne_true⟩
  · change s.vars ++ [SimpCall.numVars s.calls] = List.range (t.numVars + 1)
    rw [h.vars, h.calls, numVars_simpCalls, List.range_succ]
  · exact congrArg (SimpCall.newVar :: ·) h.calls

theorem Follows.addClause (h : Follows pp b t s) {clause : List Lit}
    (hfits : t.Fits) (hclause : AcceptedClause t.numVars clause) :
    ∃ s', SimpInterface.addClause (clause.map Lit.toInt) s = (some (), s') ∧
      Follows pp false (.addClause clause :: t) s' := by
  have haccepted : Trace.Accepted (.addClause clause :: t) := ⟨hclause, h.accepted⟩
  obtain ⟨c, hc, ⟨htaut, hraw⟩ | ⟨htaut, hknown, hraw⟩⟩ := hclause.toInt hfits
  · refine ⟨s, ?_, haccepted, h.vars, h.preprocess, ?_, fun hb => absurd hb Bool.false_ne_true⟩
    · rw [SimpInterface.addClause, hc, ofOption_bind, if_pos htaut]
      rfl
    · rw [simpCalls, hraw false]
      exact h.calls
  · have hlits := mapM_toInt fun l hl => h.libraryLit (hknown l hl)
    refine ⟨{ s with calls := .addClause (c.map (Lit.toRaw false)) :: s.calls }, ?_, haccepted,
      h.vars, h.preprocess, ?_, fun hb => absurd hb Bool.false_ne_true⟩
    · rw [SimpInterface.addClause, hc, ofOption_bind, if_neg (Bool.eq_false_iff.mp htaut),
        get_bind, hlits, ofOption_bind]
      rfl
    · rw [simpCalls, hraw false]
      exact congrArg (SimpCall.addClause _ :: ·) h.calls

theorem Follows.freezeVar (h : Follows pp b t s) {l : Lit} (hl : l.Known t.numVars) :
    ∃ s', SimpInterface.freezeVar l.toInt s = (some (), s') ∧
      Follows pp false (.freezeVar l :: t) s' := by
  have haccepted : Trace.Accepted (.freezeVar l :: t) := ⟨hl, h.accepted⟩
  cases l with
  | undef => exact hl.elim
  | const c => exact hl.elim
  | var c v =>
      have hcalls := h.calls
      have hpp := h.preprocess
      cases pp with
      | false =>
          refine ⟨s, ?_, haccepted, h.vars, hpp, hcalls, fun hb => absurd hb Bool.false_ne_true⟩
          rw [SimpInterface.freezeVar, get_bind, if_neg (Bool.eq_false_iff.mp hpp)]
          rfl
      | true =>
          have hin : (decide ((Lit.var c v).toInt.value.natAbs ≠ 0) &&
              decide ((Lit.var c v).toInt.value.natAbs ≤ s.vars.length)) = true := by
            rw [Lit.natAbs_toInt, h.vars, List.length_range, Bool.and_eq_true,
              decide_eq_true_iff, decide_eq_true_iff]
            exact ⟨Nat.succ_ne_zero v, hl⟩
          refine ⟨{ s with calls := .setFrozen v true :: s.calls }, ?_, haccepted, h.vars, hpp,
            congrArg (SimpCall.setFrozen v true :: ·) hcalls,
            fun hb => absurd hb Bool.false_ne_true⟩
          rw [SimpInterface.freezeVar, get_bind, if_pos hpp, assert_bind hin,
            Lit.natAbs_toInt, Nat.add_sub_cancel, h.getElem_vars hl, ofOption_bind]
          rfl

theorem Follows.solve (h : Follows pp b t s) {library : SimpSolver} {as : List Lit}
    {allowSimp : Bool} (hready : SimpReady pp t as) :
    ∃ s', SimpInterface.solve library (as.map Lit.toInt) allowSimp s =
        (some ((solver library pp).answer t as allowSimp).isSome, s') ∧
      Follows pp ((solver library pp).answer t as allowSimp).isSome
        (.solve as allowSimp ((solver library pp).answer t as allowSimp) :: t) s' := by
  have hlits := mapM_toInt fun l hl => h.libraryLit (hready.known l hl)
  rw [solver, Solver.ofLibrary_of_ok hready, Option.isSome_map]
  rw [SimpInterface.solve, get_bind, hlits, ofOption_bind, h.preprocess, h.calls]
  exact ⟨_, rfl, ⟨hready.known, h.accepted⟩, h.vars, h.preprocess,
    congrArg (SimpCall.solve _ _ _ :: ·) h.calls, fun _ => rfl⟩

theorem Follows.solutionValue (h : Follows pp true t s) {l : Lit} {σ : ℕ → Bool}
    (hσ : t.lastAnswer = some σ) (hread : l.Readable) (hl : l.Valid t.numVars)
    (hfits : t.numVars ≤ IntLit.maxVars) :
    SimpInterface.solutionValue l.toInt s = (some (l.eval σ), s) := by
  have hvalid := hl.mono hfits
  rw [SimpInterface.solutionValue, Lit.isDef_toInt, assert_bind hl.isDef, hvalid.isTrue_toInt,
    hvalid.isFalse_toInt]
  cases l with
  | undef => exact hl.elim
  | const c => cases c <;> rfl
  | var c v =>
      cases c with
      | false => exact absurd rfl (hread v)
      | true =>
          have hmodel := (h.model rfl).symm.trans hσ
          obtain ⟨model, hsome, rfl⟩ := Option.map_eq_some_iff.mp hmodel
          have hin : (decide ((Lit.var true v).toInt.value ≠ 0) &&
              decide (IntLit.toSize (Lit.var true v).toInt.value ≤ s.vars.length)) = true := by
            have hv : v < t.numVars := hl
            rw [IntLit.maxVars] at hfits
            rw [Bool.and_eq_true, decide_eq_true_iff, decide_eq_true_iff, Lit.toInt_pos,
              IntLit.toSize, h.vars, List.length_range]
            omega
          have htrue : (Lit.var true v).isTrue = false := rfl
          have hfalse : (Lit.var true v).isFalse = false := rfl
          rw [htrue, hfalse, if_neg Bool.false_ne_true, if_neg Bool.false_ne_true, get_bind,
            assert_bind hin, Lit.natAbs_toInt, Nat.add_sub_cancel, h.getElem_vars hl,
            ofOption_bind, hsome, ofOption_bind, if_pos (Lit.toInt_pos_iff.mpr rfl)]
          rw [Lit.eval_var_true, restrictTo_of_lt hl, decode, if_neg Bool.false_ne_true]
          cases model v <;> rfl

end SimpInterface

end Triangulator
