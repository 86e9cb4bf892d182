import Triangulator.Verification.SatClasses

/-!
# The class over `ipasir.h`

A clause is given to the library literal by literal, and the assumptions hold until the next
call of `ipasir_solve`.
-/

namespace Triangulator

open AbortM

namespace IpasirCall

/-- The literal of an integer. -/
def rawLit (x : ℤ) : RawLit := ⟨x.natAbs - 1, decide (x < 0)⟩

/-- The integer of a literal. -/
def ofRaw (l : RawLit) : ℤ := if l.sign then -(l.var + 1) else l.var + 1

/-- The clause that is not finished. -/
def pending : List IpasirCall → List ℤ
  | [] => []
  | .add x :: calls => if x = 0 then [] else pending calls ++ [x]
  | _ :: calls => pending calls

def clauses : List IpasirCall → List (List RawLit)
  | [] => []
  | .add x :: calls =>
      if x = 0 then (pending calls).map rawLit :: clauses calls else clauses calls
  | _ :: calls => clauses calls

/-- The assumptions of the next call of `ipasir_solve`. -/
def assumptions : List IpasirCall → List ℤ
  | [] => []
  | .assume x :: calls => assumptions calls ++ [x]
  | .solve :: _ => []
  | _ :: calls => assumptions calls

/-- All literals were in the range of an `int`, and no clause was left unfinished. -/
def WellUsed : List IpasirCall → Prop
  | [] => True
  | .add x :: calls => x.natAbs < 2 ^ 31 ∧ WellUsed calls
  | .assume x :: calls => (x ≠ 0 ∧ x.natAbs < 2 ^ 31) ∧ WellUsed calls
  | .solve :: calls => pending calls = [] ∧ WellUsed calls

section Lists

variable {ls : List ℤ} {calls : List IpasirCall}

theorem rawLit_ofRaw (l : RawLit) : rawLit (ofRaw l) = l := by
  obtain ⟨v, sign⟩ := l
  cases sign with
  | false =>
      have hpos : ¬((v : ℤ) + 1 < 0) := by omega
      have habs : ((v : ℤ) + 1).natAbs - 1 = v := by omega
      rw [ofRaw, if_neg Bool.false_ne_true, rawLit, habs, decide_eq_false hpos]
  | true =>
      have hneg : -((v : ℤ) + 1) < 0 := by omega
      have habs : (-((v : ℤ) + 1)).natAbs - 1 = v := by omega
      rw [ofRaw, if_pos rfl, rawLit, habs, decide_eq_true hneg]

theorem natAbs_ofRaw (l : RawLit) : (ofRaw l).natAbs = l.var + 1 := by
  rw [ofRaw]
  split <;> omega

theorem ofRaw_ne_zero (l : RawLit) : ofRaw l ≠ 0 := by
  intro h
  have habs := natAbs_ofRaw l
  rw [h] at habs
  exact absurd habs (by simp)

/-- The calls for a list of literals, one after the other. -/
theorem reverse_map_cons {f : ℤ → IpasirCall} {x : ℤ} :
    ((x :: ls).map f).reverse ++ calls = (ls.map f).reverse ++ (f x :: calls) := by
  rw [List.map_cons, List.reverse_cons, List.append_assoc, List.singleton_append]

theorem pending_adds (h : ∀ x ∈ ls, x ≠ 0) :
    pending ((ls.map .add).reverse ++ calls) = pending calls ++ ls := by
  induction ls generalizing calls with
  | nil => exact (List.append_nil _).symm
  | cons x ls ih =>
      rw [reverse_map_cons, ih fun y hy => h y (List.mem_cons_of_mem _ hy), pending,
        if_neg (h x List.mem_cons_self), List.append_assoc, List.singleton_append]

theorem clauses_adds (h : ∀ x ∈ ls, x ≠ 0) :
    clauses ((ls.map .add).reverse ++ calls) = clauses calls := by
  induction ls generalizing calls with
  | nil => rfl
  | cons x ls ih =>
      rw [reverse_map_cons, ih fun y hy => h y (List.mem_cons_of_mem _ hy), clauses,
        if_neg (h x List.mem_cons_self)]

theorem assumptions_adds :
    assumptions ((ls.map .add).reverse ++ calls) = assumptions calls := by
  induction ls generalizing calls with
  | nil => rfl
  | cons x ls ih =>
      rw [reverse_map_cons, ih]
      rfl

theorem wellUsed_adds (h : ∀ x ∈ ls, x.natAbs < 2 ^ 31) (hcalls : WellUsed calls) :
    WellUsed ((ls.map .add).reverse ++ calls) := by
  induction ls generalizing calls with
  | nil => exact hcalls
  | cons x ls ih =>
      rw [reverse_map_cons]
      exact ih (fun y hy => h y (List.mem_cons_of_mem _ hy)) ⟨h x List.mem_cons_self, hcalls⟩

theorem pending_assumes :
    pending ((ls.map .assume).reverse ++ calls) = pending calls := by
  induction ls generalizing calls with
  | nil => rfl
  | cons x ls ih =>
      rw [reverse_map_cons, ih]
      rfl

theorem clauses_assumes :
    clauses ((ls.map .assume).reverse ++ calls) = clauses calls := by
  induction ls generalizing calls with
  | nil => rfl
  | cons x ls ih =>
      rw [reverse_map_cons, ih]
      rfl

theorem assumptions_assumes :
    assumptions ((ls.map .assume).reverse ++ calls) = assumptions calls ++ ls := by
  induction ls generalizing calls with
  | nil => exact (List.append_nil _).symm
  | cons x ls ih =>
      rw [reverse_map_cons, ih, assumptions, List.append_assoc, List.singleton_append]

theorem wellUsed_assumes (h : ∀ x ∈ ls, x ≠ 0 ∧ x.natAbs < 2 ^ 31) (hcalls : WellUsed calls) :
    WellUsed ((ls.map .assume).reverse ++ calls) := by
  induction ls generalizing calls with
  | nil => exact hcalls
  | cons x ls ih =>
      rw [reverse_map_cons]
      exact ih (fun y hy => h y (List.mem_cons_of_mem _ hy)) ⟨h x List.mem_cons_self, hcalls⟩

end Lists

end IpasirCall

/-- The values of the variables according to `ipasir_val`. -/
def Ipasir.model (val : ℤ → ℤ) (v : ℕ) : LBool :=
  if val (v + 1) = v + 1 then .lTrue
  else if val (v + 1) = -(v + 1) then .lFalse
  else LBool.lUndef

/-- The library returns that the clauses are satisfiable under the assumptions, and is right,
or it returns that they are not. -/
def Ipasir.Exact (library : Ipasir) : Prop :=
  ∀ calls, IpasirCall.WellUsed calls → IpasirCall.pending calls = [] →
    ((library.answer calls).1 = 10 ∨ (library.answer calls).1 = 20) ∧
      Answers (IpasirCall.clauses calls) ((IpasirCall.assumptions calls).map IpasirCall.rawLit)
        (if (library.answer calls).1 = 10 then some (model (library.answer calls).2) else none)

/-! ## The calls to the library -/

/-- The calls that give literals to the library. -/
def rawCalls (f : ℤ → IpasirCall) (ls : List RawLit) (calls : List IpasirCall) :
    List IpasirCall :=
  ((ls.map IpasirCall.ofRaw).map f).reverse ++ calls

def ipasirCalls : Trace → List IpasirCall
  | [] => []
  | .newVar :: t => ipasirCalls t
  | .addClause clause :: t =>
      (rawClause true clause).elim (ipasirCalls t) fun c =>
        .add 0 :: rawCalls .add c (ipasirCalls t)
  | .freezeVar _ :: t => ipasirCalls t
  | .solve as _ _ :: t => .solve :: rawCalls .assume (as.map (Lit.toRaw true)) (ipasirCalls t)

section Calls

variable {t : Trace} {as : List Lit} {ls : List RawLit}

theorem ofRaw_map_ne_zero : ∀ x ∈ ls.map IpasirCall.ofRaw, x ≠ 0 :=
  List.forall_mem_map.mpr fun l _ => IpasirCall.ofRaw_ne_zero l

theorem rawLit_map_ofRaw : (ls.map IpasirCall.ofRaw).map IpasirCall.rawLit = ls := by
  rw [List.map_map]
  conv_rhs => rw [← List.map_id ls]
  exact List.map_congr_left fun l _ => IpasirCall.rawLit_ofRaw l

theorem pending_ipasirCalls : IpasirCall.pending (ipasirCalls t) = [] := by
  induction t with
  | nil => rfl
  | cons call t ih =>
      cases call with
      | newVar => exact ih
      | addClause clause =>
          rw [ipasirCalls]
          cases rawClause true clause with
          | none => exact ih
          | some c => rfl
      | freezeVar l => exact ih
      | solve as b answer => exact IpasirCall.pending_assumes.trans ih

theorem assumptions_ipasirCalls : IpasirCall.assumptions (ipasirCalls t) = [] := by
  induction t with
  | nil => rfl
  | cons call t ih =>
      cases call with
      | newVar => exact ih
      | addClause clause =>
          rw [ipasirCalls]
          cases rawClause true clause with
          | none => exact ih
          | some c => exact IpasirCall.assumptions_adds.trans ih
      | freezeVar l => exact ih
      | solve as b answer => rfl

theorem clauses_ipasirCalls : IpasirCall.clauses (ipasirCalls t) = rawClauses true t := by
  induction t with
  | nil => rfl
  | cons call t ih =>
      cases call with
      | newVar => exact ih
      | addClause clause =>
          rw [ipasirCalls, rawClauses, Trace.clauses_addClause, List.filterMap_cons]
          cases rawClause true clause with
          | none => exact ih
          | some c =>
              rw [Option.elim_some, IpasirCall.clauses, if_pos rfl, rawCalls,
                IpasirCall.pending_adds ofRaw_map_ne_zero, pending_ipasirCalls, List.nil_append,
                rawLit_map_ofRaw, IpasirCall.clauses_adds ofRaw_map_ne_zero]
              exact congrArg (c :: ·) ih
      | freezeVar l => exact ih
      | solve as b answer => exact IpasirCall.clauses_assumes.trans ih

theorem natAbs_ofRaw_lt {N : ℕ} (hN : N ≤ IntLit.maxVars) (h : ∀ l ∈ as, l.Known N) :
    ∀ x ∈ (as.map (Lit.toRaw true)).map IpasirCall.ofRaw, x ≠ 0 ∧ x.natAbs < 2 ^ 31 := by
  rw [List.forall_mem_map, List.forall_mem_map]
  intro l hl
  refine ⟨IpasirCall.ofRaw_ne_zero _, ?_⟩
  have hknown := h l hl
  rw [IntLit.maxVars] at hN
  rw [IpasirCall.natAbs_ofRaw]
  cases l with
  | undef => exact hknown.elim
  | const b => exact hknown.elim
  | var b v =>
      have hv : v < N := hknown
      exact (Nat.succ_le_of_lt hv).trans_lt (hN.trans_lt (by decide))

theorem Trace.numVars_le_cons (call : Event) (t : Trace) : t.numVars ≤ numVars (call :: t) := by
  cases call with
  | newVar => exact Nat.le_succ _
  | addClause clause => exact le_rfl
  | freezeVar l => exact le_rfl
  | solve as b answer => exact le_rfl

theorem Trace.Accepted.wellUsed_ipasirCalls (h : t.Accepted) (hN : t.numVars ≤ IntLit.maxVars) :
    IpasirCall.WellUsed (ipasirCalls t) := by
  induction t with
  | nil => trivial
  | cons call t ih =>
      have hrest := (numVars_le_cons call t).trans hN
      cases call with
      | newVar => exact ih h hrest
      | addClause clause =>
          have hused := ih h.2 hrest
          obtain ⟨⟨c, hc, hknown⟩, -⟩ := h
          rw [ipasirCalls, rawClause, hc, Option.bind_some]
          by_cases htrue : c = [Lit.trueLit]
          · rw [if_pos htrue]
            exact hused
          · rw [if_neg htrue]
            have hlits := natAbs_ofRaw_lt hrest (hknown.resolve_left htrue)
            exact ⟨by decide, IpasirCall.wellUsed_adds (fun x hx => (hlits x hx).2) hused⟩
      | freezeVar l => exact ih h.2 hrest
      | solve as b answer =>
          refine ⟨IpasirCall.pending_assumes.trans pending_ipasirCalls, ?_⟩
          exact IpasirCall.wellUsed_assumes (natAbs_ofRaw_lt hrest h.1) (ih h.2 hrest)

end Calls

namespace IpasirInterface

/-- A `Solve` call on variables that are there, all of them in the range of an `int`. -/
structure Ready (t : Trace) (as : List Lit) : Prop extends SatReady t as where
  numVars_le : t.numVars ≤ IntLit.maxVars

/-- The calls before `ipasir_solve`. -/
def solveCalls (t : Trace) (as : List Lit) : List IpasirCall :=
  rawCalls .assume (as.map (Lit.toRaw true)) (ipasirCalls t)

/-- The model, when `ipasir_solve` returned 10. -/
def model (library : Ipasir) (calls : List IpasirCall) : Option (ℕ → LBool) :=
  if (library.answer calls).1 = 10 then some (Ipasir.model (library.answer calls).2) else none

/-- The solver that the class is. -/
noncomputable def solver (library : Ipasir) : Solver :=
  Solver.ofLibrary true Ready fun t as _ => model library (solveCalls t as)

section Solver

variable {library : Ipasir} {t : Trace} {as : List Lit}

theorem answer_solveCalls (h : library.Exact) (hready : Ready t as) :
    ((library.answer (solveCalls t as)).1 = 10 ∨ (library.answer (solveCalls t as)).1 = 20) ∧
      Answers (rawClauses true t) (as.map (Lit.toRaw true))
        (model library (solveCalls t as)) := by
  have hused : IpasirCall.WellUsed (solveCalls t as) :=
    IpasirCall.wellUsed_assumes (natAbs_ofRaw_lt hready.numVars_le hready.known)
      (hready.accepted.wellUsed_ipasirCalls hready.numVars_le)
  have hpending : IpasirCall.pending (solveCalls t as) = [] :=
    IpasirCall.pending_assumes.trans pending_ipasirCalls
  have hclauses : IpasirCall.clauses (solveCalls t as) = rawClauses true t :=
    IpasirCall.clauses_assumes.trans clauses_ipasirCalls
  have hassumptions : (IpasirCall.assumptions (solveCalls t as)).map IpasirCall.rawLit =
      as.map (Lit.toRaw true) := by
    rw [solveCalls, rawCalls, IpasirCall.assumptions_assumes, assumptions_ipasirCalls,
      List.nil_append, rawLit_map_ofRaw]
  have hexact := h _ hused hpending
  rwa [hclauses, hassumptions] at hexact

end Solver

/-! ## The functions of the class -/

/-- The data members after the calls. -/
structure Follows (b : Bool) (t : Trace) (s : IpasirInterface) : Prop where
  accepted : t.Accepted
  numVars : s.numVars = t.numVars
  calls : s.calls = ipasirCalls t
  state : b = true → s.state = .kSat
  model : b = true →
    t.lastAnswer = s.val.map fun val => restrictTo t.numVars (decode true (Ipasir.model val))

variable {b : Bool} {t : Trace} {s : IpasirInterface}

theorem Follows.newVar (h : Follows b t s) :
    ∃ s', IpasirInterface.newVar s = (some (Lit.var true t.numVars).toInt, s') ∧
      Follows false (.newVar :: t) s' := by
  have hnum : s.numVars + 1 = (t.numVars : ℤ) + 1 := congrArg (· + 1) h.numVars
  refine ⟨{ s with numVars := s.numVars + 1 }, ?_, h.accepted, hnum, h.calls,
    fun hb => absurd hb Bool.false_ne_true, fun hb => absurd hb Bool.false_ne_true⟩
  rw [IpasirInterface.newVar, modify_bind, get_bind, pure_run]
  exact congrArg (fun x => (some (IntLit.mk x), _)) hnum

/-- A loop that gives literals to the library. -/
theorem forM_calls (f : ℤ → IpasirCall) (ls : List IntLit) (s : IpasirInterface) :
    forM ls (fun lit : IntLit => AbortM.modify fun s : IpasirInterface =>
        { s with calls := f lit.value :: s.calls }) s =
      (some (), { s with calls := ((ls.map IntLit.value).map f).reverse ++ s.calls }) := by
  induction ls generalizing s with
  | nil => rfl
  | cons l ls ih =>
      rw [List.forM_cons, modify_bind, ih]
      refine congrArg (fun calls => (some (), { s with calls := calls })) ?_
      exact IpasirCall.reverse_map_cons.symm

theorem value_map_toInt {c : List Lit} {N : ℕ} (h : ∀ l ∈ c, l.Known N) :
    (c.map Lit.toInt).map IntLit.value = (c.map (Lit.toRaw true)).map IpasirCall.ofRaw := by
  rw [List.map_map, List.map_map]
  refine List.map_congr_left fun l hl => ?_
  have hknown := h l hl
  cases l with
  | undef => exact hknown.elim
  | const b => exact hknown.elim
  | var b v => cases b <;> rfl

theorem Follows.addClause (h : Follows b t s) {clause : List Lit}
    (hfits : t.Fits) (hclause : AcceptedClause t.numVars clause) :
    ∃ s', IpasirInterface.addClause (clause.map Lit.toInt) s = (some (), s') ∧
      Follows false (.addClause clause :: t) s' := by
  have haccepted : Trace.Accepted (.addClause clause :: t) := ⟨hclause, h.accepted⟩
  obtain ⟨c, hc, ⟨htaut, hraw⟩ | ⟨htaut, hknown, hraw⟩⟩ := hclause.toInt hfits
  · refine ⟨s, ?_, haccepted, h.numVars, ?_, fun hb => absurd hb Bool.false_ne_true,
      fun hb => absurd hb Bool.false_ne_true⟩
    · rw [IpasirInterface.addClause, hc, ofOption_bind, if_pos htaut]
      rfl
    · rw [ipasirCalls, hraw true]
      exact h.calls
  · have hloop := forM_calls .add (c.map Lit.toInt) s
    rw [value_map_toInt hknown] at hloop
    refine ⟨{ s with
        calls := .add 0 :: rawCalls .add (c.map (Lit.toRaw true)) s.calls
        state := .kInput }, ?_, haccepted, h.numVars, ?_,
      fun hb => absurd hb Bool.false_ne_true, fun hb => absurd hb Bool.false_ne_true⟩
    · rw [IpasirInterface.addClause, hc, ofOption_bind, if_neg (Bool.eq_false_iff.mp htaut),
        bind_of hloop]
      rfl
    · rw [ipasirCalls, hraw true]
      exact congrArg (fun calls => IpasirCall.add 0 :: rawCalls .add _ calls) h.calls

theorem Follows.solve {library : Ipasir} (hlibrary : library.Exact) (h : Follows b t s)
    {as : List Lit} {allowSimp : Bool} (hready : Ready t as) :
    ∃ s', IpasirInterface.solve library (as.map Lit.toInt) allowSimp s =
        (some ((solver library).answer t as allowSimp).isSome, s') ∧
      Follows ((solver library).answer t as allowSimp).isSome
        (.solve as allowSimp ((solver library).answer t as allowSimp) :: t) s' := by
  have hloop := forM_calls .assume (as.map Lit.toInt) s
  rw [value_map_toInt hready.known, h.calls] at hloop
  have hstatus := (answer_solveCalls hlibrary hready).1
  have hassert : (decide ((library.answer (solveCalls t as)).1 = 10) ||
      decide ((library.answer (solveCalls t as)).1 = 20)) = true := by
    rwa [Bool.or_eq_true, decide_eq_true_iff, decide_eq_true_iff]
  have haccepted : Trace.Accepted (.solve as allowSimp
      ((solver library).answer t as allowSimp) :: t) := ⟨hready.known, h.accepted⟩
  rw [IpasirInterface.solve, bind_of hloop, get_bind, modify_bind]
  by_cases hten : (library.answer (solveCalls t as)).1 = 10
  · have hanswer : (solver library).answer t as allowSimp =
        some (restrictTo t.numVars
          (decode true (Ipasir.model (library.answer (solveCalls t as)).2))) := by
      rw [solver, Solver.ofLibrary_of_ok hready, IpasirInterface.model, if_pos hten,
        Option.map_some]
    rw [hanswer] at haccepted ⊢
    refine ⟨{ s with
        state := .kSat
        calls := .solve :: solveCalls t as
        val := some (library.answer (solveCalls t as)).2 }, ?_, haccepted, h.numVars, rfl,
      fun _ => rfl, fun _ => rfl⟩
    exact (assert_bind hassert).trans ((congrFun (if_pos hten) _).trans rfl)
  · have hanswer : (solver library).answer t as allowSimp = none := by
      rw [solver, Solver.ofLibrary_of_ok hready, IpasirInterface.model, if_neg hten,
        Option.map_none]
    rw [hanswer] at haccepted ⊢
    refine ⟨{ s with
        state := .kUnsat
        calls := .solve :: solveCalls t as
        val := some (library.answer (solveCalls t as)).2 }, ?_, haccepted, h.numVars, rfl,
      fun hb => absurd hb Bool.false_ne_true, fun hb => absurd hb Bool.false_ne_true⟩
    exact (assert_bind hassert).trans ((congrFun (if_neg hten) _).trans rfl)

theorem Follows.solutionValue (h : Follows true t s) {l : Lit} {σ : ℕ → Bool}
    (hσ : t.lastAnswer = some σ) (hl : l.Valid t.numVars)
    (hfits : t.numVars ≤ IntLit.maxVars) :
    IpasirInterface.solutionValue l.toInt s = (some (l.eval σ), s) := by
  have hvalid := hl.mono hfits
  rw [IpasirInterface.solutionValue, get_bind, assert_bind (decide_eq_true (h.state rfl)),
    Lit.isDef_toInt, assert_bind hl.isDef, hvalid.isTrue_toInt, hvalid.isFalse_toInt]
  cases l with
  | undef => exact hl.elim
  | const c => cases c <;> rfl
  | var c v =>
      have hmodel := (h.model rfl).symm.trans hσ
      obtain ⟨val, hsome, rfl⟩ := Option.map_eq_some_iff.mp hmodel
      have hin : (decide ((Lit.var c v).toInt.value ≠ 0) &&
          decide ((Lit.var c v).toInt.value ≤ s.numVars)) = true := by
        have habs := Lit.natAbs_toInt (b := c) (v := v)
        have hv : v < t.numVars := hl
        rw [Bool.and_eq_true, decide_eq_true_iff, decide_eq_true_iff, h.numVars]
        exact ⟨Lit.toInt_ne_zero, by omega⟩
      have htrue : (Lit.var c v).isTrue = false := rfl
      have hfalse : (Lit.var c v).isFalse = false := rfl
      rw [htrue, hfalse, if_neg Bool.false_ne_true, if_neg Bool.false_ne_true,
        assert_bind hin, hsome, ofOption_bind, Lit.natAbs_toInt, pure_run]
      refine congrArg (fun x => (some x, s)) ?_
      have hval : decide (val ((v + 1 : ℕ) : ℤ) = ((v + 1 : ℕ) : ℤ)) =
          decide (Ipasir.model val v = .lTrue) := by
        rw [Ipasir.model, decide_eq_decide, Nat.cast_succ]
        by_cases hv : val ((v : ℤ) + 1) = (v : ℤ) + 1
        · rw [if_pos hv]
          exact iff_of_true hv rfl
        · rw [if_neg hv]
          refine iff_of_false hv ?_
          split
          · exact LBool.noConfusion
          · exact LBool.noConfusion
      rw [Lit.eval, restrictTo_of_lt hl, decode, if_pos rfl, hval]
      cases c with
      | false =>
          rw [if_neg (Lit.toInt_pos_iff.not.mpr Bool.false_ne_true),
            if_neg Bool.false_ne_true]
      | true => rw [if_pos (Lit.toInt_pos_iff.mpr rfl), if_pos rfl]

end IpasirInterface

end Triangulator
