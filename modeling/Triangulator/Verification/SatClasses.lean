import Triangulator.Verification.SatEncodings
import Triangulator.Verification.SatLibraries

/-!
# Classes that implement the interface to a solver

A class follows the calls made so far when its data members and the calls to its library are
those that the calls leave.  Each function of the class keeps this and returns what a solver
returns, so that every client of the interface gets the same result.
-/

namespace Triangulator

open AbortM

/-- The calls of a client, with its literals as integers. -/
def SatInterface.component (I : SatInterface) : ∀ c : SatCall, AbortM I.State c.Reply
  | .newVar => do
      let lit ← I.newVar
      pure (lit.value.natAbs - 1)
  | .addClause clause => I.addClause (clause.map Lit.toInt)
  | .freezeVar lit => I.freezeVar lit.toInt
  | .solve assumptions allowSimp => I.solve (assumptions.map Lit.toInt) allowSimp
  | .solutionValue lit => I.solutionValue lit.toInt

/-! ## The functions of a solver

They return after they logged their call, or they abort and log nothing. -/

section Returns

variable {t t' : Trace} {r : Unit}

theorem wp_addClause_run {clause : List Lit} :
    wp (addClause clause)
      (fun _ t' => t' = .addClause clause :: t ∧ AcceptedClause t.numVars clause)
      (fun t' => t' = t) t := by
  rw [addClause, wp_bind]
  cases hc : processClause clause with
  | none => exact rfl
  | some c =>
      rw [wp_ofOption_some, wp_bind, wp_get, wp_bind, wp_assert]
      split
      · rename_i hb
        refine ⟨rfl, c, hc, ?_⟩
        rw [Bool.or_eq_true, decide_eq_true_iff, List.all_eq_true] at hb
        exact hb.imp_right fun hall l hl => Lit.isKnown_iff.mp (hall l hl)
      · exact rfl

theorem addClause_returns {clause : List Lit} (h : addClause clause t = (some r, t')) :
    t' = .addClause clause :: t ∧ AcceptedClause t.numVars clause := by
  have hpost := post_of_wp wp_addClause_run h
  exact hpost

theorem wp_freezeVar_run {l : Lit} :
    wp (freezeVar l) (fun _ t' => t' = .freezeVar l :: t ∧ l.Known t.numVars)
      (fun t' => t' = t) t := by
  rw [freezeVar, wp_bind, wp_get, wp_bind, wp_assert]
  split
  · rename_i hb
    exact ⟨rfl, Lit.isKnown_iff.mp hb⟩
  · exact rfl

theorem freezeVar_returns {l : Lit} (h : freezeVar l t = (some r, t')) :
    t' = .freezeVar l :: t ∧ l.Known t.numVars := by
  have hpost := post_of_wp wp_freezeVar_run h
  exact hpost

theorem wp_solve_run {solver : Solver} {as : List Lit} {b : Bool} :
    wp (solve solver as b) (fun sat t' =>
      t' = .solve as b (solver.answer t as b) :: t ∧ sat = (solver.answer t as b).isSome ∧
        ∀ l ∈ as, l.Known t.numVars) (fun t' => t' = t) t := by
  rw [solve, wp_bind, wp_get, wp_bind, wp_assert]
  split
  · rename_i hb
    exact ⟨rfl, rfl, fun l hl => Lit.isKnown_iff.mp (List.all_eq_true.mp hb l hl)⟩
  · exact rfl

theorem solve_returns {solver : Solver} {as : List Lit} {b sat : Bool}
    (h : solve solver as b t = (some sat, t')) :
    t' = .solve as b (solver.answer t as b) :: t ∧ sat = (solver.answer t as b).isSome ∧
      ∀ l ∈ as, l.Known t.numVars := by
  have hpost := post_of_wp wp_solve_run h
  exact hpost

theorem wp_solutionValue_run {l : Lit} :
    wp (solutionValue l) (fun value t' =>
      t' = t ∧ l.Valid t.numVars ∧ ∃ σ, t.lastAnswer = some σ ∧ value = l.eval σ)
      (fun t' => t' = t) t := by
  rw [solutionValue, wp_bind, wp_get, wp_bind]
  cases hσ : t.lastAnswer with
  | none => exact rfl
  | some σ =>
      rw [wp_ofOption_some, wp_bind, wp_assert]
      split
      · rename_i hb
        refine ⟨rfl, ?_, σ, rfl, rfl⟩
        cases l with
        | undef => cases hb
        | const b => trivial
        | var b v =>
            simp only [Bool.and_eq_true, Bool.or_eq_true, decide_eq_true_iff, reduceCtorEq,
              false_or] at hb
            exact Lit.isKnown_iff.mp hb.2
      · exact rfl

theorem solutionValue_returns {l : Lit} {value : Bool}
    (h : solutionValue l t = (some value, t')) :
    t' = t ∧ l.Valid t.numVars ∧ ∃ σ, t.lastAnswer = some σ ∧ value = l.eval σ := by
  have hpost := post_of_wp wp_solutionValue_run h
  exact hpost

end Returns

/-! ## Integers -/

/-- The variables have integers. -/
def Trace.Fits (t : Trace) : Prop :=
  t.numVars ≤ IntLit.maxVars

theorem Trace.Fits.back {call : Event} {t : Trace} (h : Fits (call :: t)) : t.Fits := by
  cases call with
  | newVar => exact (Nat.le_succ _).trans h
  | addClause clause => exact h
  | freezeVar l => exact h
  | solve as b answer => exact h

/-- What a class makes of a clause. -/
theorem AcceptedClause.toInt {N : ℕ} {clause : List Lit} (h : AcceptedClause N clause)
    (hN : N ≤ IntLit.maxVars) :
    ∃ c : List Lit, IntLit.processClause (clause.map Lit.toInt) = some (c.map Lit.toInt) ∧
      ((IntLit.isTautology (c.map Lit.toInt) = true ∧ ∀ p, rawClause p clause = none) ∨
        IntLit.isTautology (c.map Lit.toInt) = false ∧ (∀ l ∈ c, l.Known N) ∧
          ∀ p, rawClause p clause = some (c.map (Lit.toRaw p))) := by
  obtain ⟨c, hc, hor⟩ := h
  by_cases htrue : c = [Lit.trueLit]
  · subst htrue
    refine ⟨[Lit.trueLit], ?_, Or.inl ⟨rfl, fun p => ?_⟩⟩
    · exact processClauseLoop_tautology hc List.not_mem_nil (Finset.notMem_empty _) (by simp)
    · rw [rawClause, hc, Option.bind_some, if_pos rfl]
  · have hknown := hor.resolve_left htrue
    have hcvalid : ∀ l ∈ c, l.Valid IntLit.maxVars := fun l hl => (hknown l hl).valid.mono hN
    have hvalid : ∀ l ∈ clause, l.Valid IntLit.maxVars := by
      intro l hl
      rcases (processClauseLoop_kept hc htrue).2 l hl with hl | rfl
      · exact hcvalid l hl
      · trivial
    refine ⟨c, by rw [processClause_toInt hvalid, hc, Option.map_some],
      Or.inr ⟨?_, hknown, fun p => ?_⟩⟩
    · rw [isTautology_toInt hcvalid]
      exact decide_eq_false htrue
    · rw [rawClause, hc, Option.bind_some, if_neg htrue]

/-- The literals of a library, one by one. -/
theorem mapM_toInt {f : IntLit → Option RawLit} {p : Bool} {c : List Lit}
    (h : ∀ l ∈ c, f l.toInt = some (l.toRaw p)) :
    (c.map Lit.toInt).mapM f = some (c.map (Lit.toRaw p)) := by
  induction c with
  | nil => rfl
  | cons l c ih =>
      rw [List.map_cons, List.mapM_cons, h l List.mem_cons_self, Option.bind_eq_bind,
        Option.bind_some, ih fun l' hl' => h l' (List.mem_cons_of_mem _ hl')]
      rfl

/-! ## Classes -/

/-- The functions of the class do what those of the solver do, on calls after which `B`
holds. -/
structure SatInterface.Implements (I : SatInterface) (solver : Solver) (B : Trace → Prop)
    (R : Bool → Trace → I.State → Prop) : Prop where
  init : R false [] I.init
  back : ∀ call t, B (call :: t) → B t
  newVar : ∀ {b t s}, R b t s → B (.newVar :: t) →
    ∃ s', I.newVar s = (some (Lit.var true t.numVars).toInt, s') ∧ R false (.newVar :: t) s'
  addClause : ∀ {b t s} {clause : List Lit}, R b t s → B (.addClause clause :: t) →
    AcceptedClause t.numVars clause →
    ∃ s', I.addClause (clause.map Lit.toInt) s = (some (), s') ∧
      R false (.addClause clause :: t) s'
  freezeVar : ∀ {b t s} {l : Lit}, R b t s → l.Known t.numVars →
    ∃ s', I.freezeVar l.toInt s = (some (), s') ∧ R false (.freezeVar l :: t) s'
  solve : ∀ {b t s} {as : List Lit} {allowSimp : Bool}, R b t s →
    B (.solve as allowSimp (solver.answer t as allowSimp) :: t) →
    (∀ l ∈ as, l.Known t.numVars) →
    ∃ s', I.solve (as.map Lit.toInt) allowSimp s =
        (some (solver.answer t as allowSimp).isSome, s') ∧
      R (solver.answer t as allowSimp).isSome
        (.solve as allowSimp (solver.answer t as allowSimp) :: t) s'
  support : ∀ {b t s} {as : List Lit} {allowSimp : Bool} {σ : ℕ → Bool}, R b t s →
    B (.solve as allowSimp (some σ) :: t) → (∀ l ∈ as, l.Known t.numVars) →
    solver.answer t as allowSimp = some σ → ∀ v, t.numVars ≤ v → σ v = false
  solutionValue : ∀ {t s} {l : Lit} {σ : ℕ → Bool}, R true t s → B t → t.lastAnswer = some σ →
    l.Readable → l.Valid t.numVars → I.solutionValue l.toInt s = (some (l.eval σ), s)

theorem SatInterface.Implements.simulates {I : SatInterface} {solver : Solver}
    {B : Trace → Prop} {R : Bool → Trace → I.State → Prop} (h : I.Implements solver B R)
    (P : Event → Prop) :
    Client.Simulates (satProtocol P ReadsModel) B R solver.component I.component := by
  constructor
  · intro c t r t' hcall hB
    cases c with
    | newVar =>
        obtain ⟨-, rfl⟩ := Prod.mk.inj hcall
        exact h.back _ _ hB
    | addClause clause =>
        obtain ⟨rfl, -⟩ := addClause_returns hcall
        exact h.back _ _ hB
    | freezeVar l =>
        obtain ⟨rfl, -⟩ := freezeVar_returns hcall
        exact h.back _ _ hB
    | solve as b =>
        obtain ⟨rfl, -⟩ := solve_returns hcall
        exact h.back _ _ hB
    | solutionValue l =>
        obtain ⟨rfl, -⟩ := solutionValue_returns hcall
        exact hB
  · intro b c t s r t' hallowed hR hB hcall
    cases c with
    | newVar =>
        obtain ⟨hr, rfl⟩ := Prod.mk.inj hcall
        obtain ⟨s', hnew, hR'⟩ := h.newVar hR hB
        refine ⟨s', ?_, hR'⟩
        rw [component, bind_of hnew, Lit.natAbs_toInt]
        exact Prod.ext hr rfl
    | addClause clause =>
        obtain ⟨rfl, haccepted⟩ := addClause_returns hcall
        exact h.addClause hR hB haccepted
    | freezeVar l =>
        obtain ⟨rfl, hknown⟩ := freezeVar_returns hcall
        exact h.freezeVar hR hknown
    | solve as allowSimp =>
        obtain ⟨rfl, rfl, hknown⟩ := solve_returns hcall
        exact h.solve hR hB hknown
    | solutionValue l =>
        obtain ⟨rfl, hvalid, σ, hσ, rfl⟩ := solutionValue_returns hcall
        obtain ⟨rfl, hread⟩ := hallowed
        exact ⟨s, h.solutionValue hR hB hσ hread hvalid, hR⟩

end Triangulator
