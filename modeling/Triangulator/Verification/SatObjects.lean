import Triangulator.Verification.SatClasses

/-!
# Programs on an object

The answers of an object are those of a correct solver as long as the class implements the
solver on the calls made so far.  So a program has the same run with both, and the object
returns what the program returns.
-/

namespace Triangulator

open AbortM

/-! ## Traces of a solver -/

/-- A call to the solver that passes its assertions, with the answer of the solver. -/
def Event.MadeWith (solver : Solver) (t : Trace) : Event → Prop
  | .newVar => True
  | .addClause clause => AcceptedClause t.numVars clause
  | .freezeVar l => l.Known t.numVars
  | .solve as b answer => (∀ l ∈ as, l.Known t.numVars) ∧ answer = solver.answer t as b

/-- All calls to the solver passed their assertions. -/
def Trace.MadeWith (solver : Solver) : Trace → Prop
  | [] => True
  | call :: t => call.MadeWith solver t ∧ MadeWith solver t

section Component

variable {solver : Solver} {t : Trace}

/-- What a call leaves. -/
theorem component_state (solver : Solver) (c : SatCall) (t : Trace) :
    (solver.component c t).2 = t ∨
      ∃ call, (solver.component c t).2 = call :: t ∧ call.MadeWith solver t := by
  apply state_of_wp (R := fun t' : Trace => t' = t ∨
    ∃ call : Event, t' = call :: t ∧ call.MadeWith solver t)
  cases c with
  | newVar => exact Or.inr ⟨_, rfl, trivial⟩
  | addClause clause =>
      exact wp_mono wp_addClause_run (fun _ _ h => Or.inr ⟨_, h⟩) fun _ => Or.inl
  | freezeVar l =>
      exact wp_mono wp_freezeVar_run (fun _ _ h => Or.inr ⟨_, h⟩) fun _ => Or.inl
  | solve as b =>
      exact wp_mono wp_solve_run (fun _ _ h => Or.inr ⟨_, h.1, h.2.2, rfl⟩) fun _ => Or.inl
  | solutionValue l =>
      exact wp_mono wp_solutionValue_run (fun _ _ h => Or.inl h.1) fun _ => Or.inl

theorem Trace.MadeWith.component (h : t.MadeWith solver) (c : SatCall) :
    MadeWith solver (solver.component c t).2 := by
  rcases component_state solver c t with heq | ⟨call, heq, hcall⟩
  · rw [heq]
    exact h
  · rw [heq]
    exact ⟨hcall, h⟩

theorem component_back {B : Trace → Prop} (hB : ∀ call t, B (call :: t) → B t) (solver : Solver)
    (c : SatCall) (t : Trace) (h : B (solver.component c t).2) : B t := by
  rcases component_state solver c t with heq | ⟨call, heq, -⟩
  · rw [heq] at h
    exact h
  · rw [heq] at h
    exact hB call t h

variable {as : List Lit} {b : Bool}

theorem solve_of_known (h : ∀ l ∈ as, l.Known t.numVars) :
    solve solver as b t = (some (solver.answer t as b).isSome,
      .solve as b (solver.answer t as b) :: t) := by
  have hall : (as.all fun l => l.isKnown t.numVars) = true :=
    List.all_eq_true.mpr fun l hl => Lit.isKnown_iff.mpr (h l hl)
  rw [solve, get_bind, assert_bind hall, modify_bind]
  rfl

theorem solve_of_unknown (h : ¬∀ l ∈ as, l.Known t.numVars) :
    solve solver as b t = (none, t) := by
  have hall : (as.all fun l => l.isKnown t.numVars) = false := by
    rw [Bool.eq_false_iff]
    exact fun hall => h fun l hl => Lit.isKnown_iff.mp (List.all_eq_true.mp hall l hl)
  rw [solve, get_bind, hall]
  rfl

end Component

/-! ## The answers of an object -/

namespace SatInterface.Implements

variable {I : SatInterface} {solver : Solver} {B : Trace → Prop}
  {R : Bool → Trace → I.State → Prop} {t : Trace} {as : List Lit} {allowSimp : Bool}

/-- No call to the object fails, and it follows the calls. -/
theorem exists_object (h : I.Implements solver B R) (ht : t.MadeWith solver) (hB : B t) :
    ∃ b s, I.object t = some s ∧ R b t s := by
  induction t with
  | nil => exact ⟨false, I.init, rfl, h.init⟩
  | cons call t ih =>
      obtain ⟨b, s, hs, hR⟩ := ih ht.2 (h.back call t hB)
      have hcall : ∃ b' s', I.call call s = (some (), s') ∧ R b' (call :: t) s' := by
        cases call with
        | newVar =>
            obtain ⟨s', hnew, hR'⟩ := h.newVar hR hB
            exact ⟨_, s', bind_of hnew, hR'⟩
        | addClause clause =>
            obtain ⟨s', hadd, hR'⟩ := h.addClause hR hB ht.1
            exact ⟨_, s', hadd, hR'⟩
        | freezeVar l =>
            obtain ⟨s', hfreeze, hR'⟩ := h.freezeVar hR ht.1
            exact ⟨_, s', hfreeze, hR'⟩
        | solve as b answer =>
            obtain ⟨hknown, rfl⟩ := ht.1
            obtain ⟨s', hsolve, hR'⟩ := h.solve hR hB hknown
            exact ⟨_, s', bind_of hsolve, hR'⟩
      obtain ⟨b', s', hrun, hR'⟩ := hcall
      refine ⟨b', s', ?_, hR'⟩
      rw [object, hs, Option.bind_some, hrun]
      rfl

/-- The object answers as the solver does. -/
theorem answer_eq (h : I.Implements solver B R) (ht : t.MadeWith solver)
    (has : ∀ l ∈ as, l.Known t.numVars)
    (hB : B (.solve as allowSimp (solver.answer t as allowSimp) :: t)) :
    I.solver.answer t as allowSimp = solver.answer t as allowSimp := by
  obtain ⟨b, s, hs, hR⟩ := h.exists_object ht (h.back _ _ hB)
  obtain ⟨s', hsolve, hR'⟩ := h.solve hR hB has
  have hobject : I.solver.answer t as allowSimp =
      if (solver.answer t as allowSimp).isSome then some (restrictTo t.numVars (I.value s'))
      else none := by
    rw [SatInterface.solver]
    dsimp only
    rw [hs, Option.bind_eq_bind, Option.bind_some, hsolve]
    rfl
  rw [hobject]
  cases hanswer : solver.answer t as allowSimp with
  | none => rfl
  | some σ =>
      rw [hanswer] at hB hR'
      rw [Option.isSome_some, if_pos rfl, Option.some_inj]
      funext v
      rcases lt_or_ge v t.numVars with hv | hv
      · have hvalue := h.solutionValue (l := .var true v) hR' hB rfl (fun _ => by simp) hv
        rw [restrictTo_of_lt hv, value, hvalue, Lit.eval_var_true]
        simp
      · rw [restrictTo_of_le hv, h.support hR hB has hanswer v hv]

/-- A program has the same run with the object and with the solver, when the calls of the
two runs are among those on which the class implements the solver. -/
theorem run_eq (h : I.Implements solver B R) {P F : Trace → Prop}
    (hback : ∀ call t, P (call :: t) → P t) (hbackF : ∀ call t, F (call :: t) → F t)
    (hB : ∀ t as b answer, P (.solve as b (solver.answer t as b) :: t) →
      F (.solve as b answer :: t) → B (.solve as b (solver.answer t as b) :: t))
    {α : Type} (client : Client SatCall SatCall.Reply α)
    (hend : P (client.run solver.component []).2)
    (hendF : F (client.run I.solver.component []).2) :
    client.run I.solver.component [] = client.run solver.component [] := by
  refine Client.run_congr (J := Trace.MadeWith solver) (fun c t ht => ht.component c)
    (component_back hback solver) (component_back hbackF I.solver) ?_ client trivial hend hendF
  intro c t ht hP hF
  cases c with
  | newVar => rfl
  | addClause clause => rfl
  | freezeVar l => rfl
  | solutionValue l => rfl
  | solve as b =>
      change Triangulator.solve I.solver as b t = Triangulator.solve solver as b t
      by_cases has : ∀ l ∈ as, l.Known t.numVars
      · have hP : P (Triangulator.solve solver as b t).2 := hP
        have hF : F (Triangulator.solve I.solver as b t).2 := hF
        rw [solve_of_known has] at hP hF
        rw [solve_of_known has, solve_of_known has, h.answer_eq ht has (hB t as b _ hP hF)]
      · rw [solve_of_unknown has, solve_of_unknown has]

/-- The object returns what the program returns. -/
theorem run_object (h : I.Implements solver B R) {α : Type} {m : Solver → SatM α}
    (hm : m I.solver [] = m solver []) (hmade : (m solver []).2.MadeWith solver)
    (hB : B (m solver []).2) : I.run m = (m solver []).1 := by
  obtain ⟨b, s, hs, -⟩ := h.exists_object hmade hB
  rw [run, hm, hs]
  cases (m solver []).1 with
  | none => rfl
  | some a => rfl

end SatInterface.Implements

/-! ## Runs that are cut off -/

section Until

variable {solver : Solver} {N : ℕ} {t u : Trace} {α : Type}

end Until

end Triangulator
