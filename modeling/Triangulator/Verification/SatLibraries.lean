import Triangulator.Verification.IntLiterals

/-!
# Solvers over a library

What the calls to a class tell its library, and what the answers of the library mean.  The
classes over a `SimpSolver` give it the negations of all literals, so that a polarity says
which value of the library stands for a true variable.
-/

namespace Triangulator

open AbortM

/-! ## Answers of a library -/

def RawLit.eval (σ : ℕ → Bool) (l : RawLit) : Bool := σ l.var != l.sign

/-- The assignment gives every variable the value that it has in the model. -/
def LBool.Completes (model : ℕ → LBool) (σ : ℕ → Bool) : Prop :=
  ∀ v, (model v = .lTrue → σ v = true) ∧ (model v = .lFalse → σ v = false)

/-- The assignment makes the clauses and the assumptions true. -/
def Satisfies (σ : ℕ → Bool) (clauses : List (List RawLit)) (as : List RawLit) : Prop :=
  (∀ c ∈ clauses, ∃ l ∈ c, l.eval σ = true) ∧ ∀ l ∈ as, l.eval σ = true

/-- The answer is a model, of which every completion satisfies the clauses and the
assumptions, or there is no such assignment. -/
structure Answers (clauses : List (List RawLit)) (as : List RawLit)
    (answer : Option (ℕ → LBool)) : Prop where
  sound : ∀ model, answer = some model → ∀ σ, LBool.Completes model σ → Satisfies σ clauses as
  complete : answer = none → ∀ σ, ¬Satisfies σ clauses as

/-! ## Literals -/

/-- The literal of a library in which a positive literal has a sign unless `p` holds. -/
def Lit.toRaw (p : Bool) : Lit → RawLit
  | .var b v => ⟨v, b != p⟩
  | _ => ⟨0, false⟩

/-- The values of the variables in a model of the library. -/
def decode (p : Bool) (model : ℕ → LBool) (v : ℕ) : Bool :=
  decide (model v = if p then .lTrue else .lFalse)

/-- An assignment of the library in terms of the variables. -/
def flip (p : Bool) (σ : ℕ → Bool) (v : ℕ) : Bool := σ v == p

section Restrict

variable {N v : ℕ} {σ : ℕ → Bool}

theorem restrictTo_of_lt (h : v < N) : restrictTo N σ v = σ v := by
  rw [restrictTo, decide_eq_true h, Bool.true_and]

theorem restrictTo_of_le (h : N ≤ v) : restrictTo N σ v = false := by
  rw [restrictTo, decide_eq_false h.not_gt, Bool.false_and]

end Restrict

/-! ## Accepted calls -/

/-- The clause that a class gives to its library, if any. -/
def rawClause (p : Bool) (clause : List Lit) : Option (List RawLit) :=
  (processClause clause).bind fun c =>
    if c = [Lit.trueLit] then none else some (c.map (Lit.toRaw p))

def rawClauses (p : Bool) (t : Trace) : List (List RawLit) :=
  t.clauses.filterMap (rawClause p)

/-- The clause passes the assertions of `AddClause` when there are `N` variables. -/
def AcceptedClause (N : ℕ) (clause : List Lit) : Prop :=
  ∃ c, processClause clause = some c ∧ (c = [Lit.trueLit] ∨ ∀ l ∈ c, l.Known N)

/-- All calls passed their assertions. -/
def Trace.Accepted : Trace → Prop
  | [] => True
  | .newVar :: t => Accepted t
  | .addClause clause :: t => AcceptedClause (numVars t) clause ∧ Accepted t
  | .freezeVar l :: t => l.Known (numVars t) ∧ Accepted t
  | .solve as _ _ :: t => (∀ l ∈ as, l.Known (numVars t)) ∧ Accepted t

/-- A `Solve` call on variables that are there. -/
structure SatReady (t : Trace) (as : List Lit) : Prop where
  accepted : t.Accepted
  known : ∀ l ∈ as, l.Known t.numVars

theorem Trace.Accepted.clause {t : Trace} (h : t.Accepted) {clause : List Lit}
    (hmem : clause ∈ t.clauses) : ∃ N ≤ t.numVars, AcceptedClause N clause := by
  induction t with
  | nil => cases hmem
  | cons call t ih =>
      cases call with
      | newVar =>
          obtain ⟨N, hN, hclause⟩ := ih h hmem
          exact ⟨N, hN.trans (Nat.le_succ _), hclause⟩
      | addClause cl =>
          rcases List.mem_cons.mp hmem with rfl | hmem
          · exact ⟨_, le_rfl, h.1⟩
          · exact ih h.2 hmem
      | freezeVar l => exact ih h.2 hmem
      | solve as b answer => exact ih h.2 hmem

open Classical in
/-- The solver that answers what the library answers when the calls obey its rules. -/
noncomputable def Solver.ofLibrary (p : Bool) (ok : Trace → List Lit → Prop)
    (answer : Trace → List Lit → Bool → Option (ℕ → LBool)) : Solver where
  answer t as b :=
    if ok t as then (answer t as b).map fun model => restrictTo t.numVars (decode p model)
    else Solver.choice.answer t as b

section OfLibrary

variable {p : Bool} {ok : Trace → List Lit → Prop}
  {answer : Trace → List Lit → Bool → Option (ℕ → LBool)} {t : Trace} {as : List Lit} {b : Bool}

theorem Solver.ofLibrary_of_ok (h : ok t as) :
    (ofLibrary p ok answer).answer t as b =
      (answer t as b).map fun model => restrictTo t.numVars (decode p model) :=
  if_pos h

end OfLibrary

end Triangulator
