import Triangulator.Model.FixedSize
import Triangulator.Program.Client
import Triangulator.Verification.SatCalls

/-!
# The programs that use a solver

The encodings and the search use a solver only through the functions of `SatInterface`, so
that they are clients of it.  The protocol fixes which calls are made, and that a model is
read before the next call that could change it.
-/

namespace Triangulator

open AbortM

/-! ## Calls -/

/-- A call to a solver. -/
inductive SatCall
  | newVar
  | addClause (clause : List Lit)
  | freezeVar (lit : Lit)
  | solve (assumptions : List Lit) (allowSimp : Bool)
  | solutionValue (lit : Lit)

/-- What a call returns; a new literal is known by its variable. -/
def SatCall.Reply : SatCall → Type
  | newVar => ℕ
  | addClause _ => Unit
  | freezeVar _ => Unit
  | solve _ _ => Bool
  | solutionValue _ => Bool

/-- The functions of `SatInterface` on the calls made so far. -/
def Solver.component (solver : Solver) : ∀ c : SatCall, SatM c.Reply
  | .newVar => do
      let t ← get
      modify (Event.newVar :: ·)
      pure t.numVars
  | .addClause clause => addClause clause
  | .freezeVar lit => freezeVar lit
  | .solve assumptions allowSimp => solve solver assumptions allowSimp
  | .solutionValue lit => solutionValue lit

/-- Whether the last call, apart from those that read its model, was a `Solve` call that
found one. -/
def SatCall.solved (b : Bool) : ∀ c : SatCall, c.Reply → Bool
  | .newVar, _ => false
  | .addClause _, _ => false
  | .freezeVar _, _ => false
  | .solve _ _, answer => answer
  | .solutionValue _, _ => b

/-- The call makes an event in `P`, or it reads a value that can be read. -/
def SatCall.Allowed (P : Event → Prop) (reads : Bool → Lit → Prop) (b : Bool) :
    SatCall → Prop
  | .newVar => P .newVar
  | .addClause clause => P (.addClause clause)
  | .freezeVar lit => P (.freezeVar lit)
  | .solve assumptions allowSimp => ∀ answer, P (.solve assumptions allowSimp answer)
  | .solutionValue lit => reads b lit

abbrev satProtocol (P : Event → Prop) (reads : Bool → Lit → Prop) :
    Protocol SatCall SatCall.Reply where
  Mode := Bool
  allowed := SatCall.Allowed P reads
  next := SatCall.solved

/-- The program makes the calls in `P` and reads what can be read. -/
abbrev Uses {α : Type} (P : Event → Prop) (reads : Bool → Lit → Prop) (Q : Bool → α → Prop)
    (b : Bool) (m : Solver → SatM α) : Prop :=
  Client.Plays (satProtocol P reads) Solver.component Q b m

/-- The program makes the calls in `P`, after any other calls. -/
def Builds {α : Type} (P : Event → Prop) (m : SatM α) : Prop :=
  ∀ reads b, Uses P reads (fun _ _ => True) b fun _ => m

section Rules

variable {α β ι : Type} {P : Event → Prop} {reads : Bool → Lit → Prop} {b : Bool}

theorem uses_newVar {Q : Bool → Lit → Prop} (h : P .newVar) (hQ : ∀ v, Q false (.var true v)) :
    Uses P reads Q b fun _ => newVar := by
  have hcall : Uses P reads Q b fun solver =>
      solver.component .newVar >>= fun v => pure (Lit.var true v) :=
    .call h fun v => .done (hQ v)
  exact hcall

theorem uses_addClause {Q : Bool → Unit → Prop} {clause : List Lit} (h : P (.addClause clause))
    (hQ : Q false ()) : Uses P reads Q b fun _ => addClause clause :=
  Client.Plays.single (c := SatCall.addClause clause) h fun _ => hQ

theorem uses_freezeVar {Q : Bool → Unit → Prop} {lit : Lit} (h : P (.freezeVar lit))
    (hQ : Q false ()) : Uses P reads Q b fun _ => freezeVar lit :=
  Client.Plays.single (c := SatCall.freezeVar lit) h fun _ => hQ

theorem uses_solve {Q : Bool → Bool → Prop} {as : List Lit} {allowSimp : Bool}
    (h : ∀ answer, P (.solve as allowSimp answer)) (hQ : ∀ sat, Q sat sat) :
    Uses P reads Q b fun solver => solve solver as allowSimp :=
  Client.Plays.single (c := SatCall.solve as allowSimp) h hQ

theorem uses_solutionValue {Q : Bool → Bool → Prop} {lit : Lit} (h : reads b lit)
    (hQ : ∀ value, Q b value) : Uses P reads Q b fun _ => solutionValue lit :=
  Client.Plays.single (c := SatCall.solutionValue lit) h hQ

end Rules

/-- More calls. -/
theorem Uses.imp_calls {α : Type} {P P' : Event → Prop} {reads : Bool → Lit → Prop}
    {Q : Bool → α → Prop} {b : Bool} {m : Solver → SatM α} (h : Uses P reads Q b m)
    (hP : ∀ call, P call → P' call) : Uses P' reads Q b m := by
  refine Client.Plays.weaken h fun mode c hc => ?_
  cases c with
  | newVar => exact hP _ hc
  | addClause clause => exact hP _ hc
  | freezeVar lit => exact hP _ hc
  | solve as allowSimp => exact fun answer => hP _ (hc answer)
  | solutionValue lit => exact hc

/-! ## Events -/

/-- A call that creates a variable or adds a clause. -/
def Event.Quiet : Event → Prop
  | .newVar => True
  | .addClause _ => True
  | _ => False

/-- A call that is no `Solve` call. -/
def Event.Build : Event → Prop
  | .solve _ _ _ => False
  | _ => True

theorem Event.Quiet.build {call : Event} (h : call.Quiet) : call.Build := by
  cases call with
  | newVar => trivial
  | addClause clause => trivial
  | freezeVar l => trivial
  | solve as b answer => exact h

section Logs

variable {α : Type} {P : Event → Prop}

theorem logs_addClause {clause : List Lit} (h : P (.addClause clause)) :
    Logs P (addClause clause) :=
  (Logs.ofOption _).bind fun _ => Logs.get.bind fun _ =>
    (Logs.assert _).bind fun _ => Logs.call h

theorem logs_freezeVar {l : Lit} (h : P (.freezeVar l)) : Logs P (freezeVar l) :=
  Logs.get.bind fun _ => (Logs.assert _).bind fun _ => Logs.call h

theorem logs_solve {solver : Solver} {as : List Lit} {b : Bool}
    (h : ∀ answer, P (.solve as b answer)) : Logs P (solve solver as b) :=
  Logs.get.bind fun _ => (Logs.assert _).bind fun _ => (Logs.call (h _)).bind fun _ =>
    Logs.pure _

theorem logs_solutionValue (l : Lit) : Logs P (solutionValue l) :=
  Logs.get.bind fun _ => (Logs.ofOption _).bind fun _ => (Logs.assert _).bind fun _ =>
    Logs.pure _

theorem logs_component {reads : Bool → Lit → Prop} {b : Bool} {c : SatCall} {solver : Solver}
    (h : c.Allowed P reads b) : Logs P (solver.component c) := by
  cases c with
  | newVar =>
      have hnew : P .newVar := h
      exact Logs.get.bind fun _ => (Logs.call hnew).bind fun _ => Logs.pure _
  | addClause clause => exact logs_addClause h
  | freezeVar lit => exact logs_freezeVar h
  | solve as allowSimp => exact logs_solve h
  | solutionValue lit => exact logs_solutionValue lit

/-- The events of a program that uses a solver. -/
theorem Uses.logs {reads : Bool → Lit → Prop} {Q : Bool → α → Prop} {b : Bool}
    {m : Solver → SatM α} (h : Uses P reads Q b m) (solver : Solver) : Logs P (m solver) :=
  Client.Plays.logs h (fun _ _ _ hallowed => logs_component hallowed) solver

end Logs

/-! ## Programs that build formulas -/

namespace Builds

variable {α β ι : Type} {P P' : Event → Prop} {m : SatM α}

theorem imp (h : Builds P m) (hP : ∀ call, P call → P' call) : Builds P' m :=
  fun reads b => (h reads b).imp_calls hP

theorem pure (a : α) : Builds P (pure a) := fun _ _ => .done trivial

theorem abort : Builds P (abort : SatM α) := fun _ _ => .abort

theorem assert (b : Bool) : Builds P (assert b) := fun _ _ => .assert trivial

theorem bind {f : α → SatM β} (h : Builds P m) (hf : ∀ a, Builds P (f a)) :
    Builds P (m >>= f) :=
  fun reads b => Client.Plays.bind (h reads b) fun b a _ => hf a reads b

theorem ite {c : Prop} [Decidable c] {m' : SatM α} (h : Builds P m) (h' : Builds P m') :
    Builds P (if c then m else m') :=
  fun reads b => .ite (h reads b) (h' reads b)

theorem when {c : Prop} [Decidable c] {m : SatM PUnit} (h : Builds P m) :
    Builds P (when c m) :=
  ite h (pure PUnit.unit)

theorem elim {o : Option β} {f : β → SatM α} (h : Builds P m) (hf : ∀ b, Builds P (f b)) :
    Builds P (o.elim m f) := by
  cases o with
  | none => exact h
  | some b => exact hf b

theorem foldlM {f : β → ι → SatM β} (h : ∀ b i, Builds P (f b i)) (l : List ι) (b : β) :
    Builds P (l.foldlM f b) :=
  fun reads _ => .foldlM trivial fun mode b i _ _ => h b i reads mode

theorem forM {f : ι → SatM PUnit} (h : ∀ i, Builds P (f i)) (l : List ι) :
    Builds P (forM l f) := by
  induction l with
  | nil => exact pure PUnit.unit
  | cons i l ih =>
      rw [List.forM_cons]
      exact (h i).bind fun _ => ih

/-- The events of a program that builds a formula. -/
theorem logs (h : Builds P m) : Logs P m :=
  (h (fun _ _ => True) true).logs Solver.choice

end Builds

section Calls

variable {P : Event → Prop}

theorem builds_newVar (h : P .newVar) : Builds P newVar :=
  fun _ _ => uses_newVar h fun _ => trivial

theorem builds_addClause {clause : List Lit} (h : P (.addClause clause)) :
    Builds P (addClause clause) :=
  fun _ _ => uses_addClause h trivial

theorem builds_freezeVar {l : Lit} (h : P (.freezeVar l)) : Builds P (freezeVar l) :=
  fun _ _ => uses_freezeVar h trivial

end Calls

end Triangulator
