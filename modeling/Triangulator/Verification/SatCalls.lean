import Triangulator.Model.Sat

/-!
# Models of the clauses added to a solver

The semantics of literals and clauses, and what each call to a solver does to the
set of models of the clauses added so far.
-/

namespace Triangulator

open AbortM

/-! ## Literals -/

namespace Lit

variable {σ σ' : ℕ → Bool} {N M : ℕ} {l : Lit}

/-- The literal is defined and its variable is one of the first `N`. -/
def Valid (N : ℕ) : Lit → Prop
  | undef => False
  | const _ => True
  | var _ v => v < N

@[simp] theorem valid_trueLit : Valid N trueLit := trivial

@[simp] theorem valid_falseLit : Valid N falseLit := trivial

@[simp] theorem valid_var {b : Bool} {v : ℕ} : Valid N (var b v) ↔ v < N := Iff.rfl

@[simp] theorem eval_trueLit : trueLit.eval σ = true := rfl

@[simp] theorem eval_falseLit : falseLit.eval σ = false := rfl

@[simp] theorem eval_var_true {v : ℕ} : (var true v).eval σ = σ v := rfl

@[simp] theorem valid_neg : Valid N (-l) ↔ Valid N l := by
  cases l with
  | undef => exact Iff.rfl
  | const b => exact Iff.rfl
  | var b v => exact Iff.rfl

theorem Valid.mono (h : Valid N l) (hNM : N ≤ M) : Valid M l := by
  cases l with
  | undef => exact h
  | const b => trivial
  | var b v => exact lt_of_lt_of_le h hNM

theorem Valid.isDef (h : Valid N l) : l.isDef = true := by
  apply decide_eq_true
  rintro rfl
  exact h

theorem Valid.eval_neg (h : Valid N l) : (-l).eval σ = !l.eval σ := by
  cases l with
  | undef => cases h
  | const b => rfl
  | var b v =>
      change eval σ (var (!b) v) = _
      cases b with
      | false => simp [eval]
      | true => simp [eval]

/-- The literal is one of the first `N` variables or its negation. -/
def Known (N : ℕ) : Lit → Prop
  | var _ v => v < N
  | _ => False

@[simp] theorem known_var {b : Bool} {v : ℕ} : Known N (var b v) ↔ v < N := Iff.rfl

@[simp] theorem known_neg : Known N (-l) ↔ Known N l := by
  cases l with
  | undef => exact Iff.rfl
  | const b => exact Iff.rfl
  | var b v => exact Iff.rfl

theorem Known.valid (h : Known N l) : Valid N l := by
  cases l with
  | undef => exact h
  | const b => trivial
  | var b v => exact h

theorem Known.mono (h : Known N l) (hNM : N ≤ M) : Known M l := by
  cases l with
  | undef => exact h
  | const b => exact h
  | var b v => exact lt_of_lt_of_le h hNM

theorem isKnown_iff : l.isKnown N = true ↔ l.Known N := by
  cases l with
  | undef => simp [isKnown, Known]
  | const b => simp [isKnown, Known]
  | var b v => simp [isKnown]

end Lit

/-- The two assignments give the first `N` variables the same value. -/
def AgreeBelow (N : ℕ) (σ σ' : ℕ → Bool) : Prop :=
  ∀ v < N, σ' v = σ v

namespace AgreeBelow

variable {σ σ' σ'' : ℕ → Bool} {N M : ℕ}

theorem refl (N : ℕ) (σ : ℕ → Bool) : AgreeBelow N σ σ := fun _ _ => rfl

theorem symm (h : AgreeBelow N σ σ') : AgreeBelow N σ' σ := fun v hv => (h v hv).symm

theorem trans (h : AgreeBelow N σ σ') (h' : AgreeBelow M σ' σ'') (hNM : N ≤ M) :
    AgreeBelow N σ σ'' :=
  fun v hv => (h' v (lt_of_lt_of_le hv hNM)).trans (h v hv)

theorem eval (h : AgreeBelow N σ σ') {l : Lit} (hl : l.Valid N) :
    l.eval σ' = l.eval σ := by
  cases l with
  | undef => cases hl
  | const b => rfl
  | var b v =>
      simp only [Lit.eval]
      rw [h v hl]

theorem update (N : ℕ) (σ : ℕ → Bool) (b : Bool) :
    AgreeBelow N σ (Function.update σ N b) :=
  fun _ hv => Function.update_of_ne hv.ne _ _

end AgreeBelow

/-! ## Clauses -/

/-- The clause is true under the assignment. -/
def Holds (σ : ℕ → Bool) (clause : List Lit) : Prop :=
  ∃ l ∈ clause, l.eval σ = true

section Holds

variable {σ σ' : ℕ → Bool} {a b c : Lit} {N : ℕ}

@[simp] theorem holds_singleton : Holds σ [a] ↔ a.eval σ = true := by
  simp [Holds]

@[simp] theorem holds_cons {clause : List Lit} :
    Holds σ (a :: clause) ↔ a.eval σ = true ∨ Holds σ clause := by
  simp [Holds]

@[simp] theorem not_holds_nil : ¬Holds σ [] := by
  simp [Holds]

theorem AgreeBelow.holds (h : AgreeBelow N σ σ') {clause : List Lit}
    (hv : ∀ l ∈ clause, l.Valid N) : Holds σ' clause ↔ Holds σ clause := by
  constructor
  · rintro ⟨l, hl, hσ⟩
    exact ⟨l, hl, (h.eval (hv l hl)).symm.trans hσ⟩
  · rintro ⟨l, hl, hσ⟩
    exact ⟨l, hl, (h.eval (hv l hl)).trans hσ⟩

end Holds

/-- `ProcessClause` succeeds on defined literals. -/
theorem processClauseLoop_spec {N : ℕ} {clause proClause : List Lit}
    (h : ∀ l ∈ clause, l.Valid N) :
    ∃ c, processClauseLoop clause proClause = some c ∧
      (c = [Lit.trueLit] ∨ ∀ l ∈ c, l ∈ proClause ∨ (l ∈ clause ∧ l.isKnown N = true)) := by
  induction clause generalizing proClause with
  | nil => exact ⟨proClause, rfl, Or.inr fun l hl => Or.inl hl⟩
  | cons a clause ih =>
      have ha := h a (by simp)
      have ih' := fun pro => @ih pro fun l hl => h l (by simp [hl])
      rw [processClauseLoop, if_pos ha.isDef]
      by_cases htrue : a.isTrue = true
      · exact ⟨_, if_pos htrue, Or.inl rfl⟩
      · rw [if_neg htrue]
        by_cases hfalse : a.isFalse = true
        · obtain ⟨c, hc, hor⟩ := ih' proClause
          refine ⟨c, by rw [if_pos hfalse, hc], hor.imp_right fun hall l hl => ?_⟩
          exact (hall l hl).imp_right fun hl => ⟨List.mem_cons_of_mem _ hl.1, hl.2⟩
        · rw [if_neg hfalse]
          by_cases hneg : -a ∈ proClause
          · exact ⟨_, if_pos hneg, Or.inl rfl⟩
          · obtain ⟨c, hc, hor⟩ := ih' (proClause ++ [a])
            refine ⟨c, by rw [if_neg hneg, hc], hor.imp_right fun hall l hl => ?_⟩
            rcases hall l hl with hl | hl
            · rcases List.mem_append.mp hl with hl | hl
              · exact Or.inl hl
              · obtain rfl := List.mem_singleton.mp hl
                refine Or.inr ⟨by simp, ?_⟩
                cases l with
                | undef => cases ha
                | const b =>
                    cases b with
                    | false => exact absurd rfl hfalse
                    | true => exact absurd rfl htrue
                | var b v => exact decide_eq_true ha
            · exact Or.inr ⟨List.mem_cons_of_mem _ hl.1, hl.2⟩

namespace Trace

variable {σ σ' : ℕ → Bool} {t t' : Trace}

section Simp

variable {clause as : List Lit} {l : Lit} {b : Bool} {answer : Option (ℕ → Bool)}

@[simp] theorem numVars_newVar : numVars (.newVar :: t) = t.numVars + 1 := rfl

@[simp] theorem numVars_addClause : numVars (.addClause clause :: t) = t.numVars := rfl

@[simp] theorem numVars_freezeVar : numVars (.freezeVar l :: t) = t.numVars := rfl

@[simp] theorem numVars_solve : numVars (.solve as b answer :: t) = t.numVars := rfl

@[simp] theorem clauses_newVar : clauses (.newVar :: t) = t.clauses := rfl

@[simp] theorem clauses_addClause :
    clauses (.addClause clause :: t) = clause :: t.clauses := rfl

@[simp] theorem clauses_freezeVar : clauses (.freezeVar l :: t) = t.clauses := rfl

@[simp] theorem clauses_solve : clauses (.solve as b answer :: t) = t.clauses := rfl

end Simp

/-- The assignment makes all clauses true. -/
def Models (t : Trace) (σ : ℕ → Bool) : Prop :=
  ∀ clause ∈ t.clauses, Holds σ clause

/-- Every clause is over variables that were created. -/
def Scoped (t : Trace) : Prop :=
  ∀ clause ∈ t.clauses, ∀ l ∈ clause, l.Valid t.numVars

@[simp] theorem models_nil : Models [] σ := by
  simp [Models, clauses]

theorem scoped_nil : Scoped [] := by
  simp [Scoped, clauses]

@[simp] theorem models_newVar : Models (.newVar :: t) σ ↔ t.Models σ :=
  Iff.rfl

@[simp] theorem models_freezeVar {l : Lit} : Models (.freezeVar l :: t) σ ↔ t.Models σ :=
  Iff.rfl

@[simp] theorem models_solve {as : List Lit} {b : Bool} {answer : Option (ℕ → Bool)} :
    Models (.solve as b answer :: t) σ ↔ t.Models σ :=
  Iff.rfl

@[simp] theorem models_addClause {clause : List Lit} :
    Models (.addClause clause :: t) σ ↔ Holds σ clause ∧ t.Models σ := by
  simp [Models]

theorem Scoped.newVar (h : t.Scoped) : Scoped (.newVar :: t) :=
  fun clause hc l hl => (h clause hc l hl).mono (Nat.le_succ _)

theorem Scoped.addClause (h : t.Scoped) {clause : List Lit}
    (hc : ∀ l ∈ clause, l.Valid t.numVars) : Scoped (.addClause clause :: t) :=
  List.forall_mem_cons.mpr ⟨hc, h⟩

/-- Changing later variables keeps a model. -/
theorem Models.congr (h : t.Models σ) (hs : t.Scoped) (hσ : AgreeBelow t.numVars σ σ') :
    t.Models σ' :=
  fun clause hc => (hσ.holds (hs clause hc)).mpr (h clause hc)

/-- A model gives a new variable any value. -/
theorem Models.update (h : t.Models σ) (hs : t.Scoped) (b : Bool) :
    t.Models (Function.update σ t.numVars b) :=
  h.congr hs (AgreeBelow.update _ _ b)

/-- `t'` comes after `t`: variables and clauses are only added, and all clauses are
over created variables. -/
structure Grows (t t' : Trace) : Prop where
  numVars_le : t.numVars ≤ t'.numVars
  wellScoped : t'.Scoped
  models : ∀ σ, t'.Models σ → t.Models σ

theorem Grows.refl (h : t.Scoped) : Grows t t := ⟨le_rfl, h, fun _ => id⟩

theorem Grows.trans {t'' : Trace} (h : Grows t t') (h' : Grows t' t'') : Grows t t'' :=
  ⟨h.numVars_le.trans h'.numVars_le, h'.wellScoped, fun σ hσ => h.models σ (h'.models σ hσ)⟩

theorem Grows.newVar (h : Grows t t') : Grows t (.newVar :: t') :=
  ⟨h.numVars_le.trans (Nat.le_succ _), h.wellScoped.newVar, h.models⟩

theorem Grows.freezeVar (h : Grows t t') (l : Lit) : Grows t (.freezeVar l :: t') :=
  ⟨h.numVars_le, h.wellScoped, h.models⟩

theorem Grows.solve (h : Grows t t') (as : List Lit) (b : Bool)
    (answer : Option (ℕ → Bool)) : Grows t (.solve as b answer :: t') :=
  ⟨h.numVars_le, h.wellScoped, h.models⟩

theorem Grows.addClause (h : Grows t t') {clause : List Lit}
    (hc : ∀ l ∈ clause, l.Valid t'.numVars) : Grows t (.addClause clause :: t') :=
  ⟨h.numVars_le, h.wellScoped.addClause hc,
    fun σ hσ => h.models σ (models_addClause.mp hσ).2⟩

theorem Grows.valid (h : Grows t t') {l : Lit} (hl : l.Valid t.numVars) :
    l.Valid t'.numVars :=
  hl.mono h.numVars_le

theorem Grows.known (h : Grows t t') {l : Lit} (hl : l.Known t.numVars) :
    l.Known t'.numVars :=
  hl.mono h.numVars_le

/-- `t'` comes after `t` and every model of the clauses of `t` extends to the new
variables. -/
structure Conservative (t t' : Trace) : Prop extends Grows t t' where
  extend : ∀ σ, t.Models σ → ∃ σ', AgreeBelow t.numVars σ σ' ∧ t'.Models σ'

theorem Conservative.refl (h : t.Scoped) : Conservative t t :=
  ⟨Grows.refl h, fun σ hσ => ⟨σ, AgreeBelow.refl _ σ, hσ⟩⟩

theorem Conservative.trans {t'' : Trace} (h : Conservative t t')
    (h' : Conservative t' t'') : Conservative t t'' := by
  refine ⟨h.toGrows.trans h'.toGrows, fun σ hσ => ?_⟩
  obtain ⟨σ₁, h₁, hσ₁⟩ := h.extend σ hσ
  obtain ⟨σ₂, h₂, hσ₂⟩ := h'.extend σ₁ hσ₁
  exact ⟨σ₂, h₁.trans h₂ h.numVars_le, hσ₂⟩

/-- A clause that holds in every model. -/
theorem Conservative.addClause (h : t.Scoped) {clause : List Lit}
    (hc : ∀ l ∈ clause, l.Valid t.numVars) (himp : ∀ σ, t.Models σ → Holds σ clause) :
    Conservative t (.addClause clause :: t) :=
  ⟨(Grows.refl h).addClause hc,
    fun σ hσ => ⟨σ, AgreeBelow.refl _ σ, models_addClause.mpr ⟨himp σ hσ, hσ⟩⟩⟩

/-- `t'` comes after `t` and every model of the clauses of `t` extends in exactly one way
to the new variables. -/
structure Defining (t t' : Trace) : Prop extends Conservative t t' where
  unique : ∀ σ σ', t'.Models σ → t'.Models σ' → AgreeBelow t.numVars σ σ' →
    AgreeBelow t'.numVars σ σ'

theorem Defining.refl (h : t.Scoped) : Defining t t :=
  ⟨Conservative.refl h, fun _ _ _ _ => id⟩

theorem Defining.trans {t'' : Trace} (h : Defining t t') (h' : Defining t' t'') :
    Defining t t'' := by
  refine ⟨h.toConservative.trans h'.toConservative, ?_⟩
  intro σ σ' hσ hσ' hagree
  exact h'.unique σ σ' hσ hσ' (h.unique σ σ' (h'.models σ hσ) (h'.models σ' hσ') hagree)

/-- A clause that holds in every model. -/
theorem Defining.addClause (h : t.Scoped) {clause : List Lit}
    (hc : ∀ l ∈ clause, l.Valid t.numVars) (himp : ∀ σ, t.Models σ → Holds σ clause) :
    Defining t (.addClause clause :: t) :=
  ⟨Conservative.addClause h hc himp, fun _ _ _ _ => id⟩

/-- A new variable with its negation as a clause. -/
theorem defining_false (h : t.Scoped) :
    Defining t (.addClause [-.var true t.numVars] :: .newVar :: t) := by
  have hneg : ∀ σ, (-Lit.var true t.numVars).eval σ = !σ t.numVars := fun σ =>
    Lit.Valid.eval_neg (N := t.numVars + 1) (Nat.lt_succ_self _)
  refine ⟨⟨(Grows.refl h).newVar.addClause (by simp), fun σ hσ =>
    ⟨Function.update σ t.numVars false, AgreeBelow.update _ _ _, ?_⟩⟩, ?_⟩
  · rw [models_addClause, models_newVar, holds_singleton, hneg, Function.update_self]
    exact ⟨rfl, hσ.update h false⟩
  · intro σ σ' hσ hσ' hagree v hv
    have hfalse := (models_addClause.mp hσ).1
    have hfalse' := (models_addClause.mp hσ').1
    rw [holds_singleton, hneg, Bool.not_eq_true'] at hfalse hfalse'
    rcases Nat.lt_succ_iff_lt_or_eq.mp hv with hlt | heq
    · exact hagree v hlt
    · rw [heq, hfalse, hfalse']

end Trace

/-! ## The calls -/

section Calls

variable {t : Trace} {E : Trace → Prop}

@[simp] theorem wp_newVar {Q : Lit → Trace → Prop} :
    wp newVar Q E t ↔ Q (.var true t.numVars) (.newVar :: t) :=
  Iff.rfl

theorem wp_addClause {Q : Unit → Trace → Prop} {clause : List Lit}
    (hc : ∀ l ∈ clause, l.Valid t.numVars) (h : Q () (.addClause clause :: t)) :
    wp (addClause clause) Q E t := by
  obtain ⟨c, hproc, hor⟩ := @processClauseLoop_spec t.numVars clause [] hc
  rw [addClause, wp_bind, processClause, hproc, wp_ofOption_some, wp_bind, wp_get, wp_bind]
  apply wp_assert_of
  · rw [Bool.or_eq_true, decide_eq_true_iff]
    refine hor.imp_right fun hall => List.all_eq_true.mpr fun l hl => ?_
    exact ((hall l hl).resolve_left List.not_mem_nil).2
  · exact h

theorem wp_freezeVar {Q : Unit → Trace → Prop} {b : Bool} {v : ℕ} (hv : v < t.numVars)
    (h : Q () (.freezeVar (.var b v) :: t)) : wp (freezeVar (.var b v)) Q E t := by
  rw [freezeVar, wp_bind, wp_get, wp_bind]
  exact wp_assert_of (decide_eq_true hv) h

theorem wp_solve {Q : Bool → Trace → Prop} {solver : Solver} {as : List Lit} {b : Bool}
    (has : ∀ l ∈ as, l.Known t.numVars)
    (h : Q (solver.answer t as b).isSome (.solve as b (solver.answer t as b) :: t)) :
    wp (solve solver as b) Q E t := by
  rw [solve, wp_bind, wp_get, wp_bind]
  exact wp_assert_of (List.all_eq_true.mpr fun l hl => Lit.isKnown_iff.mpr (has l hl)) h

theorem wp_solutionValue {Q : Bool → Trace → Prop} {σ : ℕ → Bool} {l : Lit}
    (hσ : t.lastAnswer = some σ) (hl : l.Valid t.numVars) (h : Q (l.eval σ) t) :
    wp (solutionValue l) Q E t := by
  rw [solutionValue, wp_bind, wp_get, wp_bind, hσ, wp_ofOption_some, wp_bind]
  apply wp_assert_of _ h
  rw [hl.isDef, Bool.true_and]
  cases l with
  | undef => cases hl
  | const b =>
      cases b with
      | false => rfl
      | true => rfl
  | var b v =>
      rw [Bool.or_eq_true]
      exact Or.inr (decide_eq_true hl)

end Calls

/-! ## Programs that only add clauses -/

/-- From every trace with at least `N` variables, the program adds clauses over
these variables whose conjunction is `F`. -/
def Emits (N : ℕ) (m : SatM PUnit) (F : (ℕ → Bool) → Prop) : Prop :=
  ∀ t : Trace, t.Scoped → N ≤ t.numVars →
    wp m (fun _ t' => t'.numVars = t.numVars ∧ t'.Scoped ∧
      ∃ added, t'.clauses = added ++ t.clauses ∧
        ∀ σ, (∀ clause ∈ added, Holds σ clause) ↔ F σ) (fun _ => False) t

namespace Emits

variable {N : ℕ} {m m' : SatM PUnit} {F G : (ℕ → Bool) → Prop}

theorem congr (h : Emits N m F) (hF : ∀ σ, F σ ↔ G σ) : Emits N m G := by
  obtain rfl : F = G := funext fun σ => propext (hF σ)
  exact h

theorem pure : Emits N (pure ⟨⟩) fun _ => True :=
  fun _ ht _ => ⟨rfl, ht, [], rfl, by simp⟩

theorem addClause {clause : List Lit} (hc : ∀ l ∈ clause, l.Valid N) :
    Emits N (Triangulator.addClause clause) fun σ => Holds σ clause := by
  intro t ht hN
  have hc' := fun l hl => (hc l hl).mono hN
  apply wp_addClause hc'
  exact ⟨rfl, ht.addClause hc', [clause], rfl, by simp⟩

theorem freezeVar {b : Bool} {v : ℕ} (hv : v < N) :
    Emits N (Triangulator.freezeVar (.var b v)) fun _ => True := by
  intro t ht hN
  apply wp_freezeVar (lt_of_lt_of_le hv hN)
  exact ⟨rfl, ht, [], rfl, by simp⟩

theorem bind (h : Emits N m F) (h' : Emits N m' G) :
    Emits N (m >>= fun _ => m') fun σ => F σ ∧ G σ := by
  intro t ht hN
  rw [wp_bind]
  apply wp_imp (h t ht hN)
  rintro _ t₁ ⟨hnum₁, ht₁, added₁, hadd₁, hF⟩
  apply wp_imp (h' t₁ ht₁ (hnum₁ ▸ hN))
  rintro _ t₂ ⟨hnum₂, ht₂, added₂, hadd₂, hG⟩
  refine ⟨hnum₂.trans hnum₁, ht₂, added₂ ++ added₁, ?_, fun σ => ?_⟩
  · rw [hadd₂, hadd₁, List.append_assoc]
  · rw [List.forall_mem_append, hF, hG, and_comm]

theorem ite {c : Prop} [Decidable c] (h : c → Emits N m F) (h' : ¬c → Emits N m' G) :
    Emits N (if c then m else m') fun σ => (c → F σ) ∧ (¬c → G σ) := by
  by_cases hc : c
  · rw [if_pos hc]
    exact (h hc).congr fun σ => by simp [hc]
  · rw [if_neg hc]
    exact (h' hc).congr fun σ => by simp [hc]

/-- A program that is run under a condition. -/
theorem when {c : Prop} [Decidable c] (h : c → Emits N m F) :
    Emits N (AbortM.when c m) fun σ => c → F σ :=
  (ite h fun _ => pure).congr fun σ => by simp

theorem forM {ι : Type} {l : List ι} {f : ι → SatM PUnit} {F : ι → (ℕ → Bool) → Prop}
    (h : ∀ i ∈ l, Emits N (f i) (F i)) :
    Emits N (ForM.forM l f) fun σ => ∀ i ∈ l, F i σ := by
  induction l with
  | nil => exact pure.congr fun σ => by simp
  | cons i l ih =>
      rw [List.forM_cons]
      have hi := h i (by simp)
      have hl := ih fun j hj => h j (by simp [hj])
      exact (hi.bind hl).congr fun σ => by rw [List.forall_mem_cons]

/-- How an emitting program is used. -/
theorem wp_added (h : Emits N m F) {t : Trace} (ht : t.Scoped) (hN : N ≤ t.numVars)
    {Q : PUnit → Trace → Prop} {E : Trace → Prop}
    (hQ : ∀ t' added, t'.numVars = t.numVars → t'.Scoped → t'.clauses = added ++ t.clauses →
      (∀ σ, (∀ clause ∈ added, Holds σ clause) ↔ F σ) → Q ⟨⟩ t') : AbortM.wp m Q E t := by
  apply wp_mono (h t ht hN)
  · rintro _ t' ⟨hnum, ht', added, hadd, hF⟩
    exact hQ t' added hnum ht' hadd hF
  · exact fun _ => False.elim

theorem wp (h : Emits N m F) {t : Trace} (ht : t.Scoped) (hN : N ≤ t.numVars)
    {Q : PUnit → Trace → Prop} {E : Trace → Prop}
    (hQ : ∀ t', t'.numVars = t.numVars → t'.Scoped →
      (∀ σ, t'.Models σ ↔ t.Models σ ∧ F σ) → Q ⟨⟩ t') : AbortM.wp m Q E t := by
  apply h.wp_added ht hN
  intro t' added hnum ht' hadd hF
  refine hQ t' hnum ht' fun σ => ?_
  rw [Trace.Models, hadd, List.forall_mem_append, hF, and_comm]
  exact Iff.rfl

end Emits

/-! ## Solvers -/

/-- The solver answers with a model of the clauses and the assumptions exactly when
there is one. -/
structure Solver.Exact (s : Solver) : Prop where
  sound : ∀ t as b σ, s.answer t as b = some σ →
    t.Models σ ∧ ∀ l ∈ as, l.eval σ = true
  complete : ∀ t as b, s.answer t as b = none →
    ∀ σ, t.Models σ → ¬∀ l ∈ as, l.eval σ = true

/-- Every answer of the solver is a model of the clauses and the assumptions. -/
def Solver.Sound (s : Solver) : Prop :=
  ∀ t as b σ, s.answer t as b = some σ → t.Models σ ∧ ∀ l ∈ as, l.eval σ = true

open Classical in
/-- A solver that chooses a model when there is one. -/
noncomputable def Solver.choice : Solver where
  answer t as _ :=
    if h : ∃ σ, t.Models σ ∧ ∀ l ∈ as, l.eval σ = true then some h.choose else none

theorem Solver.exact_choice : Solver.choice.Exact := by
  constructor
  · intro t as b σ h
    rw [Solver.choice] at h
    dsimp only at h
    split at h
    · rename_i hex
      obtain rfl := Option.some_inj.mp h
      exact hex.choose_spec
    · cases h
  · intro t as b h σ hσ has
    rw [Solver.choice] at h
    dsimp only at h
    rw [dif_pos ⟨σ, hσ, has⟩] at h
    cases h

end Triangulator
