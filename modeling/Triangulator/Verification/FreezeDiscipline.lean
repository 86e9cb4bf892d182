import Triangulator.Verification.SatPrograms

/-!
# The freeze discipline

A `Solve` call that may simplify can eliminate every variable that is not frozen, so that no
later clause may mention it.  The condition is read off the calls made to the solver, and it
is monotone: once a clause mentioned such a variable, no later call repairs it.
-/

namespace Triangulator

open AbortM

namespace Trace

/-- `FreezeVar` was called on the variable. -/
def frozen : Trace → ℕ → Bool
  | [], _ => false
  | .freezeVar (.var _ w) :: t, v => decide (w = v) || frozen t v
  | _ :: t, v => frozen t v

/-- The variable was there and not frozen in a `Solve` call that may simplify. -/
def eliminable : Trace → ℕ → Bool
  | [], _ => false
  | .solve _ true _ :: t, v => (decide (v < numVars t) && !frozen t v) || eliminable t v
  | _ :: t, v => eliminable t v

end Trace

/-- No simplification can have eliminated the variable of the literal. -/
def Lit.usable (t : Trace) : Lit → Bool
  | .var _ v => !t.eliminable v
  | _ => true

namespace Trace

/-- No clause mentions a variable that can have been eliminated. -/
def disciplined : Trace → Bool
  | [] => true
  | .addClause clause :: t => (clause.all fun l => l.usable t) && disciplined t
  | _ :: t => disciplined t

/-- No assumption mentions a variable that can have been eliminated. -/
def Assumed : Trace → Prop
  | [] => True
  | .solve as _ _ :: t => (∀ l ∈ as, l.usable t = true) ∧ Assumed t
  | _ :: t => Assumed t

/-- Every variable of a clause added after a `Solve` call that may simplify was created
after that call or frozen before it. -/
def FreezeDiscipline (t : Trace) : Prop :=
  ∀ later clause between as answer before,
    t = later ++ .addClause clause :: (between ++ .solve as true answer :: before) →
    ∀ b v, Lit.var b v ∈ clause →
      numVars before ≤ v ∨ ∃ b', Event.freezeVar (.var b' v) ∈ before

variable {t : Trace} {v : ℕ} {call : Event}

theorem frozen_iff : t.frozen v = true ↔ ∃ b, Event.freezeVar (.var b v) ∈ t := by
  induction t with
  | nil => simp [frozen]
  | cons call t ih =>
      cases call with
      | newVar => simpa [frozen] using ih
      | addClause clause => simpa [frozen] using ih
      | solve as b answer => simpa [frozen] using ih
      | freezeVar l =>
          cases l with
          | undef => simpa [frozen] using ih
          | const b => simpa [frozen] using ih
          | var b w =>
              rw [frozen, Bool.or_eq_true, decide_eq_true_iff, ih]
              simp only [List.mem_cons, Event.freezeVar.injEq, Lit.var.injEq, exists_or]
              simp [eq_comm]

theorem eliminable_iff : t.eliminable v = true ↔
    ∃ between as answer before, t = between ++ .solve as true answer :: before ∧
      v < numVars before ∧ frozen before v = false := by
  induction t with
  | nil => simp [eliminable]
  | cons call t ih =>
      -- A call in front that is not simplifying is one of those in between.
      have hcons : (∃ between as answer before,
          call :: t = between ++ .solve as true answer :: before ∧
            v < numVars before ∧ frozen before v = false) ↔
          (∃ as answer, call = .solve as true answer ∧ v < numVars t ∧ frozen t v = false) ∨
          eliminable t v = true := by
        rw [ih]
        constructor
        · rintro ⟨between, as, answer, before, heq, hv⟩
          cases between with
          | nil =>
              obtain ⟨rfl, rfl⟩ := List.cons.inj heq
              exact Or.inl ⟨as, answer, rfl, hv⟩
          | cons c between =>
              obtain ⟨rfl, rfl⟩ := List.cons.inj heq
              exact Or.inr ⟨between, as, answer, before, rfl, hv⟩
        · rintro (⟨as, answer, rfl, hv⟩ | ⟨between, as, answer, before, rfl, hv⟩)
          · exact ⟨[], as, answer, t, rfl, hv⟩
          · exact ⟨call :: between, as, answer, before, rfl, hv⟩
      rw [hcons]
      cases call with
      | newVar => simp [eliminable]
      | addClause clause => simp [eliminable]
      | freezeVar l => simp [eliminable]
      | solve as b answer =>
          cases b with
          | false => simp [eliminable]
          | true => simp [eliminable]

theorem disciplined_iff : t.disciplined = true ↔ ∀ later clause earlier,
    t = later ++ .addClause clause :: earlier → ∀ l ∈ clause, l.usable earlier = true := by
  induction t with
  | nil => simp [disciplined]
  | cons call t ih =>
      have hcons : (∀ later clause earlier, call :: t = later ++ .addClause clause :: earlier →
          ∀ l ∈ clause, l.usable earlier = true) ↔
          (∀ clause, call = .addClause clause → ∀ l ∈ clause, l.usable t = true) ∧
          disciplined t = true := by
        rw [ih]
        constructor
        · intro h
          refine ⟨?_, ?_⟩
          · rintro clause rfl
            exact h [] clause t rfl
          · rintro later clause earlier rfl
            exact h (call :: later) clause earlier rfl
        · rintro ⟨hcall, hrest⟩ later clause earlier heq
          cases later with
          | nil =>
              obtain ⟨rfl, rfl⟩ := List.cons.inj heq
              exact hcall clause rfl
          | cons c later =>
              obtain ⟨rfl, rfl⟩ := List.cons.inj heq
              exact hrest later clause earlier rfl
      rw [hcons]
      cases call with
      | addClause clause => simp [disciplined]
      | newVar => simp [disciplined]
      | freezeVar l => simp [disciplined]
      | solve as b answer => simp [disciplined]

/-- The condition can be computed. -/
theorem freezeDiscipline_iff : t.FreezeDiscipline ↔ t.disciplined = true := by
  rw [disciplined_iff]
  constructor
  · rintro h later clause earlier rfl l hl
    cases l with
    | undef => rfl
    | const b => rfl
    | var b v =>
        rw [Lit.usable, Bool.not_eq_true', Bool.eq_false_iff]
        intro helim
        obtain ⟨between, as, answer, before, rfl, hlt, hfree⟩ := eliminable_iff.mp helim
        rcases h later clause between as answer before rfl b v hl with hle | hfrozen
        · omega
        · rw [frozen_iff.mpr hfrozen] at hfree
          cases hfree
  · rintro h later clause between as answer before rfl b v hl
    have husable := h later clause _ rfl _ hl
    rw [Lit.usable, Bool.not_eq_true', Bool.eq_false_iff] at husable
    by_contra hnot
    rw [not_or, not_le] at hnot
    refine husable (eliminable_iff.mpr ⟨between, as, answer, before, rfl, hnot.1, ?_⟩)
    rw [Bool.eq_false_iff]
    exact fun hfrozen => hnot.2 (frozen_iff.mp hfrozen)

instance : Decidable t.FreezeDiscipline := decidable_of_iff _ freezeDiscipline_iff.symm

/-! ## Later calls -/

theorem frozen_append (calls : Trace) (h : t.frozen v = true) :
    (calls ++ t).frozen v = true := by
  obtain ⟨b, hb⟩ := frozen_iff.mp h
  exact frozen_iff.mpr ⟨b, List.mem_append_right _ hb⟩

theorem eliminable_append (calls : Trace) (h : t.eliminable v = true) :
    (calls ++ t).eliminable v = true := by
  obtain ⟨between, as, answer, before, rfl, hv⟩ := eliminable_iff.mp h
  exact eliminable_iff.mpr ⟨calls ++ between, as, answer, before, (List.append_assoc _ _ _).symm, hv⟩

theorem disciplined_append {calls : Trace} (h : (calls ++ t).disciplined = true) :
    t.disciplined = true := by
  rw [disciplined_iff] at h ⊢
  rintro later clause earlier rfl
  exact h (calls ++ later) clause earlier (List.append_assoc _ _ _).symm

theorem disciplined_back {call : Event} (h : disciplined (call :: t) = true) :
    t.disciplined = true := by
  rw [← List.singleton_append] at h
  exact disciplined_append h

theorem numVars_le_append (calls t : Trace) : numVars t ≤ numVars (calls ++ t) := by
  induction calls with
  | nil => exact le_rfl
  | cons call calls ih =>
      cases call with
      | newVar => exact ih.trans (Nat.le_succ _)
      | addClause clause => exact ih
      | freezeVar l => exact ih
      | solve as b answer => exact ih

end Trace

namespace Trace

variable {t t' t'' : Trace} {v : ℕ}

/-- `t'` comes after `t` without a `Solve` call, and only new variables were frozen. -/
structure Adds (t t' : Trace) : Prop where
  calls : ∃ calls : Trace, t' = calls ++ t ∧ ∀ call ∈ calls, call.Build
  numVars_le : t.numVars ≤ t'.numVars
  frozen_eq : ∀ v < t.numVars, t'.frozen v = t.frozen v
  frozen_mono : ∀ v, t.frozen v = true → t'.frozen v = true
  frozen_or : ∀ v, t'.frozen v = true → t.frozen v = true ∨ v < t'.numVars
  eliminable_eq : ∀ v, t'.eliminable v = t.eliminable v

namespace Adds

theorem refl (t : Trace) : Adds t t :=
  ⟨⟨[], rfl, by simp⟩, le_rfl, fun _ _ => rfl, fun _ => id, fun _ => Or.inl, fun _ => rfl⟩

theorem trans (h : Adds t t') (h' : Adds t' t'') : Adds t t'' where
  calls := by
    obtain ⟨calls, rfl, hcalls⟩ := h.calls
    obtain ⟨calls', rfl, hcalls'⟩ := h'.calls
    exact ⟨calls' ++ calls, (List.append_assoc _ _ _).symm,
      List.forall_mem_append.mpr ⟨hcalls', hcalls⟩⟩
  numVars_le := h.numVars_le.trans h'.numVars_le
  frozen_eq v hv := (h'.frozen_eq v (hv.trans_le h.numVars_le)).trans (h.frozen_eq v hv)
  frozen_mono v hv := h'.frozen_mono v (h.frozen_mono v hv)
  frozen_or v hv := (h'.frozen_or v hv).elim
    (fun hv => (h.frozen_or v hv).imp_right fun hlt => hlt.trans_le h'.numVars_le) Or.inr
  eliminable_eq v := (h'.eliminable_eq v).trans (h.eliminable_eq v)

/-- One more call that does not solve. -/
theorem cons_calls (h : Adds t t') {call : Event} (hcall : call.Build) :
    ∃ calls : Trace, call :: t' = calls ++ t ∧ ∀ c ∈ calls, c.Build := by
  obtain ⟨calls, rfl, hcalls⟩ := h.calls
  exact ⟨call :: calls, rfl, List.forall_mem_cons.mpr ⟨hcall, hcalls⟩⟩

theorem newVar (h : Adds t t') : Adds t (.newVar :: t') :=
  ⟨h.cons_calls trivial, h.numVars_le.trans (Nat.le_succ _), h.frozen_eq, h.frozen_mono,
    fun v hv => (h.frozen_or v hv).imp_right Nat.lt_succ_of_lt, h.eliminable_eq⟩

theorem addClause (h : Adds t t') (clause : List Lit) : Adds t (.addClause clause :: t') :=
  ⟨h.cons_calls trivial, h.numVars_le, h.frozen_eq, h.frozen_mono, h.frozen_or,
    h.eliminable_eq⟩

/-- A new variable is frozen. -/
theorem freezeVar (h : Adds t t') {b : Bool} {w : ℕ} (hw : t.numVars ≤ w)
    (hw' : w < t'.numVars) : Adds t (.freezeVar (.var b w) :: t') := by
  refine ⟨h.cons_calls trivial, h.numVars_le, ?_, ?_, ?_, h.eliminable_eq⟩
  · intro v hv
    rw [frozen, decide_eq_false (by omega), Bool.false_or]
    exact h.frozen_eq v hv
  · intro v hv
    rw [frozen, h.frozen_mono v hv, Bool.or_true]
  · intro v hv
    rw [frozen, Bool.or_eq_true, decide_eq_true_iff] at hv
    rcases hv with rfl | hv
    · exact Or.inr hw'
    · exact h.frozen_or v hv

theorem of_quiet (t : Trace) {calls : Trace} (h : ∀ call ∈ calls, call.Quiet) :
    Adds t (calls ++ t) := by
  induction calls with
  | nil => exact refl t
  | cons call calls ih =>
      have ih := ih fun c hc => h c (List.mem_cons_of_mem _ hc)
      cases call with
      | newVar => exact ih.newVar
      | addClause clause => exact ih.addClause clause
      | freezeVar l => exact (h _ List.mem_cons_self).elim
      | solve as b answer => exact (h _ List.mem_cons_self).elim

/-- The `Solve` calls are the same. -/
theorem mem_solve_iff (h : Adds t t') {as : List Lit} {b : Bool}
    {answer : Option (ℕ → Bool)} : Event.solve as b answer ∈ t' ↔ .solve as b answer ∈ t := by
  obtain ⟨calls, rfl, hcalls⟩ := h.calls
  have hnot : Event.solve as b answer ∉ calls := fun hmem => hcalls _ hmem
  rw [List.mem_append, or_iff_right hnot]

end Adds

/-- There was no `Solve` call. -/
def Unsolved (t : Trace) : Prop :=
  ∀ call ∈ t, call.Build

theorem Unsolved.eliminable (h : t.Unsolved) (v : ℕ) : t.eliminable v = false := by
  rw [Bool.eq_false_iff]
  intro helim
  obtain ⟨between, as, answer, before, rfl, -⟩ := eliminable_iff.mp helim
  exact h (.solve as true answer) (by simp)

theorem Unsolved.usable (h : t.Unsolved) (l : Lit) : l.usable t = true := by
  cases l with
  | undef => rfl
  | const b => rfl
  | var b v =>
      rw [Lit.usable, h.eliminable]
      rfl

theorem Unsolved.disciplined (h : t.Unsolved) : t.disciplined = true := by
  rw [disciplined_iff]
  rintro later clause earlier rfl l -
  exact Unsolved.usable (fun call hcall => h call (by simp [hcall])) l

/-- The variable can have been eliminated, or it can be in the next simplification. -/
def Exposed (t : Trace) (v : ℕ) : Prop :=
  t.eliminable v = true ∨ v < t.numVars ∧ t.frozen v = false

theorem eliminable_lt (h : t.eliminable v = true) : v < t.numVars := by
  obtain ⟨between, as, answer, before, rfl, hlt, -⟩ := eliminable_iff.mp h
  rw [List.append_cons]
  exact hlt.trans_le (numVars_le_append _ before)

end Trace

/-- A call that solves or adds a clause. -/
def Event.Search : Event → Prop
  | .solve _ _ _ => True
  | .addClause _ => True
  | _ => False

namespace Lit

variable {t t' : Trace} {l : Lit}

/-- The variable of the literal was frozen before every simplification. -/
def Kept (t : Trace) : Lit → Prop
  | var _ v => t.frozen v = true ∧ t.eliminable v = false
  | _ => True

/-- The literal is an exposed variable. -/
def Exposed (t : Trace) : Lit → Prop
  | var _ v => t.Exposed v
  | _ => False

/-- The variable of the literal is not one of the first `N`. -/
def Above (N : ℕ) : Lit → Prop
  | var _ v => N ≤ v
  | _ => True

@[simp] theorem kept_neg : Kept t (-l) ↔ Kept t l := by
  cases l with
  | undef => exact Iff.rfl
  | const b => exact Iff.rfl
  | var b v => exact Iff.rfl

@[simp] theorem usable_neg : (-l).usable t = l.usable t := by
  cases l with
  | undef => rfl
  | const b => rfl
  | var b v => rfl

theorem Kept.usable (h : Kept t l) : l.usable t = true := by
  cases l with
  | undef => rfl
  | const b => rfl
  | var b v =>
      rw [Lit.usable, h.2]
      rfl

/-- A frozen variable is not eliminated later. -/
theorem Kept.cons (h : Kept t l) (call : Event) : Kept (call :: t) l := by
  cases l with
  | undef => trivial
  | const b => trivial
  | var b v =>
      refine ⟨Trace.frozen_append [call] h.1, ?_⟩
      obtain ⟨hfrozen, helim⟩ := h
      cases call with
      | newVar => exact helim
      | addClause clause => exact helim
      | freezeVar l => exact helim
      | solve as b answer =>
          cases b with
          | false => exact helim
          | true =>
              rw [Trace.eliminable, hfrozen, helim]
              simp

theorem Kept.append (h : Kept t l) (calls : Trace) : Kept (calls ++ t) l := by
  induction calls with
  | nil => exact h
  | cons call calls ih => exact ih.cons call

/-- A new variable that is frozen. -/
theorem Kept.of_new {b : Bool} : Kept (.freezeVar (.var b t.numVars) :: .newVar :: t)
    (.var true t.numVars) := by
  refine ⟨Trace.frozen_iff.mpr ⟨b, List.mem_cons_self⟩, ?_⟩
  rw [Bool.eq_false_iff]
  intro helim
  exact absurd (Trace.eliminable_lt (t := t) helim) (lt_irrefl _)

theorem Kept.adds (h : Kept t l) (ht : t.Adds t') : Kept t' l := by
  obtain ⟨calls, rfl, -⟩ := ht.calls
  exact h.append calls

theorem usable_adds (ht : t.Adds t') : l.usable t' = l.usable t := by
  cases l with
  | undef => rfl
  | const b => rfl
  | var b v => rw [usable, usable, ht.eliminable_eq]

/-- A literal stays unusable. -/
theorem usable_append (h : l.usable t = false) (calls : Trace) :
    l.usable (calls ++ t) = false := by
  cases l with
  | undef => exact h
  | const b => exact h
  | var b v =>
      rw [usable, Bool.not_eq_false'] at h ⊢
      exact Trace.eliminable_append calls h

theorem Exposed.cons (h : Exposed t l) {call : Event} (hcall : call.Search) :
    Exposed (call :: t) l := by
  cases l with
  | undef => exact h
  | const b => exact h
  | var b v =>
      cases call with
      | newVar => exact hcall.elim
      | freezeVar l => exact hcall.elim
      | addClause clause => exact h
      | solve as b answer => exact h.imp_left fun helim => Trace.eliminable_append [_] helim

theorem Exposed.adds (h : Exposed t l) (ht : t.Adds t') : Exposed t' l := by
  cases l with
  | undef => exact h
  | const b => exact h
  | var b v =>
      rcases h with helim | ⟨hlt, hfree⟩
      · exact Or.inl ((ht.eliminable_eq v).trans helim)
      · exact Or.inr ⟨hlt.trans_le ht.numVars_le, (ht.frozen_eq v hlt).trans hfree⟩

/-- A simplification may eliminate an exposed variable. -/
theorem Exposed.solve (h : Exposed t l) (as : List Lit) (answer : Option (ℕ → Bool)) :
    l.usable (.solve as true answer :: t) = false := by
  cases l with
  | undef => exact h.elim
  | const b => exact h.elim
  | var b v =>
      rw [usable, Bool.not_eq_false', Trace.eliminable, Bool.or_eq_true, Bool.and_eq_true,
        decide_eq_true_iff, Bool.not_eq_true']
      exact h.symm

end Lit

namespace Trace

variable {t : Trace} {clause : List Lit}

theorem disciplined_addClause (h : t.disciplined = true)
    (hclause : ∀ l ∈ clause, l.usable t = true) :
    disciplined (.addClause clause :: t) = true := by
  rw [disciplined, h, Bool.and_true, List.all_eq_true]
  exact hclause

/-- A clause with an eliminable variable breaks the discipline. -/
theorem not_disciplined_addClause {l : Lit} (hmem : l ∈ clause) (h : l.usable t = false) :
    disciplined (.addClause clause :: t) = false := by
  rw [disciplined, Bool.and_eq_false_iff, List.all_eq_false]
  exact Or.inl ⟨l, hmem, Bool.eq_false_iff.mp h⟩

/-- No later call repairs it. -/
theorem not_disciplined_append (h : t.disciplined = false) (calls : Trace) :
    disciplined (calls ++ t) = false := by
  rw [Bool.eq_false_iff] at h ⊢
  exact fun hd => h (disciplined_append hd)

end Trace

end Triangulator
