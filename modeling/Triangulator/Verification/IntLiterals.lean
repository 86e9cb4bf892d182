import Triangulator.Model.SatInterface
import Triangulator.Verification.SatCalls

/-!
# Literals as integers

A literal of a variable that is small enough is known by its integer, and the operations of
`Lit` and `ProcessClause` are those on the integers.
-/

namespace Triangulator

/-- The variables below have integers that differ from those of the constants. -/
def IntLit.maxVars : ℕ := 2 ^ 31 - 2

namespace Lit

variable {l l' : Lit}

theorem toInt_neg (l : Lit) : (-l).toInt = -l.toInt := by
  cases l with
  | undef => rfl
  | const b => cases b <;> rfl
  | var b v =>
      cases b with
      | true => rfl
      | false => exact congrArg IntLit.mk (neg_neg _).symm

theorem value_neg (l : Lit) : (-l).toInt.value = -l.toInt.value := by
  rw [toInt_neg]
  rfl

section Range

variable {b : Bool} {v : ℕ}

theorem toInt_pos : (var true v).toInt.value = v + 1 := rfl

theorem toInt_negated : (var false v).toInt.value = -(v + 1) := rfl

theorem natAbs_toInt : (var b v).toInt.value.natAbs = v + 1 := by
  cases b with
  | true =>
      rw [toInt_pos]
      omega
  | false =>
      rw [toInt_negated]
      omega

theorem toInt_pos_iff : 0 < (var b v).toInt.value ↔ b = true := by
  cases b with
  | true =>
      rw [toInt_pos]
      exact iff_of_true (by omega) rfl
  | false =>
      rw [toInt_negated]
      exact iff_of_false (by omega) Bool.false_ne_true

theorem toInt_ne_zero : (var b v).toInt.value ≠ 0 := by
  intro h
  have habs := natAbs_toInt (b := b) (v := v)
  rw [h] at habs
  exact absurd habs (by simp)

end Range

theorem isDef_toInt (l : Lit) : l.toInt.isDef = l.isDef := by
  cases l with
  | undef => rfl
  | const b => cases b <;> rfl
  | var b v =>
      rw [IntLit.isDef, decide_eq_true toInt_ne_zero]
      rfl

/-- The integer of a variable is no constant. -/
theorem Valid.toInt_var {b : Bool} {v : ℕ} (h : (var b v).Valid IntLit.maxVars) :
    (var b v).toInt.value ≠ IntLit.kTrueVal ∧ (var b v).toInt.value ≠ -IntLit.kTrueVal := by
  have habs := natAbs_toInt (b := b) (v := v)
  have hlt : v < IntLit.maxVars := h
  rw [IntLit.maxVars] at hlt
  rw [IntLit.kTrueVal]
  omega

theorem Valid.isTrue_toInt (h : l.Valid IntLit.maxVars) : l.toInt.isTrue = l.isTrue := by
  cases l with
  | undef => exact h.elim
  | const b => cases b <;> rfl
  | var b v =>
      rw [IntLit.isTrue, decide_eq_false h.toInt_var.1]
      rfl

theorem Valid.isFalse_toInt (h : l.Valid IntLit.maxVars) : l.toInt.isFalse = l.isFalse := by
  cases l with
  | undef => exact h.elim
  | const b => cases b <;> rfl
  | var b v =>
      rw [IntLit.isFalse, decide_eq_false h.toInt_var.2]
      rfl

/-- Different literals have different integers. -/
theorem Valid.value_inj (h : l.Valid IntLit.maxVars) (h' : l'.Valid IntLit.maxVars)
    (heq : l.toInt.value = l'.toInt.value) : l = l' := by
  cases l with
  | undef => exact h.elim
  | const b =>
      cases l' with
      | undef => exact h'.elim
      | const b' =>
          cases b <;> cases b' <;> first | rfl | exact absurd heq (by decide)
      | var b' v' =>
          cases b with
          | true => exact absurd heq.symm h'.toInt_var.1
          | false => exact absurd heq.symm h'.toInt_var.2
  | var b v =>
      cases l' with
      | undef => exact h'.elim
      | const b' =>
          cases b' with
          | true => exact absurd heq h.toInt_var.1
          | false => exact absurd heq h.toInt_var.2
      | var b' v' =>
          have hv : v + 1 = v' + 1 := by rw [← natAbs_toInt (b := b), heq, natAbs_toInt]
          have hb : b = b' := by
            rw [Bool.eq_iff_iff, ← toInt_pos_iff (v := v), heq, toInt_pos_iff]
          rw [hb, Nat.succ.inj hv]

end Lit

/-! ## `ProcessClause` -/

/-- The set of integers is that of the literals kept so far. -/
theorem processClauseLoop_toInt {clause proClause : List Lit} {litValues : Finset ℤ}
    (h : ∀ l ∈ clause, l.Valid IntLit.maxVars) (hpro : ∀ l ∈ proClause, l.Valid IntLit.maxVars)
    (hvalues : ∀ x, x ∈ litValues ↔ ∃ l ∈ proClause, l.toInt.value = x) :
    IntLit.processClauseLoop (clause.map Lit.toInt) (proClause.map Lit.toInt) litValues =
      (processClauseLoop clause proClause).map (List.map Lit.toInt) := by
  induction clause generalizing proClause litValues with
  | nil => rfl
  | cons l clause ih =>
      have hl := h l List.mem_cons_self
      have hrest := fun l' hl' => h l' (List.mem_cons_of_mem _ hl')
      have hmem : -l.toInt.value ∈ litValues ↔ -l ∈ proClause := by
        rw [hvalues, ← Lit.value_neg]
        constructor
        · rintro ⟨l', hl', heq⟩
          exact (hpro l' hl').value_inj (Lit.valid_neg.mpr hl) heq ▸ hl'
        · exact fun hl' => ⟨-l, hl', rfl⟩
      rw [List.map_cons, IntLit.processClauseLoop, processClauseLoop, Lit.isDef_toInt,
        hl.isTrue_toInt, hl.isFalse_toInt, if_pos hl.isDef, if_pos hl.isDef]
      by_cases htrue : l.isTrue = true
      · rw [if_pos htrue, if_pos htrue]
        rfl
      rw [if_neg htrue, if_neg htrue]
      by_cases hfalse : l.isFalse = true
      · rw [if_pos hfalse, if_pos hfalse]
        exact ih hrest hpro hvalues
      rw [if_neg hfalse, if_neg hfalse]
      by_cases hneg : -l ∈ proClause
      · rw [if_pos hneg, if_pos (hmem.mpr hneg)]
        rfl
      · rw [if_neg hneg, if_neg (hmem.not.mpr hneg)]
        have hvalues' : ∀ x, x ∈ insert l.toInt.value litValues ↔
            ∃ l' ∈ proClause ++ [l], l'.toInt.value = x := by
          intro x
          rw [Finset.mem_insert, hvalues]
          simp only [List.mem_append, List.mem_singleton, or_and_right, exists_or,
            exists_eq_left]
          rw [or_comm, eq_comm]
        have hstep := ih hrest (List.forall_mem_append.mpr ⟨hpro, by simpa using hl⟩) hvalues'
        rw [← hstep, List.map_append]
        rfl

theorem processClause_toInt {clause : List Lit} (h : ∀ l ∈ clause, l.Valid IntLit.maxVars) :
    IntLit.processClause (clause.map Lit.toInt) =
      (processClause clause).map (List.map Lit.toInt) := by
  have hloop := processClauseLoop_toInt h (List.forall_mem_nil _) fun x =>
    iff_of_false (Finset.notMem_empty x) (by simp)
  exact hloop

/-- The literals of a clause that is no tautology are kept or false. -/
theorem processClauseLoop_kept {clause proClause c : List Lit}
    (h : processClauseLoop clause proClause = some c) (hc : c ≠ [Lit.trueLit]) :
    (∀ l ∈ proClause, l ∈ c) ∧ ∀ l ∈ clause, l ∈ c ∨ l = Lit.falseLit := by
  induction clause generalizing proClause with
  | nil =>
      obtain rfl := Option.some_inj.mp h
      exact ⟨fun l hl => hl, fun l hl => absurd hl List.not_mem_nil⟩
  | cons a clause ih =>
      rw [processClauseLoop] at h
      split_ifs at h with hdef htrue hfalse hneg
      · exact absurd (Option.some_inj.mp h).symm hc
      · obtain ⟨hpro, hclause⟩ := ih h
        exact ⟨hpro, List.forall_mem_cons.mpr ⟨Or.inr (of_decide_eq_true hfalse), hclause⟩⟩
      · exact absurd (Option.some_inj.mp h).symm hc
      · obtain ⟨hpro, hclause⟩ := ih h
        have ha := hpro a (List.mem_append_right _ List.mem_cons_self)
        exact ⟨fun l hl => hpro l (List.mem_append_left _ hl),
          List.forall_mem_cons.mpr ⟨Or.inl ha, hclause⟩⟩

/-- A tautology stays one, whatever the integers of its literals are. -/
theorem processClauseLoop_tautology {clause proClause : List Lit} {pro : List IntLit}
    {litValues : Finset ℤ} (h : processClauseLoop clause proClause = some [Lit.trueLit])
    (hpro : Lit.trueLit ∉ proClause) (htop : IntLit.kTrueVal ∉ litValues)
    (hvalues : ∀ l ∈ proClause, l.toInt.value ∈ litValues ∨ l.toInt.isFalse = true) :
    IntLit.processClauseLoop (clause.map Lit.toInt) pro litValues = some [IntLit.trueLit] := by
  induction clause generalizing proClause pro litValues with
  | nil =>
      obtain rfl := Option.some_inj.mp h
      exact absurd List.mem_cons_self hpro
  | cons a clause ih =>
      rw [processClauseLoop] at h
      rw [List.map_cons, IntLit.processClauseLoop, Lit.isDef_toInt]
      split_ifs at h with hdef htrue hfalse hneg
      · rw [if_pos hdef, of_decide_eq_true htrue]
        rfl
      · rw [if_pos hdef, of_decide_eq_true hfalse]
        exact ih h hpro htop hvalues
      · rw [if_pos hdef]
        by_cases hone : a.toInt.isTrue = true
        · rw [if_pos hone]
        rw [if_neg hone, if_neg, if_pos]
        · rw [← Lit.value_neg]
          refine (hvalues _ hneg).resolve_right fun hzero => hone ?_
          rw [IntLit.isFalse, decide_eq_true_iff, Lit.value_neg, neg_inj] at hzero
          exact decide_eq_true hzero
        · intro hzero
          rw [IntLit.isFalse, decide_eq_true_iff] at hzero
          rcases hvalues _ hneg with hmem | hbottom
          · rw [Lit.value_neg, hzero, neg_neg] at hmem
            exact htop hmem
          · rw [IntLit.isFalse, decide_eq_true_iff, Lit.value_neg, neg_inj] at hbottom
            exact hone (decide_eq_true hbottom)
      · have hpro' : Lit.trueLit ∉ proClause ++ [a] := by
          rw [List.mem_append, List.mem_singleton]
          rintro (hmem | rfl)
          · exact hpro hmem
          · exact htrue rfl
        rw [if_pos hdef]
        by_cases hone : a.toInt.isTrue = true
        · rw [if_pos hone]
        rw [if_neg hone]
        by_cases hzero : a.toInt.isFalse = true
        · rw [if_pos hzero]
          exact ih h hpro' htop (List.forall_mem_append.mpr
            ⟨hvalues, List.forall_mem_singleton.mpr (Or.inr hzero)⟩)
        rw [if_neg hzero]
        by_cases hmem : -a.toInt.value ∈ litValues
        · rw [if_pos hmem]
        · rw [if_neg hmem]
          refine ih h hpro' ?_ (List.forall_mem_append.mpr ⟨fun l hl => ?_, ?_⟩)
          · rw [Finset.mem_insert, not_or]
            exact ⟨fun heq => hone (decide_eq_true heq.symm), htop⟩
          · exact (hvalues l hl).imp_left Finset.mem_insert_of_mem
          · exact List.forall_mem_singleton.mpr (Or.inl (Finset.mem_insert_self _ _))

/-- The check for a tautology. -/
theorem isTautology_toInt {c : List Lit} (h : ∀ l ∈ c, l.Valid IntLit.maxVars) :
    IntLit.isTautology (c.map Lit.toInt) = decide (c = [Lit.trueLit]) := by
  rw [IntLit.isTautology, Bool.eq_iff_iff, Bool.and_eq_true, decide_eq_true_iff,
    decide_eq_true_iff, List.length_map, List.all_map, List.all_eq_true, List.length_eq_one_iff]
  constructor
  · rintro ⟨⟨l, rfl⟩, hall⟩
    have htrue := hall l List.mem_cons_self
    rw [Function.comp_apply, (h l List.mem_cons_self).isTrue_toInt, Lit.isTrue,
      decide_eq_true_iff] at htrue
    rw [htrue]
  · rintro rfl
    exact ⟨⟨_, rfl⟩, fun l hl => List.mem_singleton.mp hl ▸ rfl⟩

end Triangulator
