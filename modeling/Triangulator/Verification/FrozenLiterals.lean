import Triangulator.Verification.FixedSizeHyper
import Triangulator.Verification.FreezeDiscipline
import Triangulator.Verification.SatEncodings

/-!
# The literals that are frozen

The encodings only create variables and add clauses, apart from the selection variables and
the outputs of the cardinality constraint, which are frozen.  So the connectivity variables
and the variables of the hyperedges are exposed to the first simplification.
-/

namespace Triangulator

open AbortM

section Calls

variable {P : Event → Prop} {t : Trace}

/-- An assertion holds, or the program aborts. -/
theorem wp_assert_any {b : Bool} {Q : Unit → Trace → Prop} (h : Q () t) :
    wp (assert b) Q (fun _ => True) t := by
  rw [wp_assert]
  split
  · exact h
  · trivial

/-- A clause is added, or the program aborts. -/
theorem wp_addClause_any {Q : Unit → Trace → Prop} {clause : List Lit}
    (h : Q () (.addClause clause :: t)) : wp (addClause clause) Q (fun _ => True) t := by
  rw [addClause, wp_bind]
  cases processClause clause with
  | none => trivial
  | some processed =>
      rw [wp_ofOption_some, wp_bind, wp_get, wp_bind, wp_assert]
      split
      · exact h
      · trivial

/-- A variable is frozen, or the program aborts. -/
theorem wp_freezeVar_any {Q : Unit → Trace → Prop} {l : Lit}
    (h : Q () (.freezeVar l :: t)) : wp (freezeVar l) Q (fun _ => True) t := by
  rw [freezeVar, wp_bind, wp_get, wp_bind, wp_assert]
  split
  · exact h
  · trivial

/-- A program that only creates variables and adds clauses. -/
theorem wp_quiet {α : Type} {m : SatM α} {R : Trace → Prop} (h : Builds Event.Quiet m)
    (hR : ∀ t', t.Adds t' → R t') : wp m (fun _ t' => R t') R t :=
  h.logs.wp fun _ hcalls => hR _ (Trace.Adds.of_quiet t hcalls)

/-- No later call repairs a broken discipline. -/
theorem wp_undisciplined {α : Type} {m : SatM α} (h : Builds P m) (ht : t.disciplined = false) :
    wp m (fun _ t' => t'.disciplined = false) (fun _ => True) t :=
  wp_mono (h.logs.wp fun calls _ => Trace.not_disciplined_append ht calls) (fun _ _ h => h)
    fun _ _ => trivial

end Calls

/-! ## New variables -/

namespace CardinalityNetworkBuilder

variable {N : ℕ} {b : CardinalityNetworkBuilder} {t : Trace}

/-- The variables of the builder are not among the first `N`. -/
structure NewVars (N : ℕ) (b : CardinalityNetworkBuilder) (t : Trace) : Prop where
  le : N ≤ t.numVars
  above : ∀ l ∈ b.addVars, l.Above N

theorem above_getD {ls : List Lit} (h : ∀ l ∈ ls, l.Above N) (i : ℕ) :
    (ls.getD i .undef).Above N := by
  by_cases hi : i < ls.length
  · rw [List.getD_eq_getElem _ _ hi]
    exact h _ (List.getElem_mem hi)
  · rw [List.getD_eq_default _ _ (by omega)]
    trivial

theorem wp_var_above (h : NewVars N b t) (id : ℕ) :
    wp (b.var id) (fun r t' => NewVars N r.2 t' ∧ r.1.Above N) (fun _ => True) t := by
  have hloop := wp_foldlM (E := fun _ => True) (s := t) (b := b.addVars)
    (l := List.range (id + 1 - b.addVars.length))
    (f := fun vars _ => do
      let v ← newVar
      pure (vars ++ [v]))
    (fun _ vars t' => NewVars N { b with addVars := vars } t') h
    (by
      rintro pre i post vars t₁ - ⟨hle, habove⟩
      rw [wp_bind, wp_newVar, wp_pure]
      refine ⟨hle.trans (Nat.le_succ _), ?_⟩
      intro l hl
      rcases List.mem_append.mp hl with hl | hl
      · exact habove l hl
      · obtain rfl := List.mem_singleton.mp hl
        exact hle)
  rw [var, wp_bind]
  apply wp_imp hloop
  intro vars t' hvars
  rw [wp_pure]
  exact ⟨hvars, above_getD hvars.above id⟩

theorem wp_nextVar_above (h : NewVars N b t) :
    wp b.nextVar (fun r t' => NewVars N r.2 t' ∧ r.1.Above N) (fun _ => True) t := by
  rw [nextVar, wp_bind]
  apply wp_imp (wp_var_above h b.freeVar)
  rintro r t' ⟨⟨hle, habove⟩, hr⟩
  rw [wp_pure]
  exact ⟨⟨hle, habove⟩, hr⟩

/-- One more entry of a vector. -/
theorem above_update {c : ℕ → Lit} {v : Lit} (hc : ∀ x, (c x).Above N) (hv : v.Above N)
    (i : ℕ) : ∀ x, (Function.update c i v x).Above N := by
  intro x
  by_cases hx : x = i
  · rw [hx, Function.update_self]
    exact hv
  · rw [Function.update_of_ne hx]
    exact hc x

theorem wp_addComparator_above {d1 d2 : Bool} {x y hi : Lit} {lo : Option Lit}
    (h : NewVars N b t) :
    wp (addComparator d1 d2 x y hi lo) (fun _ t' => NewVars N b t') (fun _ => True) t :=
  wp_mono (wp_quiet builds_addComparator fun _ ht => ⟨h.le.trans ht.numVars_le, h.above⟩)
    (fun _ _ => id) fun _ _ => trivial

theorem wp_hMergeBlock_above {d1 d2 : Bool} {le i : ℕ} {c : ℕ → Lit} (h : NewVars N b t)
    (hc : ∀ x, (c x).Above N) :
    wp (hMergeBlock d1 d2 le i (c, b))
      (fun r t' => NewVars N r.2 t' ∧ ∀ x, (r.1 x).Above N) (fun _ => True) t := by
  rw [hMergeBlock, wp_bind]
  have hgates := wp_foldlM (E := fun _ => True) (s := t) (b := b)
    (l := List.range (le / 2 - 1))
    (f := fun b j => do
      let lo ← b.var (b.freeVar + 2 * j + 1)
      let hi ← lo.2.var (b.freeVar + 2 * j)
      addComparator d1 d2 (c (i + j + 1)) (c (i + j + le / 2)) hi.1 (some lo.1)
      pure hi.2)
    (fun _ b t' => NewVars N b t') h
    (by
      rintro pre j post b₁ t₁ - h₁
      rw [wp_bind]
      apply wp_imp (wp_var_above h₁ _)
      rintro lo t₂ ⟨h₂, -⟩
      rw [wp_bind]
      apply wp_imp (wp_var_above h₂ _)
      rintro hi t₃ ⟨h₃, -⟩
      rw [wp_bind]
      exact wp_addComparator_above h₃)
  apply wp_imp hgates
  intro b₁ t₁ h₁
  apply wp_foldlM (fun _ (s : (ℕ → Lit) × CardinalityNetworkBuilder) t' =>
    NewVars N s.2 t' ∧ ∀ x, (s.1 x).Above N) ⟨h₁, hc⟩
  rintro pre j post s t₂ - ⟨h₂, hs⟩
  rw [wp_bind]
  apply wp_imp (wp_nextVar_above h₂)
  rintro v t₃ ⟨h₃, hv⟩
  rw [wp_pure]
  exact ⟨h₃, above_update hs hv _⟩

theorem above_reversePairs {c : ℕ → Lit} (hc : ∀ x, (c x).Above N) (m : ℕ) :
    ∀ x, (reversePairs m c x).Above N := by
  have hswap : ∀ {c : ℕ → Lit}, (∀ x, (c x).Above N) → ∀ i j x,
      (swapEntries c i j x).Above N := fun hc i j =>
    above_update (above_update hc (hc j) i) (hc i) j
  rw [reversePairs]
  generalize List.range m = l
  induction l generalizing c with
  | nil => exact hc
  | cons i l ih =>
      rw [List.foldl_cons]
      apply ih
      by_cases hlt : i < bitReverse m i
      · rw [if_pos hlt]
        exact hswap (hswap hc _ _) _ _
      · rw [if_neg hlt]
        exact hc

theorem wp_hMerge_above {d1 d2 : Bool} {A B : List Lit} (h : NewVars N b t) :
    wp (hMerge b A B d1 d2) (fun r t' => NewVars N r.2 t' ∧ ∀ l ∈ r.1, l.Above N)
      (fun _ => True) t := by
  rw [hMerge, wp_bind]
  apply wp_assert_any
  dsimp only
  rw [wp_bind]
  have hpairs := wp_foldlM (E := fun _ => True) (s := t) (b := ((fun _ => Lit.undef), b))
    (l := List.range A.length)
    (f := fun (s : (ℕ → Lit) × CardinalityNetworkBuilder) i => do
      let hi ← s.2.nextVar
      let lo ← hi.2.nextVar
      addComparator d1 d2 (A.getD i .undef) (B.getD i .undef) hi.1 (some lo.1)
      pure (Function.update (Function.update s.1 (2 * i) hi.1) (2 * i + 1) lo.1, lo.2))
    (fun _ s t' => NewVars N s.2 t' ∧ ∀ x, (s.1 x).Above N) ⟨h, fun _ => trivial⟩
    (by
      rintro pre i post s t₁ - ⟨h₁, hs⟩
      rw [wp_bind]
      apply wp_imp (wp_nextVar_above h₁)
      rintro hi t₂ ⟨h₂, hhi⟩
      rw [wp_bind]
      apply wp_imp (wp_nextVar_above h₂)
      rintro lo t₃ ⟨h₃, hlo⟩
      rw [wp_bind]
      apply wp_imp (wp_addComparator_above h₃)
      intro _ t₄ h₄
      exact ⟨h₄, above_update (above_update hs hhi _) hlo _⟩)
  apply wp_imp hpairs
  rintro s t₁ ⟨h₁, hs⟩
  rw [wp_bind]
  have hrounds := wp_foldlM (E := fun _ => True) (s := t₁)
    (b := (reversePairs A.length s.1, s.2)) (l := List.range (Nat.log 2 A.length))
    (f := fun (s : (ℕ → Lit) × CardinalityNetworkBuilder) level =>
      (List.range (2 * A.length / (4 * 2 ^ level))).foldlM
        (fun s k => hMergeBlock d1 d2 (4 * 2 ^ level) (4 * 2 ^ level * k) s) s)
    (fun _ s t' => NewVars N s.2 t' ∧ ∀ x, (s.1 x).Above N)
    ⟨h₁, above_reversePairs hs _⟩
    (by
      rintro pre level post s t₂ - hs
      apply wp_foldlM (fun _ (s : (ℕ → Lit) × CardinalityNetworkBuilder) t' =>
        NewVars N s.2 t' ∧ ∀ x, (s.1 x).Above N) hs
      rintro pre k post ⟨c, b₁⟩ t₃ - ⟨h₃, hc⟩
      exact wp_hMergeBlock_above h₃ hc)
  apply wp_imp hrounds
  rintro s' t₂ ⟨h₂, hs'⟩
  rw [wp_pure]
  exact ⟨h₂, List.forall_mem_map.mpr fun x _ => hs' x⟩

theorem wp_hSort_above {d1 d2 : Bool} {A : List Lit} {fuel l r : ℕ} (h : NewVars N b t) :
    wp (hSort d1 d2 A fuel b l r) (fun r t' => NewVars N r.2 t' ∧ ∀ l ∈ r.1, l.Above N)
      (fun _ => True) t := by
  induction fuel generalizing b t l r with
  | zero => trivial
  | succ fuel ih =>
      rw [hSort, wp_bind]
      apply wp_assert_any
      rw [wp_bind]
      apply wp_assert_any
      apply wp_ite
      · intro _
        exact wp_hMerge_above h
      · intro _
        rw [wp_bind]
        apply wp_imp (ih h)
        rintro x t₁ ⟨h₁, -⟩
        rw [wp_bind]
        apply wp_imp (ih h₁)
        rintro y t₂ ⟨h₂, -⟩
        exact wp_hMerge_above h₂

/-- The outputs are not among the variables that were there before. -/
theorem wp_equalNetwork_above {input : List Lit} :
    wp (init.equalNetwork input) (fun r _ => ∀ l ∈ r.1, l.Above t.numVars)
      (fun _ => True) t := by
  have hinit : NewVars t.numVars init t := ⟨le_rfl, fun l hl => absurd hl List.not_mem_nil⟩
  rw [equalNetwork, wp_bind]
  apply wp_assert_any
  dsimp only
  rw [wp_bind]
  have hpad := wp_foldlM (E := fun _ => True) (s := t) (b := (input, init))
    (l := List.range (2 ^ Nat.clog 2 input.length - input.length))
    (f := fun (s : List Lit × CardinalityNetworkBuilder) _ => do
      let nl ← s.2.nextVar
      addClause [-nl.1]
      pure (s.1 ++ [nl.1], nl.2))
    (fun _ s t' => NewVars t.numVars s.2 t') hinit
    (by
      rintro pre i post s t₁ - h₁
      rw [wp_bind]
      apply wp_imp (wp_nextVar_above h₁)
      rintro nl t₂ ⟨h₂, -⟩
      rw [wp_bind]
      apply wp_addClause_any
      exact ⟨h₂.le, h₂.above⟩)
  apply wp_imp hpad
  intro s t₁ h₁
  rw [wp_bind, wp_assert]
  by_cases hlen : s.1.length = 2 ^ Nat.clog 2 input.length
  · have hpos := Nat.two_pow_pos (Nat.clog 2 input.length)
    rw [if_pos (decide_eq_true hlen), wp_bind]
    -- The network is one call of `HSort`.
    have hcard : wp (card true true s.1 (2 ^ Nat.clog 2 input.length) s.1.length s.2 0
        (s.1.length - 1)) (fun r t' => NewVars t.numVars r.2 t' ∧ ∀ l ∈ r.1,
          l.Above t.numVars) (fun _ => True) t₁ := by
      obtain ⟨fuel, hfuel⟩ := Nat.exists_eq_succ_of_ne_zero (hlen ▸ hpos).ne'
      rw [hfuel, card, wp_bind]
      apply wp_assert_any
      rw [if_pos (by omega)]
      exact wp_hSort_above h₁
    apply wp_imp hcard
    rintro out t₂ ⟨-, hout⟩
    rw [wp_bind]
    apply wp_assert_any
    rw [wp_bind]
    have hpop := wp_foldlM (E := fun _ => True) (s := t₂) (b := out.1)
      (l := List.range (out.1.length - input.length))
      (f := fun output _ => do
        addClause [-(output.getLastD .undef)]
        pure output.dropLast)
      (fun _ output _ => ∀ l ∈ output, l.Above t.numVars) hout
      (by
        rintro pre i post output t₃ - h₃
        rw [wp_bind]
        apply wp_addClause_any
        exact fun l hl => h₃ l (List.dropLast_subset output hl))
    apply wp_imp hpop
    intro output t₃ h₃
    exact h₃
  · rw [if_neg (by simpa using hlen)]
    trivial

end CardinalityNetworkBuilder

/-- The outputs over at least two inputs are new. -/
theorem SizedEnumerator.wp_cardinalityOutputs_above {cardEncoding : ℕ} {input : List Lit}
    {t : Trace} (h2 : 2 ≤ input.length) :
    wp (cardinalityOutputs cardEncoding input) (fun r _ => ∀ l ∈ r.1, l.Above t.numVars)
      (fun _ => True) t := by
  rw [cardinalityOutputs]
  apply wp_ite
  · intro _
    rw [wp_bind]
    exact CardinalityNetworkBuilder.wp_equalNetwork_above
  · intro _
    apply wp_ite
    · intro _
      rw [TotalizerBuilder.init]
      dsimp only
      rw [if_neg (by omega)]
      apply wp_imp (wp_foldlM (fun _ (s : List Lit × TotalizerBuilder) (t' : Trace) =>
        t.numVars ≤ t'.numVars ∧ ∀ l ∈ s.1, l.Above t.numVars)
        ⟨le_rfl, fun l hl => absurd hl List.not_mem_nil⟩ ?_)
      · rintro r t' ⟨-, hr⟩
        exact hr
      · rintro pre i post s t₁ - ⟨hle, hs⟩
        rw [wp_bind, wp_newVar, wp_pure]
        refine ⟨hle.trans (Nat.le_succ _), ?_⟩
        intro l hl
        rcases List.mem_append.mp hl with hl | hl
        · exact hs l hl
        · obtain rfl := List.mem_singleton.mp hl
          exact hle
    · intro _
      trivial

end Triangulator
