import Triangulator.Model.Enumerator
import Triangulator.Verification.Components
import Triangulator.Verification.SatCalls

/-!
# The basic encoding

The clauses of `BuildBasicEncoding` say exactly that the values of the connectivity
variables are closed under steps outside the solution, that the solution becomes a
clique and that no vertex is connected to the whole solution.
-/

namespace Triangulator

open AbortM

namespace Enumerator

variable {n : ℕ} {g : Graph n} {t t' : Trace} {E : Trace → Prop}

/-- The conditions on the values `X` of the selection variables and `C` of the
connectivity variables. -/
structure Basic (g : Graph n) (X : Fin n → Bool) (C : Fin n → Fin n → Bool) : Prop where
  symm : ∀ i ii, i ≠ ii → C i ii = C ii i
  edge : ∀ i ii, i ≠ ii → g.hasEdge i ii = true → C i ii = true
  step : ∀ i ii, i ≠ ii → ∀ iii ∈ g.adjList ii, iii ≠ i →
    C i ii = true → X ii = false → C i iii = true
  clique : ∀ i ii, i < ii → X i = true → X ii = true → C i ii = true
  noFull : ∀ i, X i = true ∨ ∃ ii, i ≠ ii ∧ X ii = true ∧ C i ii = false

/-- The values of the selection variables. -/
def xValue (xVar : Fin n → Lit) (σ : ℕ → Bool) (i : Fin n) : Bool :=
  (xVar i).eval σ

/-- The values of the connectivity variables. -/
def cValue (cVar : Fin n → Fin n → Lit) (σ : ℕ → Bool) (i ii : Fin n) : Bool :=
  (cVar i ii).eval σ

/-- The literals of the basic encoding are those of created variables. -/
structure BasicLits (g : Graph n) (t : Trace) (xVar : Fin n → Lit)
    (cVar : Fin n → Fin n → Lit) : Prop where
  x_var : ∀ i, ∃ v, xVar i = .var true v ∧ v < t.numVars
  c_valid : ∀ i ii, i ≠ ii → (cVar i ii).Valid t.numVars
  c_symm : ∀ i ii, i ≠ ii → cVar i ii = cVar ii i
  c_edge : ∀ i ii, i ≠ ii → g.hasEdge i ii = true → cVar i ii = .trueLit

theorem BasicLits.x_valid {xVar : Fin n → Lit} {cVar : Fin n → Fin n → Lit}
    (h : BasicLits g t xVar cVar) (i : Fin n) : (xVar i).Valid t.numVars := by
  obtain ⟨v, hv, hlt⟩ := h.x_var i
  rw [hv]
  exact hlt

theorem BasicLits.grows {xVar : Fin n → Lit} {cVar : Fin n → Fin n → Lit}
    (h : BasicLits g t xVar cVar) (ht : Trace.Grows t t') : BasicLits g t' xVar cVar := by
  refine ⟨fun i => ?_, fun i ii hne => ht.valid (h.c_valid i ii hne), h.c_symm, h.c_edge⟩
  obtain ⟨v, hv, hlt⟩ := h.x_var i
  exact ⟨v, hv, lt_of_lt_of_le hlt ht.numVars_le⟩

/-- The assignment gives the literals of the basic encoding their intended
values. -/
structure Values (xVar : Fin n → Lit) (cVar : Fin n → Fin n → Lit) (σ : ℕ → Bool)
    (X : Fin n → Bool) (C : Fin n → Fin n → Bool) : Prop where
  x_eq : ∀ i, (xVar i).eval σ = X i
  c_eq : ∀ i ii, i ≠ ii → (cVar i ii).eval σ = C i ii

theorem Values.congr {xVar : Fin n → Lit} {cVar : Fin n → Fin n → Lit} {σ σ' : ℕ → Bool}
    {X : Fin n → Bool} {C : Fin n → Fin n → Bool} (hl : BasicLits g t xVar cVar)
    (h : Values xVar cVar σ X C) (hagree : AgreeBelow t.numVars σ σ') :
    Values xVar cVar σ' X C :=
  ⟨fun i => (hagree.eval (hl.x_valid i)).trans (h.x_eq i),
    fun i ii hne => (hagree.eval (hl.c_valid i ii hne)).trans (h.c_eq i ii hne)⟩

/-! ## Variables -/

/-- The selection variables take all values. -/
theorem wp_selectionVars :
    wp (selectionVars n)
      (fun xVar t' => t'.Scoped ∧ (∀ i, ∃ v, xVar i = .var true v ∧ v < t'.numVars) ∧
        ∀ X : Fin n → Bool, ∃ σ, t'.Models σ ∧ ∀ i, (xVar i).eval σ = X i) E [] := by
  have hloop := wp_foldlM_finRange (n := n) (E := E)
    (f := fun xVar i => do
      let v ← newVar
      freezeVar v
      pure (Function.update xVar i v))
    (b := fun _ => Lit.undef) (s := [])
    (fun k xVar t' => t'.Scoped ∧
      (∀ i : Fin n, i.val < k → ∃ v, xVar i = .var true v ∧ v < t'.numVars) ∧
      ∀ X : Fin n → Bool, ∃ σ, t'.Models σ ∧ ∀ i : Fin n, i.val < k → (xVar i).eval σ = X i)
    ⟨Trace.scoped_nil, fun _ hi => absurd hi (Nat.not_lt_zero _),
      fun _ => ⟨fun _ => false, Trace.models_nil, fun _ hi => absurd hi (Nat.not_lt_zero _)⟩⟩
    (fun k xVar t₁ hI => by
      obtain ⟨hscope, hvars, hval⟩ := hI
      rw [wp_bind, wp_newVar, wp_bind]
      apply wp_freezeVar (Nat.lt_succ_self _)
      rw [wp_pure]
      refine ⟨hscope.newVar, fun i hi => ?_, fun X => ?_⟩
      · by_cases hik : i = k
        · rw [hik, Function.update_self]
          exact ⟨_, rfl, Nat.lt_succ_self _⟩
        · rw [Function.update_of_ne hik]
          obtain ⟨v, hv, hlt⟩ := hvars i (by have := Fin.val_ne_of_ne hik; omega)
          exact ⟨v, hv, Nat.lt_succ_of_lt hlt⟩
      · obtain ⟨σ, hσ, hX⟩ := hval X
        refine ⟨_, hσ.update hscope (X k), fun i hi => ?_⟩
        by_cases hik : i = k
        · rw [hik, Function.update_self]
          exact Function.update_self _ _ _
        · rw [Function.update_of_ne hik]
          have hlt : i.val < k.val := by
            have := Fin.val_ne_of_ne hik
            omega
          obtain ⟨v, hv, hvlt⟩ := hvars i hlt
          rw [← hX i hlt, hv]
          exact AgreeBelow.update _ _ _ v hvlt)
  apply wp_imp hloop
  rintro xVar t' ⟨hscope, hvars, hval⟩
  refine ⟨hscope, fun i => hvars i i.isLt, fun X => ?_⟩
  obtain ⟨σ, hσ, hX⟩ := hval X
  exact ⟨σ, hσ, fun i => hX i i.isLt⟩

theorem setEntry_apply (c : Fin n → Fin n → Lit) (i ii : Fin n) (l : Lit) (a b : Fin n) :
    setEntry c i ii l a b = if a = i ∧ b = ii then l else c a b := by
  by_cases ha : a = i
  · subst ha
    by_cases hb : b = ii
    · subst hb
      simp [setEntry]
    · simp [setEntry, hb]
  · simp [setEntry, ha]

/-- The entries of the connectivity matrix in front of the position `(k, j)`. -/
structure CPartial (g : Graph n) (t₀ t : Trace) (k j : ℕ) (cVar : Fin n → Fin n → Lit) :
    Prop where
  grows : Trace.Grows t₀ t
  valid : ∀ a b : Fin n, a ≠ b → (a.val < k ∨ a.val = k ∧ b.val < j) →
    (cVar a b).Valid t.numVars
  symm : ∀ a b : Fin n, b < a → (a.val < k ∨ a.val = k ∧ b.val < j) → cVar a b = cVar b a
  edge : ∀ a b : Fin n, a < b → (a.val < k ∨ a.val = k ∧ b.val < j) →
    g.hasEdge a b = true → cVar a b = .trueLit
  extend : ∀ C : Fin n → Fin n → Bool,
    (∀ a b, a ≠ b → C a b = C b a) → (∀ a b, a ≠ b → g.hasEdge a b = true → C a b = true) →
    ∀ σ, t₀.Models σ → ∃ σ', AgreeBelow t₀.numVars σ σ' ∧ t.Models σ' ∧
      ∀ a b : Fin n, a ≠ b → (a.val < k ∨ a.val = k ∧ b.val < j) →
        (cVar a b).eval σ' = C a b

/-- The step of the loop at `(i, ii)` when the entry gets a literal that has the
intended value. -/
theorem CPartial.set {t₀ : Trace} {i ii : Fin n} {cVar : Fin n → Fin n → Lit} {l : Lit}
    (h : CPartial g t₀ t i ii cVar) (ht : Trace.Grows t t') (hl : l.Valid t'.numVars)
    (hsymm : ii < i → l = cVar ii i)
    (hedge : i < ii → g.hasEdge i ii = true → l = .trueLit)
    (hext : ∀ C : Fin n → Fin n → Bool, (∀ a b, a ≠ b → C a b = C b a) →
      (∀ a b, a ≠ b → g.hasEdge a b = true → C a b = true) →
      ∀ σ, t.Models σ → (∀ a b : Fin n, a ≠ b →
        (a.val < i.val ∨ a.val = i.val ∧ b.val < ii.val) → (cVar a b).eval σ = C a b) →
      ∃ σ', AgreeBelow t.numVars σ σ' ∧ t'.Models σ' ∧ l.eval σ' = C i ii) :
    CPartial g t₀ t' i (ii + 1) (setEntry cVar i ii l) := by
  have hcases : ∀ a b : Fin n, (a.val < i.val ∨ a.val = i.val ∧ b.val < ii.val + 1) →
      a = i ∧ b = ii ∨ ¬(a = i ∧ b = ii) ∧
        (a.val < i.val ∨ a.val = i.val ∧ b.val < ii.val) := by
    intro a b hab
    by_cases he : a = i ∧ b = ii
    · exact Or.inl he
    · refine Or.inr ⟨he, ?_⟩
      rw [Fin.ext_iff, Fin.ext_iff] at he
      omega
  refine ⟨h.grows.trans ht, fun a b hne hab => ?_, fun a b hlt hab => ?_,
    fun a b hlt hab hadj => ?_, fun C hC hCe σ hσ => ?_⟩
  · rw [setEntry_apply]
    rcases hcases a b hab with he | ⟨he, hab⟩
    · rw [if_pos he]
      exact hl
    · rw [if_neg he]
      exact ht.valid (h.valid a b hne hab)
  · rw [setEntry_apply, setEntry_apply]
    have hne : ¬(b = i ∧ a = ii) := by
      rintro ⟨rfl, rfl⟩
      rw [Fin.lt_def] at hlt
      omega
    rw [if_neg hne]
    rcases hcases a b hab with he | ⟨he, hab⟩
    · obtain ⟨rfl, rfl⟩ := he
      rw [if_pos ⟨rfl, rfl⟩]
      exact hsymm hlt
    · rw [if_neg he]
      exact h.symm a b hlt hab
  · rw [setEntry_apply]
    rcases hcases a b hab with he | ⟨he, hab⟩
    · obtain ⟨rfl, rfl⟩ := he
      rw [if_pos ⟨rfl, rfl⟩]
      exact hedge hlt hadj
    · rw [if_neg he]
      exact h.edge a b hlt hab hadj
  · obtain ⟨σ₁, ha₁, hσ₁, hval₁⟩ := h.extend C hC hCe σ hσ
    obtain ⟨σ₂, ha₂, hσ₂, hval₂⟩ := hext C hC hCe σ₁ hσ₁ hval₁
    refine ⟨σ₂, ha₁.trans ha₂ h.grows.numVars_le, hσ₂, fun a b hne hab => ?_⟩
    rw [setEntry_apply]
    rcases hcases a b hab with he | ⟨he, hab⟩
    · rw [if_pos he, he.1, he.2]
      exact hval₂
    · rw [if_neg he, ha₂.eval (h.valid a b hne hab)]
      exact hval₁ a b hne hab

/-- The connectivity variables take all symmetric values that connect adjacent
vertices. -/
theorem wp_connectivityVars (ht : t.Scoped) :
    wp (connectivityVars g) (fun cVar t' => CPartial g t t' n 0 cVar) E t := by
  apply wp_foldlM_finRange (fun k cVar t' => CPartial g t t' k 0 cVar)
  · refine ⟨Trace.Grows.refl ht, fun a b _ hab => by omega, fun a b _ hab => by omega,
      fun a b _ hab => by omega, fun C _ _ σ hσ => ⟨σ, AgreeBelow.refl _ σ, hσ, ?_⟩⟩
    exact fun a b _ hab => by omega
  intro i cVar t₁ hI
  have hrow := wp_foldlM_finRange (n := n) (E := E)
    (f := fun cVar ii =>
      if i = ii then pure cVar
      else if i < ii then do
        let l ← (if g.hasEdge i ii then pure .trueLit else newVar)
        pure (setEntry cVar i ii l)
      else do
        assert (cVar ii i).isDef
        pure (setEntry cVar i ii (cVar ii i)))
    (b := cVar) (s := t₁) (fun j cVar t' => CPartial g t t' i j cVar) hI ?_
  · apply wp_imp hrow
    intro cVar' t' h
    have hpos : ∀ a b : Fin n, (a.val < i.val + 1 ∨ a.val = i.val + 1 ∧ b.val < 0) →
        (a.val < i.val ∨ a.val = i.val ∧ b.val < n) := by
      intro a b hab
      have := b.isLt
      omega
    refine ⟨h.grows, fun a b hne hab => h.valid a b hne (hpos a b hab),
      fun a b hlt hab => h.symm a b hlt (hpos a b hab),
      fun a b hlt hab => h.edge a b hlt (hpos a b hab), fun C hC hCe σ hσ => ?_⟩
    obtain ⟨σ', ha, hσ', hval⟩ := h.extend C hC hCe σ hσ
    exact ⟨σ', ha, hσ', fun a b hne hab => hval a b hne (hpos a b hab)⟩
  intro ii cVar t₂ h
  have hsc := h.grows.wellScoped
  by_cases hii : i = ii
  · subst hii
    rw [if_pos rfl, wp_pure]
    have hpos : ∀ a b : Fin n, a ≠ b → (a.val < i.val ∨ a.val = i.val ∧ b.val < i.val + 1) →
        (a.val < i.val ∨ a.val = i.val ∧ b.val < i.val) := by
      intro a b hne hab
      rw [Ne, Fin.ext_iff] at hne
      omega
    refine ⟨h.grows, fun a b hne hab => h.valid a b hne (hpos a b hne hab),
      fun a b hlt hab => h.symm a b hlt (hpos a b (ne_of_gt hlt) hab),
      fun a b hlt hab => h.edge a b hlt (hpos a b (ne_of_lt hlt) hab),
      fun C hC hCe σ hσ => ?_⟩
    obtain ⟨σ', ha, hσ', hval⟩ := h.extend C hC hCe σ hσ
    exact ⟨σ', ha, hσ', fun a b hne hab => hval a b hne (hpos a b hne hab)⟩
  · rw [if_neg hii]
    by_cases hlt : i < ii
    · rw [if_pos hlt, wp_bind]
      by_cases hadj : g.hasEdge i ii = true
      · rw [if_pos hadj, wp_pure, wp_pure]
        apply h.set (Trace.Grows.refl hsc) Lit.valid_trueLit
          (fun hlt' => absurd hlt' (lt_asymm hlt)) (fun _ _ => rfl)
        intro C _ hCe σ hσ _
        exact ⟨σ, AgreeBelow.refl _ σ, hσ, (hCe i ii hii hadj).symm⟩
      · rw [if_neg hadj, wp_newVar, wp_pure]
        apply h.set (Trace.Grows.refl hsc).newVar (Nat.lt_succ_self _)
          (fun hlt' => absurd hlt' (lt_asymm hlt)) (fun _ hadj' => absurd hadj' hadj)
        intro C _ _ σ hσ _
        exact ⟨_, AgreeBelow.update _ _ (C i ii), hσ.update hsc _, Function.update_self _ _ _⟩
    · have hgt : ii < i := lt_of_le_of_ne (not_lt.mp hlt) (Ne.symm hii)
      have hvalid := h.valid ii i (Ne.symm hii) (Or.inl hgt)
      rw [if_neg hlt, wp_bind]
      apply wp_assert_of hvalid.isDef
      rw [wp_pure]
      apply h.set (Trace.Grows.refl hsc) hvalid (fun _ => rfl)
        (fun hlt' => absurd hlt' hlt)
      intro C hC _ σ hσ hval
      exact ⟨σ, AgreeBelow.refl _ σ, hσ,
        (hval ii i (Ne.symm hii) (Or.inl hgt)).trans (hC ii i (Ne.symm hii))⟩

/-! ## Clauses -/

section Clauses

variable {xVar : Fin n → Lit} {cVar : Fin n → Fin n → Lit}

theorem emits_connectivityClauses (hl : BasicLits g t xVar cVar) :
    Emits t.numVars (connectivityClauses g xVar cVar) fun σ =>
      ∀ i ii, i ≠ ii → ∀ iii ∈ g.adjList ii, iii ≠ i →
        cValue cVar σ i ii = true → xValue xVar σ ii = false →
        cValue cVar σ i iii = true := by
  have hclause : ∀ i ii iii : Fin n, i ≠ ii → iii ≠ i →
      Emits t.numVars (addClause [-cVar i ii, xVar ii, cVar i iii]) fun σ =>
        cValue cVar σ i ii = true → xValue xVar σ ii = false →
          cValue cVar σ i iii = true := by
    intro i ii iii hii hiii
    have h1 := hl.c_valid i ii hii
    have h2 := hl.c_valid i iii (Ne.symm hiii)
    refine (Emits.addClause ?_).congr fun σ => ?_
    · simp only [List.mem_cons, List.not_mem_nil, or_false, forall_eq_or_imp, forall_eq,
        Lit.valid_neg]
      exact ⟨h1, hl.x_valid ii, h2⟩
    · rw [holds_cons, holds_cons, holds_singleton, h1.eval_neg, Bool.not_eq_true', cValue,
        cValue, xValue]
      cases (cVar i ii).eval σ <;> cases (xVar ii).eval σ <;> simp
  have hloop := Emits.forM (N := t.numVars) (l := List.finRange n)
    (f := fun i => forM (List.finRange n) fun ii =>
      if i = ii then pure ⟨⟩
      else forM (g.adjList ii) fun iii =>
        when (iii ≠ i) (addClause [-cVar i ii, xVar ii, cVar i iii]))
    fun i _ => Emits.forM fun ii _ => Emits.ite (fun _ => Emits.pure) fun hne =>
      Emits.forM fun iii _ => Emits.when fun hiii => hclause i ii iii hne hiii
  exact hloop.congr fun σ => by simp

theorem emits_cliqueClauses (hl : BasicLits g t xVar cVar) :
    Emits t.numVars (cliqueClauses xVar cVar) fun σ =>
      ∀ i ii, i < ii → xValue xVar σ i = true → xValue xVar σ ii = true →
        cValue cVar σ i ii = true := by
  have hclause : ∀ i ii : Fin n, i < ii →
      Emits t.numVars (addClause [-xVar i, -xVar ii, cVar i ii]) fun σ =>
        xValue xVar σ i = true → xValue xVar σ ii = true → cValue cVar σ i ii = true := by
    intro i ii hlt
    refine (Emits.addClause ?_).congr fun σ => ?_
    · simp only [List.mem_cons, List.not_mem_nil, or_false, forall_eq_or_imp, forall_eq,
        Lit.valid_neg]
      exact ⟨hl.x_valid i, hl.x_valid ii, hl.c_valid i ii hlt.ne⟩
    · rw [holds_cons, holds_cons, holds_singleton, (hl.x_valid i).eval_neg,
        (hl.x_valid ii).eval_neg, Bool.not_eq_true', Bool.not_eq_true', cValue, xValue, xValue]
      cases (xVar i).eval σ <;> cases (xVar ii).eval σ <;> simp
  have hloop := Emits.forM (N := t.numVars) (l := List.finRange n)
    (f := fun i => forM ((List.finRange n).filter fun ii => decide (i < ii)) fun ii =>
      addClause [-xVar i, -xVar ii, cVar i ii])
    fun i _ => Emits.forM fun ii hii =>
      hclause i ii (of_decide_eq_true (List.mem_filter.mp hii).2)
  exact hloop.congr fun σ => by simp

/-- Some vertex of the solution is not connected to `i`, or `i` is in the
solution. -/
def NotFullAt (X : Fin n → Bool) (C : Fin n → Fin n → Bool) (i : Fin n) : Prop :=
  X i = true ∨ ∃ ii, i ≠ ii ∧ X ii = true ∧ C i ii = false

/-- The clause of a vertex with its auxiliary variables. -/
structure FullClause (t₀ t : Trace) (xVar : Fin n → Lit) (cVar : Fin n → Fin n → Lit)
    (i : Fin n) (k : ℕ) (clause : List Lit) : Prop where
  grows : Trace.Grows t₀ t
  valid : ∀ l ∈ clause, l.Valid t.numVars
  sound : ∀ σ, t.Models σ → Holds σ clause →
    NotFullAt (xValue xVar σ) (cValue cVar σ) i
  extend : ∀ σ, t₀.Models σ → ∃ σ', AgreeBelow t₀.numVars σ σ' ∧ t.Models σ' ∧
    ((xVar i).eval σ = true ∨ (∃ ii : Fin n, ii.val < k ∧ i ≠ ii ∧
      (xVar ii).eval σ = true ∧ (cVar i ii).eval σ = false) → Holds σ' clause)

/-- The loop that collects the clause of a vertex. -/
theorem wp_fullClause {minsepEncoding : ℕ} (ht : t.Scoped) (hl : BasicLits g t xVar cVar)
    (i : Fin n) :
    wp ((List.finRange n).foldlM
        (fun newClause ii =>
          if i = ii then pure newClause
          else do
            let v ← newVar
            addClause [xVar ii, -v]
            addClause [-cVar i ii, -v]
            when (minsepEncoding = 5) (addClause [-xVar ii, cVar i ii, v])
            pure (newClause ++ [v]))
        [xVar i])
      (fun clause t' => FullClause t t' xVar cVar i n clause) E t := by
  apply wp_foldlM_finRange (fun k clause t' => FullClause t t' xVar cVar i k clause)
  · refine ⟨Trace.Grows.refl ht, by simpa using hl.x_valid i, fun σ _ h => ?_,
      fun σ hσ => ⟨σ, AgreeBelow.refl _ σ, hσ, fun h => ?_⟩⟩
    · exact Or.inl (holds_singleton.mp h)
    · rw [holds_singleton]
      apply h.resolve_right
      rintro ⟨ii, hii, -⟩
      exact Nat.not_lt_zero _ hii
  intro ii clause t₁ h
  by_cases hii : i = ii
  · subst hii
    rw [if_pos rfl, wp_pure]
    refine ⟨h.grows, h.valid, h.sound, fun σ hσ => ?_⟩
    obtain ⟨σ', ha, hσ', hcl⟩ := h.extend σ hσ
    refine ⟨σ', ha, hσ', fun hor => hcl (hor.imp_right ?_)⟩
    rintro ⟨b, hb, hne, hx⟩
    exact ⟨b, by have := Fin.val_ne_of_ne hne; omega, hne, hx⟩
  · -- The auxiliary variable says that `ii` is in the solution and not connected.
    have hl₁ := hl.grows h.grows
    have hx := (hl₁.x_valid ii).mono (Nat.le_succ _)
    have hc := (hl₁.c_valid i ii hii).mono (Nat.le_succ _)
    have hv : (Lit.var true t₁.numVars).Valid (t₁.numVars + 1) := Nat.lt_succ_self _
    rw [if_neg hii, wp_bind, wp_newVar]
    have hemits : Emits (t₁.numVars + 1) (do
        addClause [xVar ii, -Lit.var true t₁.numVars]
        addClause [-cVar i ii, -Lit.var true t₁.numVars]
        when (minsepEncoding = 5)
          (addClause [-xVar ii, cVar i ii, Lit.var true t₁.numVars]))
        fun σ => (σ t₁.numVars = true →
          (xVar ii).eval σ = true ∧ (cVar i ii).eval σ = false) ∧
          (minsepEncoding = 5 → (xVar ii).eval σ = true → (cVar i ii).eval σ = false →
            σ t₁.numVars = true) := by
      have h1 : Emits (t₁.numVars + 1) (addClause [xVar ii, -Lit.var true t₁.numVars])
          fun σ => σ t₁.numVars = true → (xVar ii).eval σ = true := by
        refine (Emits.addClause (by simp [hx])).congr fun σ => ?_
        rw [holds_cons, holds_singleton, hv.eval_neg, Lit.eval_var_true]
        cases σ t₁.numVars <;> simp
      have h2 : Emits (t₁.numVars + 1) (addClause [-cVar i ii, -Lit.var true t₁.numVars])
          fun σ => σ t₁.numVars = true → (cVar i ii).eval σ = false := by
        refine (Emits.addClause (by simp [hc])).congr fun σ => ?_
        rw [holds_cons, holds_singleton, hv.eval_neg, hc.eval_neg, Lit.eval_var_true]
        cases σ t₁.numVars <;> simp
      have h3 : Emits (t₁.numVars + 1)
          (addClause [-xVar ii, cVar i ii, Lit.var true t₁.numVars])
          fun σ => (xVar ii).eval σ = true → (cVar i ii).eval σ = false →
            σ t₁.numVars = true := by
        refine (Emits.addClause (by simp [hx, hc])).congr fun σ => ?_
        rw [holds_cons, holds_cons, holds_singleton, hx.eval_neg, Lit.eval_var_true]
        cases (xVar ii).eval σ <;> cases (cVar i ii).eval σ <;> simp
      apply (h1.bind (h2.bind (Emits.when fun _ => h3))).congr
      intro σ
      constructor
      · rintro ⟨ha, hb, hc⟩
        exact ⟨fun h => ⟨ha h, hb h⟩, hc⟩
      · rintro ⟨ha, hb⟩
        exact ⟨fun h => (ha h).1, fun h => (ha h).2, hb⟩
    have hrun := hemits.wp (E := E) h.grows.wellScoped.newVar le_rfl
      (Q := fun _ t' => FullClause t t' xVar cVar i (ii + 1)
        (clause ++ [Lit.var true t₁.numVars])) ?_
    · simp only [wp_bind] at hrun ⊢
      exact hrun
    intro t₂ hnum ht₂ hmod
    have hgrow : Trace.Grows t₁ t₂ :=
      ⟨hnum ▸ Nat.le_succ _, ht₂, fun σ hσ => ((hmod σ).mp hσ).1⟩
    refine ⟨h.grows.trans hgrow, fun l hl' => ?_, fun σ hσ hcl => ?_, fun σ hσ => ?_⟩
    · rcases List.mem_append.mp hl' with hl' | hl'
      · exact hgrow.valid (h.valid l hl')
      · obtain rfl := List.mem_singleton.mp hl'
        rw [hnum]
        exact hv
    · obtain ⟨hσ₁, hF⟩ := (hmod σ).mp hσ
      obtain ⟨l, hl', htrue⟩ := hcl
      rcases List.mem_append.mp hl' with hl' | hl'
      · exact h.sound σ hσ₁ ⟨l, hl', htrue⟩
      · obtain rfl := List.mem_singleton.mp hl'
        exact Or.inr ⟨ii, hii, hF.1 htrue⟩
    · obtain ⟨σ₁, ha₁, hσ₁, hcl₁⟩ := h.extend σ hσ
      set b := (xVar ii).eval σ && !(cVar i ii).eval σ with hb
      have hup := AgreeBelow.update t₁.numVars σ₁ b
      have hx' : (xVar ii).eval (Function.update σ₁ t₁.numVars b) = (xVar ii).eval σ := by
        rw [hup.eval (hl₁.x_valid ii), ha₁.eval (hl.x_valid ii)]
      have hc' : (cVar i ii).eval (Function.update σ₁ t₁.numVars b) =
          (cVar i ii).eval σ := by
        rw [hup.eval (hl₁.c_valid i ii hii), ha₁.eval (hl.c_valid i ii hii)]
      refine ⟨_, ha₁.trans hup h.grows.numVars_le, (hmod _).mpr
        ⟨hσ₁.update h.grows.wellScoped b, ?_⟩, fun hor => ?_⟩
      · rw [hx', hc', Function.update_self, hb, Bool.and_eq_true, Bool.not_eq_true']
        exact ⟨id, fun _ h1 h2 => ⟨h1, h2⟩⟩
      · by_cases hnow : (xVar ii).eval σ = true ∧ (cVar i ii).eval σ = false
        · refine ⟨.var true t₁.numVars, by simp, ?_⟩
          rw [Lit.eval_var_true, Function.update_self, hb, hnow.1, hnow.2]
          rfl
        · have hbefore : (∃ a : Fin n, a.val < ii + 1 ∧ i ≠ a ∧ (xVar a).eval σ = true ∧
              (cVar i a).eval σ = false) → ∃ a : Fin n, a.val < ii ∧ i ≠ a ∧
              (xVar a).eval σ = true ∧ (cVar i a).eval σ = false := by
            rintro ⟨a, ha, hne, hxa⟩
            have hane : a ≠ ii := fun he => hnow (he ▸ hxa)
            have := Fin.val_ne_of_ne hane
            exact ⟨a, by omega, hne, hxa⟩
          obtain ⟨l, hl', htrue⟩ := hcl₁ (hor.imp_right hbefore)
          exact ⟨l, by simp [hl'], (hup.eval (h.valid l hl')).trans htrue⟩

/-- The clauses that exclude full components. -/
theorem wp_fullComponentClauses {minsepEncoding : ℕ} (ht : t.Scoped)
    (hl : BasicLits g t xVar cVar) :
    wp (fullComponentClauses minsepEncoding xVar cVar)
      (fun _ t' => Trace.Grows t t' ∧
        (∀ σ, t'.Models σ → ∀ i, NotFullAt (xValue xVar σ) (cValue cVar σ) i) ∧
        ∀ σ, t.Models σ → (∀ i, NotFullAt (xValue xVar σ) (cValue cVar σ) i) →
          ∃ σ', AgreeBelow t.numVars σ σ' ∧ t'.Models σ') E t := by
  have hloop := wp_forM (E := E) (s := t) (l := List.finRange n)
    (f := fun i => do
      let newClause ← (List.finRange n).foldlM
        (fun newClause ii =>
          if i = ii then pure newClause
          else do
            let v ← newVar
            addClause [xVar ii, -v]
            addClause [-cVar i ii, -v]
            when (minsepEncoding = 5) (addClause [-xVar ii, cVar i ii, v])
            pure (newClause ++ [v]))
        [xVar i]
      addClause newClause)
    (fun pre t' => Trace.Grows t t' ∧
      (∀ σ, t'.Models σ → ∀ i ∈ pre, NotFullAt (xValue xVar σ) (cValue cVar σ) i) ∧
      ∀ σ, t.Models σ → (∀ i, NotFullAt (xValue xVar σ) (cValue cVar σ) i) →
        ∃ σ', AgreeBelow t.numVars σ σ' ∧ t'.Models σ')
    ⟨Trace.Grows.refl ht, fun _ _ i hi => absurd hi List.not_mem_nil,
      fun σ hσ _ => ⟨σ, AgreeBelow.refl _ σ, hσ⟩⟩ ?_
  · apply wp_imp hloop
    rintro _ t' ⟨hgrow, hsound, hext⟩
    exact ⟨hgrow, fun σ hσ i => hsound σ hσ i (List.mem_finRange i), hext⟩
  rintro pre i post t₁ - ⟨hgrow, hsound, hext⟩
  rw [wp_bind]
  apply wp_imp (wp_fullClause hgrow.wellScoped (hl.grows hgrow) i)
  intro clause t₂ h
  apply wp_addClause h.valid
  refine ⟨(hgrow.trans h.grows).addClause h.valid, fun σ hσ j hj => ?_, fun σ hσ hnf => ?_⟩
  · obtain ⟨hcl, hσ₂⟩ := Trace.models_addClause.mp hσ
    rcases List.mem_append.mp hj with hj | hj
    · exact hsound σ (h.grows.models σ hσ₂) j hj
    · obtain rfl := List.mem_singleton.mp hj
      exact h.sound σ hσ₂ hcl
  · obtain ⟨σ₁, ha₁, hσ₁⟩ := hext σ hσ hnf
    obtain ⟨σ₂, ha₂, hσ₂, hcl⟩ := h.extend σ₁ hσ₁
    refine ⟨σ₂, ha₁.trans ha₂ hgrow.numVars_le, Trace.models_addClause.mpr ⟨hcl ?_, hσ₂⟩⟩
    have hx : ∀ j, (xVar j).eval σ₁ = xValue xVar σ j := fun j => ha₁.eval (hl.x_valid j)
    have hc : ∀ j, i ≠ j → (cVar i j).eval σ₁ = cValue cVar σ i j := fun j hne =>
      ha₁.eval (hl.c_valid i j hne)
    rcases hnf i with hi | ⟨j, hne, hj, hcj⟩
    · exact Or.inl ((hx i).trans hi)
    · exact Or.inr ⟨j, j.isLt, hne, (hx j).trans hj, (hc j hne).trans hcj⟩

end Clauses

/-! ## The whole encoding -/

/-- The models of the basic encoding are the values that meet its conditions. -/
theorem wp_buildBasicEncoding {minsepEncoding : ℕ} (hg : g.Valid) :
    wp (buildBasicEncoding g minsepEncoding)
      (fun r t' => t'.Scoped ∧ BasicLits g t' r.1 r.2 ∧
        (∀ σ, t'.Models σ → Basic g (xValue r.1 σ) (cValue r.2 σ)) ∧
        ∀ X C, Basic g X C → ∃ σ, t'.Models σ ∧ Values r.1 r.2 σ X C) E [] := by
  rw [buildBasicEncoding, wp_bind]
  apply wp_imp wp_selectionVars
  rintro xVar t₁ ⟨ht₁, hx, hX⟩
  rw [wp_bind]
  apply wp_imp (wp_connectivityVars ht₁)
  intro cVar t₂ h₂
  have hpos : ∀ a b : Fin n, (a.val < n ∨ a.val = n ∧ b.val < 0) := fun a _ => Or.inl a.isLt
  have hsymm : ∀ a b : Fin n, a ≠ b → cVar a b = cVar b a := by
    intro a b hne
    rcases lt_or_gt_of_ne hne with hlt | hlt
    · exact (h₂.symm b a hlt (hpos b a)).symm
    · exact h₂.symm a b hlt (hpos a b)
  have hl₂ : BasicLits g t₂ xVar cVar := by
    refine ⟨fun i => ?_, fun i ii hne => h₂.valid i ii hne (hpos i ii), hsymm,
      fun i ii hne hadj => ?_⟩
    · obtain ⟨v, hv, hlt⟩ := hx i
      exact ⟨v, hv, lt_of_lt_of_le hlt h₂.grows.numVars_le⟩
    · rcases lt_or_gt_of_ne hne with hlt | hlt
      · exact h₂.edge i ii hlt (hpos i ii) hadj
      · rw [hsymm i ii hne]
        exact h₂.edge ii i hlt (hpos ii i) ((hg.symm i ii).symm.trans hadj)
  rw [wp_bind]
  apply (emits_connectivityClauses hl₂).wp h₂.grows.wellScoped le_rfl
  intro t₃ hnum₃ ht₃ hmod₃
  have hg₃ : Trace.Grows t₂ t₃ := ⟨hnum₃.ge, ht₃, fun σ hσ => ((hmod₃ σ).mp hσ).1⟩
  have hl₃ := hl₂.grows hg₃
  rw [wp_bind]
  apply (emits_cliqueClauses hl₃).wp ht₃ le_rfl
  intro t₄ hnum₄ ht₄ hmod₄
  have hg₄ : Trace.Grows t₃ t₄ := ⟨hnum₄.ge, ht₄, fun σ hσ => ((hmod₄ σ).mp hσ).1⟩
  have hl₄ := hl₃.grows hg₄
  rw [wp_bind]
  apply wp_imp (wp_fullComponentClauses ht₄ hl₄)
  rintro _ t₅ ⟨hg₅, hsound, hext⟩
  have hl₅ := hl₄.grows hg₅
  rw [wp_pure]
  refine ⟨hg₅.wellScoped, hl₅, fun σ hσ => ?_, fun X C hXC => ?_⟩
  · obtain ⟨hσ₃, hclique⟩ := (hmod₄ σ).mp (hg₅.models σ hσ)
    obtain ⟨-, hstep⟩ := (hmod₃ σ).mp hσ₃
    refine ⟨fun i ii hne => ?_, fun i ii hne hadj => ?_, hstep, hclique, hsound σ hσ⟩
    · exact congrArg (Lit.eval σ) (hsymm i ii hne)
    · exact congrArg (Lit.eval σ) (hl₅.c_edge i ii hne hadj)
  · obtain ⟨σ₁, hσ₁, hX₁⟩ := hX X
    obtain ⟨σ₂, ha₂, hσ₂, hC₂⟩ := h₂.extend C hXC.symm hXC.edge σ₁ hσ₁
    have hv : Values xVar cVar σ₂ X C := by
      refine ⟨fun i => ?_, fun i ii hne => hC₂ i ii hne (hpos i ii)⟩
      obtain ⟨v, hv, hlt⟩ := hx i
      rw [← hX₁ i, hv]
      exact ha₂ v hlt
    have hσ₄ : t₄.Models σ₂ := by
      refine (hmod₄ σ₂).mpr ⟨(hmod₃ σ₂).mpr ⟨hσ₂, fun i ii hne iii hiii hne' hc hxf => ?_⟩,
        fun i ii hlt hxi hxii => ?_⟩
      · rw [cValue, hv.c_eq i ii hne] at hc
        rw [xValue, hv.x_eq] at hxf
        rw [cValue, hv.c_eq i iii hne'.symm]
        exact hXC.step i ii hne iii hiii hne' hc hxf
      · rw [xValue, hv.x_eq] at hxi hxii
        rw [cValue, hv.c_eq i ii hlt.ne]
        exact hXC.clique i ii hlt hxi hxii
    have hnf : ∀ i, NotFullAt (xValue xVar σ₂) (cValue cVar σ₂) i := by
      intro i
      rcases hXC.noFull i with hi | ⟨ii, hne, hxi, hci⟩
      · exact Or.inl ((hv.x_eq i).trans hi)
      · exact Or.inr ⟨ii, hne, (hv.x_eq ii).trans hxi, (hv.c_eq i ii hne).trans hci⟩
    obtain ⟨σ₅, ha₅, hσ₅⟩ := hext σ₂ hσ₄ hnf
    exact ⟨σ₅, hσ₅, hv.congr hl₄ ha₅⟩

end Enumerator

end Triangulator
