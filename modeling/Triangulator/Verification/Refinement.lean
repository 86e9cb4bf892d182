import Triangulator.Verification.BadSeparator

/-!
# Refinement by separators

A solution that is no potential maximal clique is excluded by clauses on the
variable of a separator.  The values that belong to a potential maximal clique are
kept.
-/

namespace Triangulator

open AbortM SimpleGraph

namespace Enumerator

variable {n : ℕ} {e e' e'' : Enumerator n} {t t' t'' : Trace} {E : Trace → Prop}

/-! ## Invariants -/

/-- The variables of an enumerator, with what the clauses say about them. -/
structure Inv (e : Enumerator n) (t : Trace) : Prop where
  wellScoped : t.Scoped
  lits : BasicLits e.graph t e.xVar e.cVar
  basic : ∀ σ, t.Models σ → Basic e.graph (xValue e.xVar σ) (cValue e.cVar σ)
  path : e.minsepEncoding = 4 → ∀ σ, t.Models σ →
    Sound e.graph (solutionSet (xValue e.xVar σ)) (cValue e.cVar σ)
  minsep_valid : ∀ p ∈ e.minsepVars, p.2.Valid t.numVars
  minsep_sound : ∀ p ∈ e.minsepVars, ∀ σ, t.Models σ →
    (∀ w ∈ p.1, xValue e.xVar σ w = true) → p.2.eval σ = true

/-- The values that belong to a vertex set. -/
structure Canonical (e : Enumerator n) (σ : ℕ → Bool) (Ω : List (Fin n)) : Prop where
  values : Values e.xVar e.cVar σ (fun i => decide (i ∈ Ω)) (e.graph.connectedMatrix Ω)
  minseps : ∀ p ∈ e.minsepVars, p.2.eval σ = true ↔ ∀ w ∈ p.1, w ∈ Ω

/-- The variables and the graph do not change. -/
structure SameEncoding (e e' : Enumerator n) : Prop where
  xVar_eq : e'.xVar = e.xVar
  cVar_eq : e'.cVar = e.cVar
  graph_eq : e'.graph = e.graph
  encoding_eq : e'.minsepEncoding = e.minsepEncoding

theorem SameEncoding.refl (e : Enumerator n) : SameEncoding e e := ⟨rfl, rfl, rfl, rfl⟩

theorem SameEncoding.trans (h : SameEncoding e e') (h' : SameEncoding e' e'') :
    SameEncoding e e'' :=
  ⟨h'.xVar_eq.trans h.xVar_eq, h'.cVar_eq.trans h.cVar_eq, h'.graph_eq.trans h.graph_eq,
    h'.encoding_eq.trans h.encoding_eq⟩

/-- A part of a run that found the listed cliques: the values of all other sets are
kept. -/
structure Step (e e' : Enumerator n) (t t' : Trace) (found : List (List (Fin n))) :
    Prop where
  same : SameEncoding e e'
  inv : Inv e' t'
  grows : Trace.Grows t t'
  keep : ∀ Ω, (∀ pmc ∈ found, vset pmc ≠ vset Ω) → ∀ σ, t.Models σ → Canonical e σ Ω →
    ∃ σ', AgreeBelow t.numVars σ σ' ∧ t'.Models σ' ∧ Canonical e' σ' Ω

theorem Step.trans {found found' : List (List (Fin n))} (h : Step e e' t t' found)
    (h' : Step e' e'' t' t'' found') : Step e e'' t t'' (found ++ found') := by
  refine ⟨h.same.trans h'.same, h'.inv, h.grows.trans h'.grows, fun Ω hΩ σ hσ hc => ?_⟩
  obtain ⟨σ₁, ha₁, hσ₁, hc₁⟩ := h.keep Ω (fun pmc hp => hΩ pmc (by simp [hp])) σ hσ hc
  obtain ⟨σ₂, ha₂, hσ₂, hc₂⟩ := h'.keep Ω (fun pmc hp => hΩ pmc (by simp [hp])) σ₁ hσ₁ hc₁
  exact ⟨σ₂, ha₁.trans ha₂ h.grows.numVars_le, hσ₂, hc₂⟩

/-- More clauses over the same variables keep the invariant. -/
theorem Inv.grows (h : Inv e t) (ht : Trace.Grows t t') : Inv e t' :=
  ⟨ht.wellScoped, h.lits.grows ht, fun σ hσ => h.basic σ (ht.models σ hσ),
    fun h4 σ hσ => h.path h4 σ (ht.models σ hσ), fun p hp => ht.valid (h.minsep_valid p hp),
    fun p hp σ hσ => h.minsep_sound p hp σ (ht.models σ hσ)⟩

theorem Canonical.congr {σ σ' : ℕ → Bool} {Ω : List (Fin n)} (h : Inv e t)
    (hc : Canonical e σ Ω) (ha : AgreeBelow t.numVars σ σ') : Canonical e σ' Ω :=
  ⟨hc.values.congr h.lits ha, fun p hp => by
    rw [ha.eval (h.minsep_valid p hp)]
    exact hc.minseps p hp⟩

/-- A part of a run that only learns clauses about separators: they hold for the values
that belong to any vertex set. -/
structure Learns (e e' : Enumerator n) (t t' : Trace) : Prop where
  same : SameEncoding e e'
  inv : Inv e' t'
  grows : Trace.Grows t t'
  minseps : e.minsepVars ⊆ e'.minsepVars
  added : ∃ added, t'.clauses = added ++ t.clauses ∧
    ∀ Ω σ, Canonical e' σ Ω → ∀ clause ∈ added, Holds σ clause
  extend : ∀ Ω σ, Canonical e σ Ω → ∃ σ', AgreeBelow t.numVars σ σ' ∧ Canonical e' σ' Ω

theorem Learns.refl (h : Inv e t) : Learns e e t t :=
  ⟨SameEncoding.refl e, h, Trace.Grows.refl h.wellScoped, fun _ => id, ⟨[], rfl, by simp⟩,
    fun _ σ hc => ⟨σ, AgreeBelow.refl _ σ, hc⟩⟩

/-- The values with a later table of separators are values with an earlier one. -/
theorem Canonical.of_same {σ : ℕ → Bool} {Ω : List (Fin n)} (h : SameEncoding e e')
    (hsub : e.minsepVars ⊆ e'.minsepVars) (hc : Canonical e' σ Ω) : Canonical e σ Ω := by
  refine ⟨⟨fun i => ?_, fun i ii hne => ?_⟩, fun p hp => hc.minseps p (hsub hp)⟩
  · rw [← h.xVar_eq]
    exact hc.values.x_eq i
  · rw [← h.cVar_eq, ← h.graph_eq]
    exact hc.values.c_eq i ii hne

theorem Learns.trans (h : Learns e e' t t') (h' : Learns e' e'' t' t'') :
    Learns e e'' t t'' := by
  obtain ⟨added, hadd, hholds⟩ := h.added
  obtain ⟨added', hadd', hholds'⟩ := h'.added
  refine ⟨h.same.trans h'.same, h'.inv, h.grows.trans h'.grows,
    fun p hp => h'.minseps (h.minseps hp), ⟨added' ++ added, ?_, fun Ω σ hc => ?_⟩,
    fun Ω σ hc => ?_⟩
  · rw [hadd', hadd, List.append_assoc]
  · rw [List.forall_mem_append]
    exact ⟨hholds' Ω σ hc, hholds Ω σ (hc.of_same h'.same h'.minseps)⟩
  · obtain ⟨σ₁, ha₁, hc₁⟩ := h.extend Ω σ hc
    obtain ⟨σ₂, ha₂, hc₂⟩ := h'.extend Ω σ₁ hc₁
    exact ⟨σ₂, ha₁.trans ha₂ h.grows.numVars_le, hc₂⟩

/-- Learning keeps the models with the values of a vertex set. -/
theorem Learns.step (h : Learns e e' t t') (ht : t.Scoped) : Step e e' t t' [] := by
  obtain ⟨added, hadd, hholds⟩ := h.added
  refine ⟨h.same, h.inv, h.grows, fun Ω _ σ hσ hc => ?_⟩
  obtain ⟨σ', ha, hc'⟩ := h.extend Ω σ hc
  refine ⟨σ', ha, ?_, hc'⟩
  rw [Trace.Models, hadd, List.forall_mem_append]
  exact ⟨hholds Ω σ' hc', hσ.congr ht ha⟩

/-! ## The variable of a separator -/

/-- The clause of a new separator. -/
theorem emits_minsepClause {N v : ℕ} {xVar : Fin n → Lit} {minsep : List (Fin n)}
    (hx : ∀ i, (xVar i).Valid N) (hv : v < N) :
    Emits N (addClause (.var true v :: minsep.map fun w => -xVar w)) fun σ =>
      (∀ w ∈ minsep, xValue xVar σ w = true) → σ v = true := by
  refine (Emits.addClause ?_).congr fun σ => ?_
  · intro l hl
    rcases List.mem_cons.mp hl with rfl | hl
    · exact hv
    · obtain ⟨w, -, rfl⟩ := List.mem_map.mp hl
      exact Lit.valid_neg.mpr (hx w)
  · have hmap : Holds σ (minsep.map fun w => -xVar w) ↔
        ∃ w ∈ minsep, xValue xVar σ w = false := by
      simp only [Holds, List.mem_map, exists_exists_and_eq_and, (hx _).eval_neg,
        Bool.not_eq_true', xValue]
    rw [holds_cons, hmap, Lit.eval_var_true]
    constructor
    · rintro (h | ⟨w, hw, h⟩) hall
      · exact h
      · rw [hall w hw] at h
        cases h
    · intro himp
      by_cases hall : ∀ w ∈ minsep, xValue xVar σ w = true
      · exact Or.inl (himp hall)
      · push Not at hall
        obtain ⟨w, hw, h⟩ := hall
        exact Or.inr ⟨w, hw, Bool.eq_false_iff.mpr h⟩

/-- The table of separators after a separator was looked up. -/
def Recorded (e e' : Enumerator n) (minsep : List (Fin n)) (l : Lit) : Prop :=
  ((minsep, l) ∈ e.minsepVars ∧ e' = e) ∨
    ((∀ p ∈ e.minsepVars, p.1 ≠ minsep) ∧ e'.minsepVars = (minsep, l) :: e.minsepVars)

theorem Recorded.mem {minsep : List (Fin n)} {l : Lit} (h : Recorded e e' minsep l) :
    (minsep, l) ∈ e'.minsepVars := by
  rcases h with ⟨h, rfl⟩ | ⟨-, h⟩
  · exact h
  · rw [h]
    exact List.mem_cons_self

/-- `minsepVar` returns a literal that says that the solution contains the
separator. -/
theorem wp_minsepVar (h : Inv e t) (minsep : List (Fin n)) :
    wp (e.minsepVar minsep)
      (fun r t' => Learns e r.2 t t' ∧ Recorded e r.2 minsep r.1) E t := by
  rw [minsepVar]
  cases hfind : e.minsepVars.find? fun p => decide (p.1 = minsep) with
  | some p =>
      have hp : p.1 = minsep := by simpa using List.find?_some hfind
      exact ⟨Learns.refl h, Or.inl ⟨hp ▸ List.mem_of_find?_eq_some hfind, rfl⟩⟩
  | none =>
      have hnew : ∀ p ∈ e.minsepVars, p.1 ≠ minsep := fun p hp => by
        simpa using List.find?_eq_none.mp hfind p hp
      rw [Option.map_none, Option.elim_none, wp_bind, wp_newVar]
      have hx : ∀ i, (e.xVar i).Valid (t.numVars + 1) := fun i =>
        (h.lits.x_valid i).mono (Nat.le_succ _)
      have hv : (Lit.var true t.numVars).Valid (t.numVars + 1) := Nat.lt_succ_self _
      have hback : ∀ w ∈ minsep, Emits (t.numVars + 1)
          (addClause [-Lit.var true t.numVars, e.xVar w]) fun σ =>
          σ t.numVars = true → xValue e.xVar σ w = true := by
        intro w _
        refine (Emits.addClause (by simp [hx w])).congr fun σ => ?_
        rw [holds_cons, holds_singleton, hv.eval_neg, Lit.eval_var_true, xValue]
        cases σ t.numVars <;> simp
      have hemits : Emits (t.numVars + 1) (do
          when (e.minsepEncoding ≠ 0 ∧ e.minsepEncoding ≠ 5) (freezeVar (.var true t.numVars))
          addClause (.var true t.numVars :: minsep.map fun w => -e.xVar w)
          when (e.minsepEncoding = 5)
            (forM minsep fun w => addClause [-Lit.var true t.numVars, e.xVar w]))
          fun σ => ((∀ w ∈ minsep, xValue e.xVar σ w = true) → σ t.numVars = true) ∧
            (e.minsepEncoding = 5 → ∀ w ∈ minsep, σ t.numVars = true →
              xValue e.xVar σ w = true) := by
        apply ((Emits.when fun _ => Emits.freezeVar (Nat.lt_succ_self _)).bind
          ((emits_minsepClause hx (Nat.lt_succ_self _)).bind
            (Emits.when fun _ => Emits.forM hback))).congr
        intro σ
        simp
      have hrun := hemits.wp_added (E := E) h.wellScoped.newVar le_rfl
        (Q := fun _ t' => Learns e { e with minsepVars :=
          (minsep, .var true t.numVars) :: e.minsepVars } t t') ?_
      · simp only [wp_bind, wp_pure] at hrun ⊢
        apply wp_imp hrun
        intro _ t₁ h₁
        apply wp_imp h₁
        intro _ t₂ h₂
        apply wp_imp h₂
        intro _ t₃ h₃
        exact ⟨h₃, Or.inr ⟨hnew, rfl⟩⟩
      intro t' added hnum ht' hadd hF
      have hmodels : ∀ σ, t'.Models σ → t.Models σ ∧ ∀ clause ∈ added, Holds σ clause := by
        intro σ hσ
        rw [Trace.Models, hadd, List.forall_mem_append] at hσ
        exact hσ.symm
      have hgrow : Trace.Grows t t' :=
        ⟨hnum ▸ Nat.le_succ _, ht', fun σ hσ => (hmodels σ hσ).1⟩
      have hinv := h.grows hgrow
      refine ⟨⟨rfl, rfl, rfl, rfl⟩, ⟨ht', hinv.lits, hinv.basic, hinv.path, fun p hp => ?_,
        fun p hp σ hσ hall => ?_⟩, hgrow, fun p hp => List.mem_cons_of_mem _ hp,
        ⟨added, hadd, fun Ω σ hc => ?_⟩, fun Ω σ hc => ?_⟩
      · rcases List.mem_cons.mp hp with rfl | hp
        · rw [hnum]
          exact hv
        · exact hinv.minsep_valid p hp
      · rcases List.mem_cons.mp hp with rfl | hp
        · exact ((hF σ).mp (hmodels σ hσ).2).1 hall
        · exact hinv.minsep_sound p hp σ hσ hall
      · -- The variable is true exactly when the set contains the separator.
        have hxw : ∀ w, xValue e.xVar σ w = true ↔ w ∈ Ω := fun w => by
          rw [xValue, hc.values.x_eq w, decide_eq_true_iff]
        have hl : σ t.numVars = true ↔ ∀ w ∈ minsep, w ∈ Ω :=
          hc.minseps _ List.mem_cons_self
        refine (hF σ).mpr ⟨fun hall => hl.mpr fun w hw => (hxw w).mp (hall w hw),
          fun _ w hw htrue => (hxw w).mpr (hl.mp htrue w hw)⟩
      · have ha := AgreeBelow.update t.numVars σ (decide (∀ w ∈ minsep, w ∈ Ω))
        have hc' := hc.congr h ha
        refine ⟨_, ha, hc'.values, fun p hp => ?_⟩
        rcases List.mem_cons.mp hp with rfl | hp
        · rw [Lit.eval_var_true, Function.update_self, decide_eq_true_iff]
        · exact hc'.minseps p hp

/-! ## The clauses of a separator -/

/-- What the clauses of a separator do: they do not connect vertices of different
components, and they change a connection of the solution. -/
structure Separates (e : Enumerator n) (l : Lit) (components : List (List (Fin n)))
    (C : Fin n → Fin n → Bool) (t t' : Trace) : Prop where
  numVars_eq : t'.numVars = t.numVars
  wellScoped : t'.Scoped
  added : ∃ added, t'.clauses = added ++ t.clauses ∧ ∀ σ, (∀ v u, Apart components v u →
    l.eval σ = true → cValue e.cVar σ v u = false) → ∀ clause ∈ added, Holds σ clause
  cut : (∃ v u, Apart components v u ∧ C v u = true) → ∀ σ, t'.Models σ →
    l.eval σ = true → ∃ v u, v ≠ u ∧ C v u = true ∧ cValue e.cVar σ v u = false

theorem Separates.grows {l : Lit} {components : List (List (Fin n))}
    {C : Fin n → Fin n → Bool} (h : Separates e l components C t t') : Trace.Grows t t' := by
  obtain ⟨added, hadd, -⟩ := h.added
  refine ⟨h.numVars_eq.ge, h.wellScoped, fun σ hσ => ?_⟩
  rw [Trace.Models, hadd, List.forall_mem_append] at hσ
  exact hσ.2

/-- A loop over the pairs of components. -/
theorem emits_forPairs {N : ℕ} {components : List (List (Fin n))}
    {f : List (Fin n) → List (Fin n) → SatM Unit}
    {F : List (Fin n) → List (Fin n) → (ℕ → Bool) → Prop}
    (h : ∀ i ii, i < ii → ii < components.length →
      Emits N (f (components.getD i []) (components.getD ii []))
        (F (components.getD i []) (components.getD ii []))) :
    Emits N (forPairs components f) fun σ => ∀ i ii, i < ii → ii < components.length →
      F (components.getD i []) (components.getD ii []) σ := by
  have hloop := Emits.forM (N := N) (l := List.range components.length)
    (f := fun i => forM (List.range' (i + 1) (components.length - (i + 1))) fun ii =>
      f (components.getD i []) (components.getD ii []))
    fun i _ => Emits.forM fun ii hii => by
      have hii' := List.mem_range'_1.mp hii
      exact h i ii (by omega) (by omega)
  apply hloop.congr
  intro σ
  constructor
  · intro hall i ii hlt hii
    exact hall i (List.mem_range.mpr (by omega)) ii (List.mem_range'_1.mpr (by omega))
  · intro hall i _ ii hii
    have hii' := List.mem_range'_1.mp hii
    exact hall i ii (by omega) (by omega)

section Pairs

variable {N : ℕ} {l : Lit} {components : List (List (Fin n))} {C : Fin n → Fin n → Bool}

/-- The clause of a pair. -/
theorem emits_pairClause {v u : Fin n} (hl : l.Valid N) (hc : (e.cVar v u).Valid N) :
    Emits N (e.pairClause l v u) fun σ =>
      l.eval σ = true → cValue e.cVar σ v u = false := by
  refine (Emits.addClause (by simp [hl, hc])).congr fun σ => ?_
  rw [holds_cons, holds_singleton, hl.eval_neg, hc.eval_neg, cValue]
  cases l.eval σ <;> simp

/-- The pairs of an encoding: all of its clauses are about vertices in different
components, and a connection of the solution is among them. -/
theorem Separates.of_emits {m : SatM PUnit} {F : (ℕ → Bool) → Prop}
    (hm : Emits N m F) (ht : t.Scoped) (hN : N ≤ t.numVars)
    (hne : ∀ v u, Apart components v u → v ≠ u)
    (hkeep : ∀ σ, (∀ v u, Apart components v u → l.eval σ = true →
      cValue e.cVar σ v u = false) → F σ)
    (hcut : ∀ v u, Apart components v u → C v u = true → ∀ σ, F σ → l.eval σ = true →
      cValue e.cVar σ v u = false) :
    wp m (fun _ t' => Separates e l components C t t' ∧ ∀ σ, t'.Models σ → F σ) E t := by
  apply hm.wp_added ht hN
  intro t' added hnum ht' hadd hF
  have hmodels : ∀ σ, t'.Models σ → F σ := by
    intro σ hσ
    rw [Trace.Models, hadd, List.forall_mem_append] at hσ
    exact (hF σ).mp hσ.1
  refine ⟨⟨hnum, ht', ⟨added, hadd, fun σ hall => (hF σ).mpr (hkeep σ hall)⟩, ?_⟩, hmodels⟩
  rintro ⟨v, u, hvu, hc⟩ σ hσ htrue
  exact ⟨v, u, hne v u hvu, hc, hcut v u hvu hc σ (hmodels σ hσ) htrue⟩

/-- All pairs of vertices in different components. -/
theorem wp_forPairs_allPairs (ht : t.Scoped) (hl : l.Valid t.numVars)
    (hc : ∀ v u, v ≠ u → (e.cVar v u).Valid t.numVars)
    (hne : ∀ v u, Apart components v u → v ≠ u) :
    wp (forPairs components (e.allPairs l))
      (fun _ t' => Separates e l components C t t' ∧ ∀ σ, t'.Models σ → l.eval σ = true →
        ∀ v u, Apart components v u → cValue e.cVar σ v u = false) E t := by
  have hemits := emits_forPairs (N := t.numVars) (f := e.allPairs l)
    (F := fun A B σ => ∀ v ∈ A, ∀ u ∈ B, l.eval σ = true → cValue e.cVar σ v u = false)
    fun i ii hlt hii => Emits.forM fun v hv => Emits.forM fun u hu =>
      emits_pairClause hl (hc v u (hne v u ⟨i, ii, hlt, hii, hv, hu⟩))
  apply wp_imp (Separates.of_emits (C := C) hemits ht le_rfl hne ?_ ?_)
  · rintro _ t' ⟨hsep, hall⟩
    refine ⟨hsep, fun σ hσ htrue v u hvu => ?_⟩
    obtain ⟨i, ii, hlt, hii, hv, hu⟩ := hvu
    exact hall σ hσ i ii hlt hii v hv u hu htrue
  · intro σ hall i ii hlt hii v hv u hu
    exact hall v u ⟨i, ii, hlt, hii, hv, hu⟩
  · rintro v u ⟨i, ii, hlt, hii, hv, hu⟩ _ σ hF
    exact hF i ii hlt hii v hv u hu

/-- The broken pairs. -/
theorem wp_forPairs_brokenPairs (ht : t.Scoped) (hl : l.Valid t.numVars)
    (hc : ∀ v u, v ≠ u → (e.cVar v u).Valid t.numVars)
    (hne : ∀ v u, Apart components v u → v ≠ u) :
    wp (forPairs components (e.brokenPairs l C))
      (fun _ t' => Separates e l components C t t') E t := by
  have hemits := emits_forPairs (N := t.numVars) (f := e.brokenPairs l C)
    (F := fun A B σ => ∀ v ∈ A, ∀ u ∈ B, C v u = true → l.eval σ = true →
      cValue e.cVar σ v u = false)
    fun i ii hlt hii => Emits.forM fun v hv => Emits.forM fun u hu => Emits.when fun _ =>
      emits_pairClause hl (hc v u (hne v u ⟨i, ii, hlt, hii, hv, hu⟩))
  apply wp_imp (Separates.of_emits (C := C) hemits ht le_rfl hne ?_ ?_)
  · exact fun _ t' h => h.1
  · intro σ hall i ii hlt hii v hv u hu _
    exact hall v u ⟨i, ii, hlt, hii, hv, hu⟩
  · rintro v u ⟨i, ii, hlt, hii, hv, hu⟩ hcvu σ hF
    exact hF i ii hlt hii v hv u hu hcvu

/-- All pairs of the components with a broken pair. -/
theorem wp_forPairs_pairsIfBroken (ht : t.Scoped) (hl : l.Valid t.numVars)
    (hc : ∀ v u, v ≠ u → (e.cVar v u).Valid t.numVars)
    (hne : ∀ v u, Apart components v u → v ≠ u) :
    wp (forPairs components (e.pairsIfBroken l C))
      (fun _ t' => Separates e l components C t t') E t := by
  have hemits := emits_forPairs (N := t.numVars) (f := e.pairsIfBroken l C)
    (F := fun A B σ => (A.any fun v => B.any fun u => C v u) = true →
      ∀ v ∈ A, ∀ u ∈ B, l.eval σ = true → cValue e.cVar σ v u = false)
    fun i ii hlt hii => Emits.when fun _ => Emits.forM fun v hv => Emits.forM fun u hu =>
      emits_pairClause hl (hc v u (hne v u ⟨i, ii, hlt, hii, hv, hu⟩))
  apply wp_imp (Separates.of_emits (C := C) hemits ht le_rfl hne ?_ ?_)
  · exact fun _ t' h => h.1
  · intro σ hall i ii hlt hii _ v hv u hu
    exact hall v u ⟨i, ii, hlt, hii, hv, hu⟩
  · rintro v u ⟨i, ii, hlt, hii, hv, hu⟩ hcvu σ hF
    refine hF i ii hlt hii ?_ v hv u hu
    rw [List.any_eq_true]
    exact ⟨v, hv, List.any_eq_true.mpr ⟨u, hu, hcvu⟩⟩

/-- A broken pair that is found is one of the two components. -/
theorem firstBroken_some {A B : List (Fin n)} {p : Fin n × Fin n}
    (h : firstBroken C A B = some p) : p.1 ∈ A ∧ p.2 ∈ B ∧ C p.1 p.2 = true := by
  obtain ⟨v, hv, hmem⟩ := List.mem_flatMap.mp (List.mem_of_find?_eq_some h)
  obtain ⟨u, hu, rfl⟩ := List.mem_map.mp hmem
  have hc := List.find?_some (p := fun q : Fin n × Fin n => C q.1 q.2) h
  exact ⟨hv, hu, hc⟩

/-- Without a result no pair is broken. -/
theorem firstBroken_none {A B : List (Fin n)} (h : firstBroken C A B = none)
    {v u : Fin n} (hv : v ∈ A) (hu : u ∈ B) : C v u ≠ true := by
  apply List.find?_eq_none.mp h (v, u)
  exact List.mem_flatMap.mpr ⟨v, hv, List.mem_map.mpr ⟨u, hu, rfl⟩⟩

/-- The state of the loop over the pairs of components: `seen` tells which pairs were
visited. -/
structure RandomPairs (e : Enumerator n) (l : Lit) (components : List (List (Fin n)))
    (C : Fin n → Fin n → Bool) (seen : ℕ → ℕ → Prop) (cs : List (List (Fin n)))
    (t t' : Trace) : Prop where
  numVars_eq : t'.numVars = t.numVars
  wellScoped : t'.Scoped
  added : ∃ added, t'.clauses = added ++ t.clauses ∧ ∀ σ, (∀ v u, Apart components v u →
    l.eval σ = true → cValue e.cVar σ v u = false) → ∀ clause ∈ added, Holds σ clause
  length_eq : cs.length = components.length
  perm : ∀ k, (cs.getD k []).Perm (components.getD k [])
  cut : ∀ i ii, i < ii → ii < components.length → seen i ii →
    ∀ v ∈ components.getD i [], ∀ u ∈ components.getD ii [], C v u = true →
    ∀ σ, t'.Models σ → l.eval σ = true → ∃ v u, v ≠ u ∧ C v u = true ∧
      cValue e.cVar σ v u = false

theorem getD_set_perm {cs : List (List (Fin n))} {k : ℕ} {c : List (Fin n)}
    (h : c.Perm (cs.getD k [])) (j : ℕ) : ((cs.set k c).getD j []).Perm (cs.getD j []) := by
  by_cases hj : k = j
  · subst hj
    by_cases hk : k < cs.length
    · rw [List.getD_eq_getElem _ _ (by rwa [List.length_set]), List.getElem_set_self]
      exact h
    · rw [List.set_eq_of_length_le (by omega)]
  · rw [List.getD_eq_getElem?_getD, List.getElem?_set_ne hj, ← List.getD_eq_getElem?_getD]

/-- A visit of a pair of components. -/
theorem wp_randomPair {sh : Shuffle} {t₁ : Trace} {i ii : ℕ} {lengths : List ℕ}
    {cs : List (List (Fin n))} {seen : ℕ → ℕ → Prop} (hlt : i < ii)
    (hii : ii < components.length) (hl : l.Valid t.numVars)
    (hc : ∀ v u, v ≠ u → (e.cVar v u).Valid t.numVars)
    (hne : ∀ v u, Apart components v u → v ≠ u)
    (h : RandomPairs e l components C seen cs t t₁) :
    wp (do
        let A := sh.order lengths (cs.getD i [])
        let B := sh.order (A.length :: lengths) (cs.getD ii [])
        (firstBroken C A B).elim (pure ()) fun p => e.pairClause l p.1 p.2
        pure ((cs.set i A).set ii B, B.length :: A.length :: lengths))
      (fun s t' => RandomPairs e l components C
        (fun a b => seen a b ∨ a = i ∧ b = ii) s.1 t t') E t₁ := by
  set A := sh.order lengths (cs.getD i []) with hA
  set B := sh.order (A.length :: lengths) (cs.getD ii []) with hB
  have hAp : A.Perm (cs.getD i []) := sh.perm _ _
  have hBp : B.Perm (cs.getD ii []) := sh.perm _ _
  have hA' := hAp.trans (h.perm i)
  have hB' := hBp.trans (h.perm ii)
  have hcs : ∀ k, (((cs.set i A).set ii B).getD k []).Perm (components.getD k []) := by
    intro k
    apply (getD_set_perm _ k).trans ((getD_set_perm hAp k).trans (h.perm k))
    rw [List.getD_eq_getElem?_getD, List.getElem?_set_ne hlt.ne, ← List.getD_eq_getElem?_getD]
    exact hBp
  have hlen : ((cs.set i A).set ii B).length = components.length := by
    rw [List.length_set, List.length_set, h.length_eq]
  dsimp only
  rw [wp_bind]
  cases hfirst : firstBroken C A B with
  | none =>
      refine ⟨h.numVars_eq, h.wellScoped, h.added, hlen, hcs, ?_⟩
      rintro a b hab hb (hs | ⟨rfl, rfl⟩) v hv u hu hcvu
      · exact h.cut a b hab hb hs v hv u hu hcvu
      · exact absurd hcvu
          (firstBroken_none hfirst (hA'.mem_iff.mpr hv) (hB'.mem_iff.mpr hu))
  | some p =>
      obtain ⟨hpA, hpB, hcp⟩ := firstBroken_some hfirst
      have hapart : Apart components p.1 p.2 :=
        ⟨i, ii, hlt, hii, hA'.mem_iff.mp hpA, hB'.mem_iff.mp hpB⟩
      apply (emits_pairClause hl (hc _ _ (hne _ _ hapart))).wp_added h.wellScoped
        h.numVars_eq.ge
      intro t₂ added hnum ht₂ hadd hF
      obtain ⟨added₁, hadd₁, hholds₁⟩ := h.added
      have hmodels : ∀ σ, t₂.Models σ → t₁.Models σ ∧
          (l.eval σ = true → cValue e.cVar σ p.1 p.2 = false) := by
        intro σ hσ
        rw [Trace.Models, hadd, List.forall_mem_append] at hσ
        exact ⟨hσ.2, (hF σ).mp hσ.1⟩
      have hadd₂ : t₂.clauses = (added ++ added₁) ++ t.clauses := by
        rw [hadd, hadd₁, List.append_assoc]
      refine ⟨hnum.trans h.numVars_eq, ht₂, ⟨added ++ added₁, hadd₂, fun σ hall => ?_⟩, hlen,
        hcs, ?_⟩
      · rw [List.forall_mem_append]
        exact ⟨(hF σ).mpr (hall _ _ hapart), hholds₁ σ hall⟩
      rintro a b hab hb (hs | ⟨rfl, rfl⟩) v hv u hu hcvu σ hσ htrue
      · exact h.cut a b hab hb hs v hv u hu hcvu σ (hmodels σ hσ).1 htrue
      · exact ⟨p.1, p.2, hne _ _ hapart, hcp, (hmodels σ hσ).2 htrue⟩

theorem wp_randomPairs {sh : Shuffle} (ht : t.Scoped) (hl : l.Valid t.numVars)
    (hc : ∀ v u, v ≠ u → (e.cVar v u).Valid t.numVars)
    (hne : ∀ v u, Apart components v u → v ≠ u) :
    wp (e.randomPairs sh l C components)
      (fun e' t' => Separates e l components C t t' ∧
        e' = { e with randomGen := e'.randomGen }) E t := by
  have hloop := wp_foldlM_range (E := E) (m := components.length) (s := t)
    (f := fun (s : List (List (Fin n)) × List ℕ) i =>
      (List.range' (i + 1) (components.length - (i + 1))).foldlM
        (fun s ii => do
          let A := sh.order s.2 (s.1.getD i [])
          let B := sh.order (A.length :: s.2) (s.1.getD ii [])
          (firstBroken C A B).elim (pure ()) fun p => e.pairClause l p.1 p.2
          pure ((s.1.set i A).set ii B, B.length :: A.length :: s.2))
        s)
    (b := (components, e.randomGen))
    (fun k s t' => RandomPairs e l components C (fun a _ => a < k) s.1 t t')
    ⟨rfl, ht, ⟨[], rfl, by simp⟩, rfl, fun _ => List.Perm.refl _,
      fun _ _ _ _ hlt => absurd hlt (Nat.not_lt_zero _)⟩ ?_
  · rw [randomPairs, wp_bind]
    apply wp_imp hloop
    intro s t' h
    rw [wp_pure]
    refine ⟨⟨h.numVars_eq, h.wellScoped, h.added, ?_⟩, rfl⟩
    rintro ⟨v, u, ⟨i, ii, hlt, hii, hv, hu⟩, hcvu⟩ σ hσ htrue
    exact h.cut i ii hlt hii (hlt.trans hii) v hv u hu hcvu σ hσ htrue
  · intro i hi s t₁ hI
    have hrow := wp_foldlM_range' (E := E) (k := i + 1) (m := components.length - (i + 1))
      (f := fun (s : List (List (Fin n)) × List ℕ) ii => do
        let A := sh.order s.2 (s.1.getD i [])
        let B := sh.order (A.length :: s.2) (s.1.getD ii [])
        (firstBroken C A B).elim (pure ()) fun p => e.pairClause l p.1 p.2
        pure ((s.1.set i A).set ii B, B.length :: A.length :: s.2))
      (b := s) (s := t₁)
      (fun k s t' => RandomPairs e l components C
        (fun a b => a < i ∨ a = i ∧ b < i + 1 + k) s.1 t t') ?_ ?_
    · apply wp_imp hrow
      intro s' t₂ h
      refine ⟨h.numVars_eq, h.wellScoped, h.added, h.length_eq, h.perm,
        fun a b hab hb ha => h.cut a b hab hb ?_⟩
      omega
    · exact ⟨hI.numVars_eq, hI.wellScoped, hI.added, hI.length_eq, hI.perm,
        fun a b hab hb ha => hI.cut a b hab hb (by omega)⟩
    · intro j hj s' t₂ h
      apply wp_imp (wp_randomPair (by omega) (by omega) hl hc hne h)
      intro s'' t₃ h'
      exact ⟨h'.numVars_eq, h'.wellScoped, h'.added, h'.length_eq, h'.perm,
        fun a b hab hb ha => h'.cut a b hab hb (by omega)⟩

/-- The clauses of an encoding that refines; the encodings 0 and 5 separate all
pairs. -/
theorem wp_separatorClauses {sh : Shuffle} (ht : t.Scoped) (hl : l.Valid t.numVars)
    (hc : ∀ v u, v ≠ u → (e.cVar v u).Valid t.numVars)
    (hne : ∀ v u, Apart components v u → v ≠ u) (hle : e.minsepEncoding ≤ 5)
    (h4 : e.minsepEncoding ≠ 4) :
    wp (e.separatorClauses sh l C components)
      (fun e' t' => Separates e l components C t t' ∧
        e' = { e with randomGen := e'.randomGen } ∧
        (e.minsepEncoding = 0 ∨ e.minsepEncoding = 5 → ∀ σ, t'.Models σ → l.eval σ = true →
          ∀ v u, Apart components v u → cValue e.cVar σ v u = false)) E t := by
  rw [separatorClauses]
  apply wp_ite
  · intro _
    rw [wp_bind]
    apply wp_imp (wp_forPairs_allPairs ht hl hc hne)
    intro _ t' h
    exact ⟨h.1, rfl, fun _ => h.2⟩
  intro h05
  apply wp_ite
  · intro _
    rw [wp_bind]
    apply wp_imp (wp_forPairs_brokenPairs ht hl hc hne)
    intro _ t' h
    exact ⟨h, rfl, fun h => absurd h h05⟩
  intro h1
  apply wp_ite
  · intro _
    apply wp_imp (wp_randomPairs ht hl hc hne)
    intro e' t' h
    exact ⟨h.1, h.2, fun h => absurd h h05⟩
  intro h2
  apply wp_ite
  · intro _
    rw [wp_bind]
    apply wp_imp (wp_forPairs_pairsIfBroken ht hl hc hne)
    intro _ t' h
    exact ⟨h, rfl, fun h => absurd h h05⟩
  intro h3
  omega

end Pairs

/-! ## Blocking a bad solution -/

/-- The separator that `BlockBadSolution` learns from the solution in a model. -/
def learnedSep (e : Enumerator n) (σ : ℕ → Bool) : List (Fin n) :=
  minimizeSep (fun sep => isBadSep e.graph sep (cValue e.cVar σ)) [] (sort (e.solutionOf σ))

/-- The variables of the known separators separate all pairs. -/
def AllSeparated (e : Enumerator n) (t : Trace) : Prop :=
  ∀ p ∈ e.minsepVars, ∀ σ, t.Models σ → p.2.eval σ = true →
    ∀ v u, Apart (e.graph.components p.1) v u → cValue e.cVar σ v u = false

/-- A solution that is no potential maximal clique has a bad pair. -/
theorem Inv.isBadSep (hg : e.graph.Valid) (h : Inv e t) {σ : ℕ → Bool} (hσ : t.Models σ)
    (hbad : ¬e.graph.toSimple.IsPmc (vset (e.solutionOf σ))) :
    isBadSep e.graph (sort (e.solutionOf σ)) (cValue e.cVar σ) = true := by
  rw [vset_solutionOf] at hbad
  rw [isBadSep_iff hg, vset_sort, vset_solutionOf]
  exact fun hs => hbad ((h.basic σ hσ).isPmc hg hs)

theorem Inv.minimalBad (hg : e.graph.Valid) (h : Inv e t) {σ : ℕ → Bool}
    (hσ : t.Models σ) (hbad : ¬e.graph.toSimple.IsPmc (vset (e.solutionOf σ))) :
    MinimalBad e.graph (cValue e.cVar σ) (e.learnedSep σ) ∧
      (e.learnedSep σ).Sublist (sort (e.solutionOf σ)) :=
  minimalBad_minimizeSep hg (h.isBadSep hg hσ hbad)

/-- With all pairs separated the separator is a new one. -/
theorem Inv.learnedSep_new (hg : e.graph.Valid) (h : Inv e t) (hall : AllSeparated e t)
    {σ : ℕ → Bool} (hσ : t.Models σ)
    (hbad : ¬e.graph.toSimple.IsPmc (vset (e.solutionOf σ))) :
    ∀ p ∈ e.minsepVars, p.1 ≠ e.learnedSep σ := by
  intro p hp heq
  obtain ⟨hmin, hsub⟩ := h.minimalBad hg hσ hbad
  obtain ⟨v, u, hvu, hne, hc⟩ := hmin.apart hg fun v u hne => (h.basic σ hσ).symm v u hne
  have htrue : p.2.eval σ = true := by
    apply h.minsep_sound p hp σ hσ
    intro w hw
    rw [heq] at hw
    exact mem_solutionOf.mp (mem_sort.mp (hsub.subset hw))
  rw [hall p hp σ hσ htrue v u (heq ▸ hvu)] at hc
  cases hc

/-- What `BlockBadSolution` does with the solution in a model. -/
structure Refines (e e' : Enumerator n) (t t' : Trace) (σ : ℕ → Bool) : Prop where
  learns : Learns e e' t t'
  recorded : ∃ l, (e.learnedSep σ, l) ∈ e'.minsepVars ∧
    ((e.learnedSep σ, l) ∈ e.minsepVars ∧ e'.minsepVars = e.minsepVars ∨
      e'.minsepVars = (e.learnedSep σ, l) :: e.minsepVars)
  excludes : ∀ σ', t'.Models σ' → ¬Values e.xVar e.cVar σ' (xValue e.xVar σ) (cValue e.cVar σ)
  separated : e.minsepEncoding = 0 ∨ e.minsepEncoding = 5 → AllSeparated e t →
    AllSeparated e' t'

/-- The values in the model are excluded after the clauses for their bad
separator. -/
theorem wp_blockBadSolution {sh : Shuffle} {σ : ℕ → Bool} (hg : e.graph.Valid)
    (hle : e.minsepEncoding ≤ 5) (h : Inv e t) (hanswer : t.lastAnswer = some σ)
    (hσ : t.Models σ) (hbad : ¬e.graph.toSimple.IsPmc (vset (e.solutionOf σ))) :
    wp (e.blockBadSolution sh (e.solutionOf σ)) (fun e' t' => Refines e e' t t' σ) E t := by
  have hbasic := h.basic σ hσ
  have hisbad := h.isBadSep hg hσ hbad
  have h4 : e.minsepEncoding ≠ 4 := by
    intro h4
    rw [isBadSep_iff hg, vset_sort, vset_solutionOf] at hisbad
    exact hisbad (h.path h4 σ hσ)
  rw [blockBadSolution]
  dsimp only
  rw [wp_bind]
  apply wp_solutionCValue hanswer h.lits.c_valid
  intro C hC
  have hCbad : ∀ sep, isBadSep e.graph sep C = isBadSep e.graph sep (cValue e.cVar σ) :=
    fun sep => isBadSep_congr hg hC
  simp only [hCbad]
  rw [wp_bind]
  apply wp_assert_of hisbad
  obtain ⟨hmin, hsub⟩ := h.minimalBad hg hσ hbad
  change wp (assert (decide (2 ≤ (e.graph.components (e.learnedSep σ)).length)) >>= _) _ _ _
  obtain ⟨v, u, hvu, hne, hcvu⟩ := hmin.apart hg fun v u hne => hbasic.symm v u hne
  have hlen : 2 ≤ (e.graph.components (e.learnedSep σ)).length := by
    obtain ⟨i, ii, hlt, hii, -⟩ := hvu
    omega
  rw [wp_bind]
  apply wp_assert_of (decide_eq_true hlen)
  rw [wp_bind]
  apply wp_assert_of (decide_eq_true ((sort_sorted (e.solutionOf σ)).sublist hsub))
  rw [wp_bind]
  apply wp_imp (wp_minsepVar h (e.learnedSep σ))
  rintro ⟨l, e₁⟩ t₁ ⟨hlearn₁, hrec⟩
  have hmem := hrec.mem
  dsimp only at hlearn₁ hrec hmem ⊢
  have hne' : ∀ v u, Apart (e.graph.components (e.learnedSep σ)) v u → v ≠ u :=
    fun v u hapart => hapart.ne hg
  have hsame := hlearn₁.same
  apply wp_imp (wp_separatorClauses hlearn₁.inv.wellScoped
    (hlearn₁.inv.minsep_valid _ hmem) hlearn₁.inv.lits.c_valid hne'
    (by rw [hsame.encoding_eq]; exact hle) (by rw [hsame.encoding_eq]; exact h4))
  rintro e₂ t₂ ⟨hsep, he₂, hfull⟩
  have hgrow₂ := hsep.grows
  have hinv₂ : Inv e₁ t₂ := hlearn₁.inv.grows hgrow₂
  obtain ⟨added, hadd, hholds⟩ := hsep.added
  rw [he₂]
  have hlearn₂ : Learns e₁ { e₁ with randomGen := e₂.randomGen } t₁ t₂ := by
    refine ⟨⟨rfl, rfl, rfl, rfl⟩, ⟨hinv₂.wellScoped, hinv₂.lits, hinv₂.basic, hinv₂.path,
      hinv₂.minsep_valid, hinv₂.minsep_sound⟩, hgrow₂, fun _ => id,
      ⟨added, hadd, fun Ω σ' hcan => hholds σ' fun v u hapart htrue => ?_⟩,
      fun Ω σ' hcan => ⟨σ', AgreeBelow.refl _ σ', hcan.values, hcan.minseps⟩⟩
    -- The separator is in the set, which therefore separates the pair.
    have hsubset := (hcan.minseps _ hmem).mp htrue
    rw [cValue, hcan.values.c_eq v u (hne' v u hapart), Bool.eq_false_iff, Ne, hsame.graph_eq,
      connectedMatrix_iff_linked hg]
    exact fun hlink => hapart.not_linked hg (hlink.anti hsubset)
  refine ⟨hlearn₁.trans hlearn₂, ⟨l, hmem, ?_⟩, fun σ' hσ' hval => ?_, fun h05 hall => ?_⟩
  · rcases hrec with ⟨hold, rfl⟩ | ⟨-, hnew⟩
    · exact Or.inl ⟨hold, rfl⟩
    · exact Or.inr hnew
  · have htrue : l.eval σ' = true := by
      apply hinv₂.minsep_sound _ hmem σ' hσ'
      intro w hw
      rw [hsame.xVar_eq, xValue, hval.x_eq]
      exact mem_solutionOf.mp (mem_sort.mp (hsub.subset hw))
    obtain ⟨v', u', hne₁, hc₁, hfalse⟩ := hsep.cut
      ⟨v, u, hvu, (hC v u hne).trans hcvu⟩ σ' hσ' htrue
    rw [hC v' u' hne₁, ← hval.c_eq v' u' hne₁] at hc₁
    rw [cValue, hsame.cVar_eq, hc₁] at hfalse
    cases hfalse
  · intro p hp σ' hσ' htrue v' u' hapart
    dsimp only at hp hapart ⊢
    rw [hsame.graph_eq] at hapart
    have hp' : p ∈ e.minsepVars ∨ p = (e.learnedSep σ, l) := by
      rcases hrec with ⟨-, rfl⟩ | ⟨-, hnew⟩
      · exact Or.inl hp
      · rw [hnew] at hp
        exact (List.mem_cons.mp hp).symm
    rcases hp' with hp' | rfl
    · rw [hsame.cVar_eq]
      exact hall p hp' σ' (hlearn₁.grows.models σ' (hgrow₂.models σ' hσ')) htrue v' u' hapart
    · exact hfull (by rw [hsame.encoding_eq]; exact h05) σ' hσ' htrue v' u' hapart

end Enumerator

end Triangulator
