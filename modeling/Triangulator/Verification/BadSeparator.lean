import Triangulator.Verification.Connectivity

/-!
# Bad separators

A separator is bad for connectivity values when they connect a pair that the
separator separates.  The bad separators are closed under adding vertices, and a
minimal one separates a connected pair of vertices outside it.
-/

namespace Triangulator

open AbortM SimpleGraph

namespace Enumerator

variable {n : ℕ} {g : Graph n} {t : Trace} {E : Trace → Prop}

/-! ## Reading a solution -/

/-- The values of the connectivity literals. -/
theorem wp_solutionCValue {σ : ℕ → Bool} {cVar : Fin n → Fin n → Lit}
    (hσ : t.lastAnswer = some σ) (hc : ∀ i ii, i ≠ ii → (cVar i ii).Valid t.numVars)
    {Q : (Fin n → Fin n → Bool) → Trace → Prop}
    (hQ : ∀ C, (∀ i ii, i ≠ ii → C i ii = cValue cVar σ i ii) → Q C t) :
    wp (solutionCValue cVar) Q E t := by
  have hloop := wp_foldlM_finRange (n := n) (E := E)
    (f := fun cValue i => (List.finRange n).foldlM
      (fun cValue ii =>
        if i = ii then pure cValue
        else do
          let b ← solutionValue (cVar i ii)
          pure (Function.update cValue i (Function.update (cValue i) ii b)))
      cValue)
    (b := fun _ _ => false) (s := t)
    (fun k (C : Fin n → Fin n → Bool) t' => t' = t ∧ ∀ i ii : Fin n, i ≠ ii → i.val < k →
      C i ii = cValue cVar σ i ii)
    ⟨rfl, fun _ _ _ hi => absurd hi (Nat.not_lt_zero _)⟩ ?_
  · rw [solutionCValue]
    apply wp_imp hloop
    rintro C t' ⟨rfl, hC⟩
    exact hQ C fun i ii hne => hC i ii hne i.isLt
  · rintro i C t' ⟨rfl, hC⟩
    have hrow := wp_foldlM_finRange (n := n) (E := E) (b := C) (s := t')
      (f := fun cValue ii =>
        if i = ii then pure cValue
        else do
          let b ← solutionValue (cVar i ii)
          pure (Function.update cValue i (Function.update (cValue i) ii b)))
      (fun k (C : Fin n → Fin n → Bool) t'' => t'' = t' ∧ ∀ a b : Fin n, a ≠ b →
        (a.val < i.val ∨ a = i ∧ b.val < k) → C a b = cValue cVar σ a b)
      ⟨rfl, fun a b hne hor => hC a b hne (hor.resolve_right fun h =>
        absurd h.2 (Nat.not_lt_zero _))⟩ ?_
    · apply wp_imp hrow
      rintro C' t'' ⟨rfl, hC'⟩
      refine ⟨rfl, fun a b hne ha => hC' a b hne ?_⟩
      rcases Nat.lt_succ_iff_lt_or_eq.mp ha with ha | ha
      · exact Or.inl ha
      · exact Or.inr ⟨Fin.ext ha, b.isLt⟩
    rintro ii C' t'' ⟨rfl, hC'⟩
    by_cases hii : i = ii
    · rw [if_pos hii, wp_pure]
      refine ⟨rfl, fun a b hne hor => hC' a b hne (hor.imp_right ?_)⟩
      rintro ⟨rfl, hb⟩
      refine ⟨rfl, ?_⟩
      have := Fin.val_ne_of_ne hne
      rw [← hii] at hb
      omega
    · rw [if_neg hii, wp_bind]
      apply wp_solutionValue hσ (hc i ii hii)
      rw [wp_pure]
      refine ⟨rfl, fun a b hne hor => ?_⟩
      by_cases ha : a = i
      · subst ha
        rw [Function.update_self]
        by_cases hb : b = ii
        · rw [hb, Function.update_self]
          rfl
        · rw [Function.update_of_ne hb]
          have := Fin.val_ne_of_ne hb
          exact hC' a b hne (Or.inr ⟨rfl, by omega⟩)
      · rw [Function.update_of_ne ha]
        exact hC' a b hne (Or.inl (hor.resolve_right fun h => ha h.1))

/-- The vertices of a solution, and a clause that all other solutions meet. -/
theorem wp_readSolution {σ : ℕ → Bool} {e : Enumerator n} (hσ : t.lastAnswer = some σ)
    (hx : ∀ i, (e.xVar i).Valid t.numVars)
    {Q : List Lit × List (Fin n) → Trace → Prop}
    (hQ : ∀ clause, (∀ l ∈ clause, l.Valid t.numVars) →
      (∀ σ', Holds σ' clause ↔ ∃ i, xValue e.xVar σ' i ≠ xValue e.xVar σ i) →
      Q (clause, (List.finRange n).filter (xValue e.xVar σ)) t) :
    wp e.readSolution Q E t := by
  have hloop := wp_foldlM (E := E) (l := List.finRange n) (s := t)
    (f := fun (s : List Lit × List (Fin n)) i => do
      let b ← solutionValue (e.xVar i)
      if b then pure (s.1 ++ [-e.xVar i], s.2 ++ [i])
      else pure (s.1 ++ [e.xVar i], s.2))
    (b := ([], []))
    (fun pre s t' => t' = t ∧ (∀ l ∈ s.1, l.Valid t.numVars) ∧
      (∀ σ', Holds σ' s.1 ↔ ∃ i ∈ pre, xValue e.xVar σ' i ≠ xValue e.xVar σ i) ∧
      s.2 = pre.filter (xValue e.xVar σ))
    ⟨rfl, by simp, by simp, rfl⟩ ?_
  · rw [readSolution]
    apply wp_imp hloop
    rintro ⟨clause, solution⟩ t' ⟨rfl, hvalid, hholds, rfl⟩
    exact hQ clause hvalid fun σ' => by simpa using hholds σ'
  rintro pre i post ⟨clause, solution⟩ t' - ⟨rfl, hvalid, hholds, hsol⟩
  rw [wp_bind]
  apply wp_solutionValue hσ (hx i)
  have happend : ∀ l : Lit, l.Valid t'.numVars →
      (∀ σ', l.eval σ' = true ↔ xValue e.xVar σ' i ≠ xValue e.xVar σ i) →
      (∀ l' ∈ clause ++ [l], l'.Valid t'.numVars) ∧
      ∀ σ', Holds σ' (clause ++ [l]) ↔
        ∃ j ∈ pre ++ [i], xValue e.xVar σ' j ≠ xValue e.xVar σ j := by
    intro l hl hiff
    refine ⟨fun l' hl' => ?_, fun σ' => ?_⟩
    · rcases List.mem_append.mp hl' with hl' | hl'
      · exact hvalid l' hl'
      · rwa [List.mem_singleton.mp hl']
    · have hmem : Holds σ' (clause ++ [l]) ↔ Holds σ' clause ∨ l.eval σ' = true := by
        simp [Holds, or_and_right, exists_or]
      rw [hmem, hholds σ', hiff]
      simp [or_and_right, exists_or]
  have hfilter : xValue e.xVar σ i = (e.xVar i).eval σ := rfl
  cases hb : (e.xVar i).eval σ with
  | true =>
      rw [if_pos rfl, wp_pure]
      obtain ⟨h1, h2⟩ := happend (-e.xVar i) (Lit.valid_neg.mpr (hx i)) fun σ' => by
        rw [(hx i).eval_neg, hfilter, hb, xValue]
        cases (e.xVar i).eval σ' <;> simp
      refine ⟨rfl, h1, h2, ?_⟩
      rw [List.filter_append, ← hsol, List.filter_singleton, hfilter, hb]
      rfl
  | false =>
      rw [if_neg Bool.false_ne_true, wp_pure]
      obtain ⟨h1, h2⟩ := happend (e.xVar i) (hx i) fun σ' => by
        rw [hfilter, hb, xValue]
        cases (e.xVar i).eval σ' <;> simp
      refine ⟨rfl, h1, h2, ?_⟩
      rw [List.filter_append, ← hsol, List.filter_singleton, hfilter, hb]
      simp

theorem vset_filter_finRange (X : Fin n → Bool) :
    vset ((List.finRange n).filter X) = solutionSet X := by
  ext i
  simp [solutionSet]

/-- The vertices of the solution in a model. -/
def solutionOf (e : Enumerator n) (σ : ℕ → Bool) : List (Fin n) :=
  (List.finRange n).filter (xValue e.xVar σ)

theorem mem_solutionOf {e : Enumerator n} {σ : ℕ → Bool} {i : Fin n} :
    i ∈ e.solutionOf σ ↔ xValue e.xVar σ i = true := by
  simp [solutionOf]

theorem vset_solutionOf (e : Enumerator n) (σ : ℕ → Bool) :
    vset (e.solutionOf σ) = solutionSet (xValue e.xVar σ) :=
  vset_filter_finRange _

theorem solutionOf_sorted (e : Enumerator n) (σ : ℕ → Bool) :
    (e.solutionOf σ).Pairwise (· < ·) :=
  (List.sortedLT_finRange n).pairwise.filter _

/-! ## Bad separators -/

/-- The values connect a pair that the separator separates. -/
theorem isBadSep_iff (hg : g.Valid) {sep : List (Fin n)} {C : Fin n → Fin n → Bool} :
    isBadSep g sep C = true ↔ ¬Sound g (vset sep) C := by
  rw [isBadSep, Sound]
  push Not
  simp only [List.any_eq_true, List.mem_finRange, true_and, Bool.and_eq_true,
    decide_eq_true_iff, Bool.not_eq_true', Bool.eq_false_iff, Ne,
    connectedMatrix_iff_linked hg, and_assoc]

/-- Only the values of different vertices matter. -/
theorem isBadSep_congr (hg : g.Valid) {sep : List (Fin n)} {C C' : Fin n → Fin n → Bool}
    (h : ∀ i ii, i ≠ ii → C i ii = C' i ii) : isBadSep g sep C = isBadSep g sep C' := by
  rw [Bool.eq_iff_iff, isBadSep_iff hg, isBadSep_iff hg, Sound, Sound]
  refine not_congr (forall_congr' fun i => forall_congr' fun ii => forall_congr' fun hne => ?_)
  rw [h i ii hne]

/-- A larger separator of a bad one is bad. -/
theorem isBadSep_mono (hg : g.Valid) {S T : List (Fin n)} {C : Fin n → Fin n → Bool}
    (hST : S ⊆ T) (h : isBadSep g S C = true) : isBadSep g T C = true := by
  rw [isBadSep_iff hg] at h ⊢
  exact fun hT => h fun i ii hne hc => (hT i ii hne hc).anti fun v hv => hST hv

/-- The result of the minimization is bad, and its vertices are in every smaller bad
separator. -/
theorem minimizeSep_spec {bad : List (Fin n) → Bool}
    (hmono : ∀ S T, S ⊆ T → bad S = true → bad T = true) {minsep rest : List (Fin n)}
    (h : bad (minsep ++ rest) = true) :
    bad (minimizeSep bad minsep rest) = true ∧
      (minimizeSep bad minsep rest).Sublist (minsep ++ rest) ∧
      ∀ v ∈ minimizeSep bad minsep rest, v ∈ minsep ∨
        ∀ S ⊆ minimizeSep bad minsep rest, bad S = true → v ∈ S := by
  induction rest generalizing minsep with
  | nil =>
      rw [minimizeSep]
      rw [List.append_nil] at h ⊢
      exact ⟨h, List.Sublist.refl _, fun v hv => Or.inl hv⟩
  | cons v rest ih =>
      rw [minimizeSep]
      by_cases hbad : bad (minsep ++ rest) = true
      · rw [if_pos hbad]
        obtain ⟨h1, h2, h3⟩ := ih hbad
        exact ⟨h1, h2.trans ((List.sublist_cons_self v rest).append_left minsep), h3⟩
      · rw [if_neg hbad]
        have h' : bad ((minsep ++ [v]) ++ rest) = true := by
          rw [← List.append_cons]
          exact h
        obtain ⟨h1, h2, h3⟩ := ih h'
        rw [← List.append_cons] at h2
        refine ⟨h1, h2, fun w hw => ?_⟩
        rcases h3 w hw with hw' | hw'
        · rcases List.mem_append.mp hw' with hw' | hw'
          · exact Or.inl hw'
          · obtain rfl := List.mem_singleton.mp hw'
            refine Or.inr fun S hS hSbad => ?_
            by_contra hwS
            refine hbad (hmono S _ (fun x hx => ?_) hSbad)
            have hxw : x ≠ w := fun he => hwS (he ▸ hx)
            have hmem := h2.subset (hS hx)
            simp only [List.mem_append, List.mem_cons] at hmem ⊢
            exact hmem.imp_right fun h => h.resolve_left hxw
        · exact Or.inr hw'

/-- The set is bad, and every bad subset contains all of its vertices. -/
structure MinimalBad (g : Graph n) (C : Fin n → Fin n → Bool) (minsep : List (Fin n)) :
    Prop where
  bad : isBadSep g minsep C = true
  subset : ∀ S ⊆ minsep, isBadSep g S C = true → minsep ⊆ S

/-- One pass suffices, since the bad separators are closed under adding vertices. -/
theorem minimalBad_minimizeSep (hg : g.Valid) {C : Fin n → Fin n → Bool}
    {solution : List (Fin n)} (h : isBadSep g solution C = true) :
    MinimalBad g C (minimizeSep (fun sep => isBadSep g sep C) [] solution) ∧
      (minimizeSep (fun sep => isBadSep g sep C) [] solution).Sublist solution := by
  have hmono : ∀ S T, S ⊆ T → (fun sep => isBadSep g sep C) S = true →
      (fun sep => isBadSep g sep C) T = true := fun S T hST => isBadSep_mono hg hST
  obtain ⟨hbad, hsub, hmin⟩ := minimizeSep_spec hmono
    (show isBadSep g ([] ++ solution) C = true from h)
  exact ⟨⟨hbad, fun S hS hSbad v hv => (hmin v hv).resolve_left List.not_mem_nil S hS hSbad⟩,
    hsub⟩

namespace MinimalBad

variable {C : Fin n → Fin n → Bool} {minsep : List (Fin n)}

/-- Without one of its vertices the set connects every pair that it should. -/
theorem linked_sdiff (hg : g.Valid) (h : MinimalBad g C minsep) {v u w : Fin n}
    (hne : v ≠ u) (hc : C v u = true) (hw : w ∈ minsep) :
    g.toSimple.Linked (vset minsep \ {w}) v u := by
  have hfilter : vset (minsep.filter fun x => decide (x ≠ w)) = vset minsep \ {w} := by
    ext x
    simp
  by_contra hnot
  have hbad : isBadSep g (minsep.filter fun x => decide (x ≠ w)) C = true := by
    rw [isBadSep_iff hg, hfilter]
    exact fun hsound => hnot (hsound v u hne hc)
  have hmem := h.subset _ (fun x hx => List.mem_of_mem_filter hx) hbad hw
  simp at hmem

/-- An end of a violated pair could have been left out. -/
theorem notMem (hg : g.Valid) (h : MinimalBad g C minsep) {v u : Fin n} (hne : v ≠ u)
    (hc : C v u = true) (hnot : ¬g.toSimple.Linked (vset minsep) v u) :
    v ∉ minsep ∧ u ∉ minsep := by
  refine ⟨fun hv => hnot ?_, fun hu => hnot ?_⟩
  · exact (h.linked_sdiff hg hne hc hv).insert_end hne
  · exact ((h.linked_sdiff hg hne hc hu).symm.insert_end hne.symm).symm

theorem exists_pair (hg : g.Valid) (h : MinimalBad g C minsep) :
    ∃ v u, v ≠ u ∧ C v u = true ∧ ¬g.toSimple.Linked (vset minsep) v u := by
  have hbad := (isBadSep_iff hg).mp h.bad
  rw [Sound] at hbad
  push Not at hbad
  exact hbad

/-- The set is a minimal separator of the graph. -/
theorem isMinimalSeparator (hg : g.Valid) (h : MinimalBad g C minsep) :
    g.toSimple.IsMinimalSeparator (vset minsep) := by
  obtain ⟨v, u, hne, hc, hnot⟩ := h.exists_pair hg
  obtain ⟨hv, hu⟩ := h.notMem hg hne hc hnot
  exact isMinimalSeparator_of_not_linked hv hu hnot fun w hw => h.linked_sdiff hg hne hc hw

end MinimalBad

/-- Two vertices of the components are in different ones. -/
def Apart (components : List (List (Fin n))) (v u : Fin n) : Prop :=
  ∃ i ii, i < ii ∧ ii < components.length ∧ v ∈ components.getD i [] ∧
    u ∈ components.getD ii []

theorem Apart.ne (hg : g.Valid) {minsep : List (Fin n)} {v u : Fin n}
    (h : Apart (g.components minsep) v u) : v ≠ u := by
  rintro rfl
  obtain ⟨i, ii, hlt, hii, hv, hu⟩ := h
  rw [List.getD_eq_getElem _ _ (hlt.trans hii)] at hv
  rw [List.getD_eq_getElem _ _ hii] at hu
  exact List.pairwise_iff_getElem.mp (components_spec hg minsep).disjoint i ii
    (hlt.trans hii) hii hlt v hv hu

/-- Vertices in different components are not linked. -/
theorem Apart.not_linked (hg : g.Valid) {minsep : List (Fin n)} {v u : Fin n}
    (h : Apart (g.components minsep) v u) : ¬g.toSimple.Linked (vset minsep) v u := by
  obtain ⟨i, ii, hlt, hii, hv, hu⟩ := h
  have hcs := components_spec hg minsep
  have hi : i < (g.components minsep).length := hlt.trans hii
  rw [List.getD_eq_getElem _ _ hi] at hv
  rw [List.getD_eq_getElem _ _ hii] at hu
  have hCi := hcs.isComponent _ (List.getElem_mem hi)
  have hCii := hcs.isComponent _ (List.getElem_mem hii)
  intro hlink
  obtain ⟨D, hD, hvD, huD⟩ := hlink.exists_component (hCi.notMem v hv)
  have huD' : u ∈ D := hD.mem_of_mem_union_nbhd (hCii.notMem u hu) huD
  rw [hD.eq_componentOf hvD, ← hCi.eq_componentOf hv] at huD'
  exact List.pairwise_iff_getElem.mp hcs.disjoint i ii hi hii hlt u huD' hu

/-- A violated pair of the set is in two of its components. -/
theorem MinimalBad.apart (hg : g.Valid) {C : Fin n → Fin n → Bool} {minsep : List (Fin n)}
    (hsymm : ∀ v u, v ≠ u → C v u = C u v) (h : MinimalBad g C minsep) :
    ∃ v u, Apart (g.components minsep) v u ∧ v ≠ u ∧ C v u = true := by
  obtain ⟨v, u, hne, hc, hnot⟩ := h.exists_pair hg
  obtain ⟨hv, hu⟩ := h.notMem hg hne hc hnot
  have hcs := components_spec hg minsep
  obtain ⟨c, hc', hvc⟩ := hcs.cover v hv
  obtain ⟨d, hd', hud⟩ := hcs.cover u hu
  obtain ⟨i, hi, rfl⟩ := List.mem_iff_getElem.mp hc'
  obtain ⟨ii, hii, rfl⟩ := List.mem_iff_getElem.mp hd'
  have hget : ∀ {k : ℕ} (hk : k < (g.components minsep).length) {w : Fin n},
      w ∈ (g.components minsep)[k] → w ∈ (g.components minsep).getD k [] :=
    fun hk w hw => by rwa [List.getD_eq_getElem _ _ hk]
  rcases lt_trichotomy i ii with hlt | rfl | hlt
  · exact ⟨v, u, ⟨i, ii, hlt, hii, hget hi hvc, hget hii hud⟩, hne, hc⟩
  · refine absurd (Or.inr ⟨_, hcs.isComponent _ hc', ?_, ?_⟩) hnot
    · exact Or.inl hvc
    · exact Or.inl hud
  · exact ⟨u, v, ⟨ii, i, hlt, hi, hget hii hud, hget hi hvc⟩, hne.symm,
      (hsymm v u hne).symm.trans hc⟩

end Enumerator

end Triangulator
