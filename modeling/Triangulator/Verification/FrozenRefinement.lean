import Triangulator.Verification.FrozenLiterals
import Triangulator.Verification.Search

/-!
# Refinement and the freeze discipline

A refinement adds a clause about a pair of vertices that are not adjacent.  After a
simplification such a clause is one about a variable that can have been eliminated, with
every encoding.
-/

namespace Triangulator

open AbortM SimpleGraph

namespace Enumerator

variable {n : ℕ} {e : Enumerator n} {t : Trace} {l : Lit} {components : List (List (Fin n))}
  {C : Fin n → Fin n → Bool} {A B : List (Fin n)}

/-! ## The calls of a refinement -/

theorem logs_blockBadSolution {sh : Shuffle} {solution : List (Fin n)} :
    Logs Event.Build (e.blockBadSolution sh solution) :=
  (uses_blockBadSolution e.canRead_all).logs Solver.choice

/-! ## The clause that breaks the discipline -/

/-- The connections between two sets cannot be mentioned. -/
def Unusable (e : Enumerator n) (t : Trace) (A B : List (Fin n)) : Prop :=
  ∀ v ∈ A, ∀ u ∈ B, (e.cVar v u).usable t = false

theorem wp_pairClause_violates {v u : Fin n} (h : (e.cVar v u).usable t = false) :
    wp (e.pairClause l v u) (fun _ t' => t'.disciplined = false) (fun _ => True) t := by
  apply wp_addClause_any
  apply Trace.not_disciplined_addClause (l := -e.cVar v u)
  · exact List.mem_cons_of_mem _ List.mem_cons_self
  · rw [Lit.usable_neg, h]

/-- The loop over all pairs of two components. -/
theorem wp_allPairs_violates (hun : Unusable e t A B) (hhit : ∃ v ∈ A, ∃ u ∈ B, C v u = true) :
    wp (e.allPairs l A B) (fun _ t' => t'.disciplined = false) (fun _ => True) t := by
  obtain ⟨v, hv, u, hu, -⟩ := hhit
  exact wp_forM_forM_until
    (fun v hv u hu => wp_imp (wp_pairClause_violates (hun v hv u hu)) fun _ _ => Or.inr)
    (fun _ _ _ => wp_undisciplined builds_pairClause)
    ⟨v, hv, u, hu, wp_pairClause_violates (hun v hv u hu)⟩

/-- What a loop over two components does: nothing, or it breaks the discipline, and the
latter when a pair is broken. -/
structure Violates (e : Enumerator n) (t : Trace) (C : Fin n → Fin n → Bool)
    (body : List (Fin n) → List (Fin n) → SatM PUnit) : Prop where
  builds : ∀ A B, Builds Event.Build (body A B)
  step : ∀ A B, Unusable e t A B →
    wp (body A B) (fun _ t' => t' = t ∨ t'.disciplined = false) (fun _ => True) t
  hit : ∀ A B, Unusable e t A B → (∃ v ∈ A, ∃ u ∈ B, C v u = true) →
    wp (body A B) (fun _ t' => t'.disciplined = false) (fun _ => True) t

theorem violates_allPairs : Violates e t C (e.allPairs l) where
  builds _ _ := builds_allPairs
  step _ _ hun := wp_forM_forM_or
    (fun v hv u hu => wp_imp (wp_pairClause_violates (hun v hv u hu)) fun _ _ => Or.inr)
    fun _ _ _ => wp_undisciplined builds_pairClause
  hit _ _ hun hhit := wp_allPairs_violates hun hhit

theorem violates_brokenPairs : Violates e t C (e.brokenPairs l C) := by
  have hround : ∀ {A B : List (Fin n)}, Unusable e t A B → ∀ v ∈ A, ∀ u ∈ B,
      wp (when (C v u = true) (e.pairClause l v u))
        (fun _ t' => (C v u = false ∧ t' = t) ∨ t'.disciplined = false) (fun _ => True) t := by
    intro A B hun v hv u hu
    apply wp_when
    · exact fun _ => wp_imp (wp_pairClause_violates (hun v hv u hu)) fun _ _ => Or.inr
    · exact fun hC => Or.inl ⟨Bool.eq_false_iff.mpr hC, rfl⟩
  refine ⟨fun _ _ => builds_brokenPairs, fun A B hun => ?_, fun A B hun hhit => ?_⟩
  · exact wp_forM_forM_or
      (fun v hv u hu => wp_imp (hround hun v hv u hu) fun _ _ h => h.imp_left And.right)
      fun _ _ _ => wp_undisciplined builds_pairClause.when
  · obtain ⟨v, hv, u, hu, hC⟩ := hhit
    refine wp_forM_forM_until
      (fun v hv u hu => wp_imp (hround hun v hv u hu) fun _ _ h => h.imp_left And.right)
      (fun _ _ _ => wp_undisciplined builds_pairClause.when) ⟨v, hv, u, hu, ?_⟩
    refine wp_imp (hround hun v hv u hu) fun _ _ h => h.resolve_left fun h => ?_
    rw [hC] at h
    exact Bool.noConfusion h.1

theorem violates_pairsIfBroken : Violates e t C (e.pairsIfBroken l C) := by
  refine ⟨fun _ _ => builds_pairsIfBroken, fun A B hun => ?_, fun A B hun hhit => ?_⟩
  · apply wp_when
    · exact fun _ => violates_allPairs.step (C := C) A B hun
    · exact fun _ => Or.inl rfl
  · apply wp_when
    · exact fun _ => wp_allPairs_violates hun hhit
    · intro hnone
      obtain ⟨v, hv, u, hu, hC⟩ := hhit
      exact absurd (List.any_eq_true.mpr ⟨v, hv, List.any_eq_true.mpr ⟨u, hu, hC⟩⟩) hnone

/-- The vertices of different components. -/
theorem unusable_getD (hun : ∀ v u, Apart components v u → (e.cVar v u).usable t = false)
    {i ii : ℕ} (hlt : i < ii) (hii : ii < components.length) :
    Unusable e t (components.getD i []) (components.getD ii []) :=
  fun v hv u hu => hun v u ⟨i, ii, hlt, hii, hv, hu⟩

theorem Violates.wp_forPairs {body : List (Fin n) → List (Fin n) → SatM PUnit}
    (h : Violates e t C body)
    (hun : ∀ v u, Apart components v u → (e.cVar v u).usable t = false)
    (hhit : ∃ v u, Apart components v u ∧ C v u = true) :
    wp (forPairs components body) (fun _ t' => t'.disciplined = false) (fun _ => True) t := by
  obtain ⟨v, u, ⟨i, ii, hlt, hii, hv, hu⟩, hC⟩ := hhit
  refine wp_forM_forM_until (fun i _ ii hii => ?_)
    (fun _ _ _ => wp_undisciplined (h.builds _ _))
    ⟨i, List.mem_range.mpr (hlt.trans hii), ii, List.mem_range'_1.mpr (by omega),
      h.hit _ _ (unusable_getD hun hlt hii) ⟨v, hv, u, hu, hC⟩⟩
  have hii' := List.mem_range'_1.mp hii
  exact h.step _ _ (unusable_getD hun (by omega) (by omega))

/-- The vectors hold the vertices of the components in any order. -/
def Shuffled (components cs : List (List (Fin n))) : Prop :=
  cs.length = components.length ∧ ∀ k, (cs.getD k []).Perm (components.getD k [])

theorem Shuffled.set {cs : List (List (Fin n))} {k : ℕ} {c : List (Fin n)}
    (h : Shuffled components cs) (hc : c.Perm (components.getD k [])) :
    Shuffled components (cs.set k c) :=
  ⟨(List.length_set ..).trans h.1, fun j =>
    (getD_set_perm (hc.trans (h.2 k).symm) j).trans (h.2 j)⟩

/-- A visit of a pair of components. -/
theorem wp_randomPair_violates {sh : Shuffle} {i ii : ℕ} {s : List (List (Fin n)) × List ℕ}
    (hlt : i < ii) (hii : ii < components.length)
    (hun : ∀ v u, Apart components v u → (e.cVar v u).usable t = false)
    (hs : Shuffled components s.1) :
    wp (do
        let A := sh.order s.2 (s.1.getD i [])
        let B := sh.order (A.length :: s.2) (s.1.getD ii [])
        (firstBroken C A B).elim (pure ()) fun p => e.pairClause l p.1 p.2
        pure ((s.1.set i A).set ii B, B.length :: A.length :: s.2))
      (fun s' t' => ((Shuffled components s'.1 ∧ t' = t) ∧ ∀ v ∈ components.getD i [],
        ∀ u ∈ components.getD ii [], C v u ≠ true) ∨ t'.disciplined = false)
      (fun _ => True) t := by
  set A := sh.order s.2 (s.1.getD i [])
  set B := sh.order (A.length :: s.2) (s.1.getD ii [])
  have hA : A.Perm (components.getD i []) := (sh.perm _ _).trans (hs.2 i)
  have hB : B.Perm (components.getD ii []) := (sh.perm _ _).trans (hs.2 ii)
  dsimp only
  rw [wp_bind]
  cases hfirst : firstBroken C A B with
  | none =>
      exact Or.inl ⟨⟨(hs.set hA).set hB, rfl⟩, fun v hv u hu =>
        firstBroken_none hfirst (hA.mem_iff.mpr hv) (hB.mem_iff.mpr hu)⟩
  | some p =>
      obtain ⟨hpA, hpB, -⟩ := firstBroken_some hfirst
      exact wp_imp (wp_pairClause_violates (hun p.1 p.2
        ⟨i, ii, hlt, hii, hA.mem_iff.mp hpA, hB.mem_iff.mp hpB⟩)) fun _ _ => Or.inr

theorem wp_randomPairs_violates {sh : Shuffle}
    (hun : ∀ v u, Apart components v u → (e.cVar v u).usable t = false)
    (hhit : ∃ v u, Apart components v u ∧ C v u = true) :
    wp (e.randomPairs sh l C components) (fun _ t' => t'.disciplined = false)
      (fun _ => True) t := by
  obtain ⟨v, u, ⟨i, ii, hlt, hii, hv, hu⟩, hC⟩ := hhit
  have hbuilds : ∀ (s : List (List (Fin n)) × List ℕ) (i ii : ℕ), Builds Event.Build (do
      let A := sh.order s.2 (s.1.getD i [])
      let B := sh.order (A.length :: s.2) (s.1.getD ii [])
      (firstBroken C A B).elim (pure ()) fun p => e.pairClause l p.1 p.2
      pure ((s.1.set i A).set ii B, B.length :: A.length :: s.2)) := fun s i ii =>
    ((Builds.pure _).elim fun _ => builds_pairClause).bind fun _ => Builds.pure _
  have hstep : ∀ i ii, ii ∈ List.range' (i + 1) (components.length - (i + 1)) →
      i < ii ∧ ii < components.length := fun i ii hmem => by
    have := List.mem_range'_1.mp hmem
    omega
  rw [randomPairs, wp_bind]
  have hloop : Shuffled components components := ⟨rfl, fun _ => List.Perm.refl _⟩
  refine wp_imp (Q := fun _ (t' : Trace) => t'.disciplined = false)
    (wp_foldlM_until (fun s => Shuffled components s.1) hloop (fun i _ s hs => ?_)
      (fun i s t' ht' => ?_) ⟨i, List.mem_range.mpr (hlt.trans hii), fun s hs => ?_⟩)
    fun _ _ h => h
  · refine wp_foldlM_or (fun s => Shuffled components s.1) hs (fun ii hmem s hs => ?_)
      fun ii s t' => wp_undisciplined (hbuilds s i ii)
    obtain ⟨hlt, hii⟩ := hstep i ii hmem
    exact wp_imp (wp_randomPair_violates hlt hii hun hs) fun _ _ h => h.imp_left And.left
  · exact wp_undisciplined (Builds.foldlM (fun s ii => hbuilds s i ii) _ s) ht'
  · refine wp_foldlM_until (fun s => Shuffled components s.1) hs (fun ii hmem s hs => ?_)
      (fun ii s t' => wp_undisciplined (hbuilds s i ii))
      ⟨ii, List.mem_range'_1.mpr (by omega), fun s hs => ?_⟩
    · obtain ⟨hlt, hii⟩ := hstep i ii hmem
      exact wp_imp (wp_randomPair_violates hlt hii hun hs) fun _ _ h => h.imp_left And.left
    · exact wp_imp (wp_randomPair_violates hlt hii hun hs) fun _ _ h =>
        h.resolve_left fun h => h.2 v hv u hu hC

/-- A clause about a broken pair is added with every encoding. -/
theorem wp_separatorClauses_violates {sh : Shuffle}
    (hun : ∀ v u, Apart components v u → (e.cVar v u).usable t = false)
    (hhit : ∃ v u, Apart components v u ∧ C v u = true) :
    wp (e.separatorClauses sh l C components) (fun _ t' => t'.disciplined = false)
      (fun _ => True) t := by
  have hpairs : ∀ {body : List (Fin n) → List (Fin n) → SatM PUnit}, Violates e t C body →
      wp (do
        forPairs components body
        pure e) (fun _ t' => t'.disciplined = false) (fun _ => True) t := by
    intro body hbody
    rw [wp_bind]
    exact wp_imp (hbody.wp_forPairs hun hhit) fun _ _ h => h
  rw [separatorClauses]
  apply wp_ite
  · exact fun _ => hpairs violates_allPairs
  intro _
  apply wp_ite
  · exact fun _ => hpairs violates_brokenPairs
  intro _
  apply wp_ite
  · exact fun _ => wp_randomPairs_violates hun hhit
  intro _
  apply wp_ite
  · exact fun _ => hpairs violates_pairsIfBroken
  · exact fun _ => trivial

/-- The connections of vertices that are not adjacent cannot be mentioned. -/
def Eliminated (e : Enumerator n) (t : Trace) : Prop :=
  ∀ v u, v ≠ u → e.graph.hasEdge v u = false → (e.cVar v u).usable t = false

/-- Blocking a solution that is no potential maximal clique breaks the discipline. -/
theorem wp_blockBadSolution_violates {sh : Shuffle} {σ : ℕ → Bool} (hg : e.graph.Valid)
    (h : Inv e t) (hanswer : t.lastAnswer = some σ) (hσ : t.Models σ)
    (hbad : ¬e.graph.toSimple.IsPmc (vset (e.solutionOf σ))) (hun : Eliminated e t) :
    wp (e.blockBadSolution sh (e.solutionOf σ)) (fun _ t' => t'.disciplined = false)
      (fun _ => True) t := by
  obtain ⟨hmin, -⟩ := h.minimalBad hg hσ hbad
  obtain ⟨v, u, hvu, hne, hc⟩ := hmin.apart hg fun v u hne => (h.basic σ hσ).symm v u hne
  rw [blockBadSolution]
  dsimp only
  rw [wp_bind]
  apply wp_solutionCValue hanswer h.lits.c_valid
  intro C hC
  have hcongr : ∀ sep, isBadSep e.graph sep C = isBadSep e.graph sep (cValue e.cVar σ) :=
    fun _ => isBadSep_congr hg hC
  simp only [hcongr]
  change wp (assert (isBadSep e.graph (sort (e.solutionOf σ)) (cValue e.cVar σ)) >>= fun _ =>
    assert (decide (2 ≤ (e.graph.components (e.learnedSep σ)).length)) >>= fun _ =>
    assert (decide ((e.learnedSep σ).Pairwise (· ≤ ·))) >>= fun _ =>
    e.minsepVar (e.learnedSep σ) >>= fun r => r.2.separatorClauses sh r.1 C
      (e.graph.components (e.learnedSep σ))) _ _ _
  rw [wp_bind]
  apply wp_assert_any
  rw [wp_bind]
  apply wp_assert_any
  rw [wp_bind]
  apply wp_assert_any
  rw [wp_bind]
  have hlogs : Logs Event.Build (e.minsepVar (e.learnedSep σ)) :=
    (uses_minsepVar (b := true) e.canRead_all).logs Solver.choice
  have hcalls : wp (e.minsepVar (e.learnedSep σ)) (fun _ t' => ∃ calls, t' = calls ++ t)
      (fun _ => True) t :=
    wp_mono (hlogs.wp (R := fun t' => ∃ calls, t' = calls ++ t)
      fun calls _ => ⟨calls, rfl⟩) (fun _ _ h => h) fun _ _ => trivial
  apply wp_imp (wp_and (wp_minsepVar h (e.learnedSep σ)) hcalls)
  rintro ⟨l, e₁⟩ t₁ ⟨⟨hlearn, -⟩, calls, rfl⟩
  refine wp_separatorClauses_violates (fun v u hapart => ?_)
    ⟨v, u, hvu, (hC v u hne).trans hc⟩
  -- Vertices in different components are not adjacent.
  rw [hlearn.same.cVar_eq]
  apply Lit.usable_append
  apply hun v u (hapart.ne hg)
  rw [Bool.eq_false_iff]
  exact fun hadj => hapart.not_linked hg (Or.inl (hg.adj_iff.mpr hadj))

end Enumerator

end Triangulator
