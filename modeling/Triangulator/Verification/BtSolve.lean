import Triangulator.GraphTheory.Fill
import Triangulator.Verification.BtReconstruct
import Triangulator.Verification.GraphUpdate
import Triangulator.Verification.PmcTest

/-!
# Exactness of the Bouchitté-Todinca algorithm

On every list of potential maximal cliques, full or partial, `Solve` returns a
best minimal triangulation whose maximal cliques are all listed, or reports that
there is none.
-/

namespace Triangulator

open SimpleGraph

variable {n : ℕ} {g : Graph n}

namespace BtAlgorithm

variable {pmcs : List (List (Fin n))} {H : SimpleGraph (Fin n)}

/-- `H` is a minimal triangulation of the graph whose maximal cliques are all
listed. -/
structure IsListed (g : Graph n) (pmcs : List (List (Fin n)))
    (H : SimpleGraph (Fin n)) : Prop where
  minimal : g.toSimple.IsMinimalTriangulation H
  listed : ∀ Q, Maximal H.IsClique Q → ∃ pmc ∈ pmcs, vset pmc = Q

theorem isListed_iff :
    IsListed g pmcs H ↔
      g.toSimple.BlockSolution (cliqueSets pmcs) ∅ Set.univ H := by
  constructor
  · intro h
    exact ⟨by rw [realization_empty_univ]; exact h.minimal,
      fun Q hQ _ => h.listed Q hQ⟩
  · intro h
    have hmin := h.minimal
    rw [realization_empty_univ] at hmin
    exact ⟨hmin, fun Q hQ => h.allowed Q hQ (by simp)⟩

/-- What the value returned by `Solve` says about the listed triangulations. -/
structure IsBest (g : Graph n) (pmcs : List (List (Fin n))) (c : ℤ)
    (F : List (Fin n × Fin n)) : Prop where
  isFill : g.toSimple.IsFill F
  isListed : IsListed g pmcs (g.toSimple.addFill F)
  cliqueNum : ((g.toSimple.addFill F).cliqueNum : ℤ) = c + 1
  least : ∀ H, IsListed g pmcs H → c ≤ (H.cliqueNum : ℤ) - 1

/-- The state of the whole graph. -/
abbrev rootState (n : ℕ) : ℕ × ℕ :=
  (noneSepId n, allCompId n)

theorem Tables.Valid.isState_root {t : Tables n} (ht : t.Valid) :
    t.IsState (rootState n) ∅ Set.univ :=
  ⟨[], List.finRange n, ht.sep_first, ht.comp_first, by ext; simp, by ext; simp⟩

theorem isStateBlock_root : g.toSimple.IsStateBlock ∅ Set.univ :=
  Or.inl ⟨rfl, rfl⟩

/-- The table after the dynamic-programming loop. -/
def finalDp (ks : KeySort) (g : Graph n) (pmcs : List (List (Fin n)))
    (t : Tables n) : DpState :=
  (runDp g pmcs t (ks.run (tripletSize t) t.triplets)).1

theorem finished_of_built (ks : KeySort) (hn : 0 < n) (hg : g.Valid)
    (hpmcs : IsPmcList g pmcs) {t : Tables n} (ht : Built g pmcs t) :
    Finished g pmcs t (finalDp ks g pmcs t) :=
  ⟨hn, hg, hpmcs, ht, (runDp_spec ks hn hg hpmcs ht).1⟩

/-- The entry of the whole graph is the best value of a listed triangulation. -/
theorem Finished.root_eq {t : Tables n} {d : DpState} (h : Finished g pmcs t d) :
    d.dp (rootState n) = g.toSimple.blockValue (cliqueSets pmcs) ∅ Set.univ := by
  rw [h.dp_eq h.built.valid.isState_root isStateBlock_root,
    h.built.valid.isState_root.stateValue]

/-- From an entry of the whole graph the reconstruction lists the fill edges of
a best listed triangulation. -/
theorem Finished.reconstruct_root {t : Tables n} {d : DpState} {c : ℤ}
    (h : Finished g pmcs t d) (hdp : d.dp (rootState n) = some c) :
    ∃ F keys, reconstruct g pmcs t d (n + 1) [rootState n] = some (F, keys) ∧
      IsBest g pmcs c F ∧ KeysPresent t keys := by
  have hroot := h.built.valid.isState_root
  obtain ⟨F, keys, hrec, hperm, hkeys⟩ := h.reconstruct_spec (n + 1) [rootState n]
    (by
      intro st hst
      rw [List.mem_singleton.mp hst]
      exact ⟨∅, Set.univ, hroot, isStateBlock_root, by simp [hdp]⟩)
    (by
      have hlen : (t.components.get (rootState n).2).length = n := by
        simp [IdSet.get, List.getD_eq_getElem?_getD, h.built.valid.comp_first]
      simp [hlen])
  have hsolved : Solved g t d ∅ Set.univ :=
    ⟨rootState n, hroot, isStateBlock_root, by simp [hdp]⟩
  have : Nonempty (Fin n) := ⟨⟨0, h.pos⟩⟩
  have hsol := h.isChoice.blockSolution hsolved
  set H := g.toSimple.glueChoice (chosen pmcs t d) ∅ Set.univ with hH
  have hlisted := isListed_iff.mpr hsol
  rw [List.flatMap_singleton, stateFill, hroot.get.1, hroot.get.2] at hperm
  have hmem : ∀ e, e ∈ F.map (fun p => s(p.1, p.2)) ↔
      e ∈ H.edgeSet \ g.toSimple.edgeSet := by
    intro e
    rw [hperm.mem_iff, mem_fillList, fillSet, realization_empty_univ]
  have heq := addFill_eq hlisted.minimal.le hmem
  have hle := h.cliqueNum_le hroot isStateBlock_root hdp
  rw [← hH] at hle
  rw [h.root_eq] at hdp
  have hleast : ∀ K, IsListed g pmcs K → c ≤ (K.cliqueNum : ℤ) - 1 := by
    intro K hK
    obtain ⟨c', hc', hKle⟩ := (isListed_iff.mp hK).blockValue_le
    rw [hdp, Option.some_inj] at hc'
    omega
  refine ⟨F, keys, hrec, ⟨isFill_of_edgeSet (hperm.nodup_iff.mpr fillList_nodup) hmem,
    by rw [heq]; exact hlisted, ?_, hleast⟩, hkeys⟩
  rw [heq]
  have := hleast H hlisted
  omega

/-- `Solve` on a nonempty graph and a list of potential maximal cliques never
fails an assertion, and its result is read off the entry of the whole graph. -/
theorem run_spec (ks : KeySort) (hn : 0 < n) (hg : g.Valid)
    (hpmcs : IsPmcList g pmcs) :
    ∃ r, run ks g pmcs = some r ∧ Built g pmcs r.tables ∧
      ((r.cost = -1 ∧ r.fillEdges = [] ∧ (∀ H, ¬IsListed g pmcs H)) ∨
        (0 ≤ r.cost ∧ IsBest g pmcs r.cost r.fillEdges)) ∧
      ∃ keys, KeysPresent r.tables keys ∧ r.lookups =
        (runDp g pmcs r.tables
          (ks.run (tripletSize r.tables) r.tables.triplets)).2 ++ keys := by
  obtain ⟨t, hbuild, hbuilt⟩ := buildTables_spec hg hpmcs
  have hfin := finished_of_built ks hn hg hpmcs hbuilt
  rw [run, hbuild, Option.bind_eq_bind, Option.bind_some]
  dsimp only
  have hroot : (runDp g pmcs t (ks.run (tripletSize t) t.triplets)).1.dp
      (noneSepId n, allCompId n) = (finalDp ks g pmcs t).dp (rootState n) := rfl
  rw [hroot]
  cases hdp : (finalDp ks g pmcs t).dp (rootState n) with
  | none =>
      refine ⟨_, rfl, hbuilt, Or.inl ⟨rfl, rfl, fun H hH => ?_⟩, [], by simp [KeysPresent],
        by simp⟩
      obtain ⟨c, hc, -⟩ := (isListed_iff.mp hH).blockValue_le
      rw [← hfin.root_eq, hdp] at hc
      cases hc
  | some c =>
      obtain ⟨F, keys, hrec, hbest, hkeys⟩ := hfin.reconstruct_root hdp
      have hrec' : reconstruct g pmcs t
          (runDp g pmcs t (ks.run (tripletSize t) t.triplets)).1 (n + 1)
          [(noneSepId n, allCompId n)] = some (F, keys) := hrec
      dsimp only
      rw [hrec']
      refine ⟨_, rfl, hbuilt, Or.inr ⟨?_, hbest⟩, keys, hkeys, rfl⟩
      have : Nonempty (Fin n) := ⟨⟨0, hn⟩⟩
      have hpos := cliqueNum_pos (G := g.toSimple.addFill F)
      have := hbest.cliqueNum
      dsimp only
      omega

/-- `Solve` returns a best listed triangulation if there is a listed one. -/
theorem solve_cases (ks : KeySort) (hn : 0 < n) (hg : g.Valid) (hpmcs : IsPmcList g pmcs) :
    ∃ c F, solve ks g pmcs = some (c, F) ∧
      ((c = -1 ∧ F = [] ∧ ∀ H, ¬IsListed g pmcs H) ∨ (0 ≤ c ∧ IsBest g pmcs c F)) := by
  obtain ⟨r, hrun, -, hcases, -⟩ := run_spec ks hn hg hpmcs
  exact ⟨r.cost, r.fillEdges, by rw [solve, hrun]; rfl, hcases⟩

/-- `Solve` is exact for every list of potential maximal cliques. -/
theorem solve_exact (ks : KeySort) (hn : 0 < n) (hg : g.Valid)
    (hpmcs : IsPmcList g pmcs) :
    ∃ c F, solve ks g pmcs = some (c, F) ∧
      ((c, F) = (-1, []) ↔ ¬∃ H, IsListed g pmcs H) ∧
      ((c, F) ≠ (-1, []) → IsBest g pmcs c F) := by
  obtain ⟨c, F, hsolve, hcases⟩ := solve_cases ks hn hg hpmcs
  refine ⟨c, F, hsolve, ?_⟩
  rw [Prod.mk.injEq]
  rcases hcases with ⟨hcost, hfill, hnone⟩ | ⟨hcost, hbest⟩
  · exact ⟨iff_of_true ⟨hcost, hfill⟩ fun ⟨H, hH⟩ => hnone H hH,
      fun hne => absurd (Prod.ext hcost hfill) hne⟩
  · exact ⟨iff_of_false (by omega) (not_not.mpr ⟨_, hbest.isListed⟩), fun _ => hbest⟩

/-- A list on which `IsPmc` answers yes. -/
theorem isPmcList_of_test (hg : g.Valid)
    (h : ∀ pmc ∈ pmcs, pmc.Nodup ∧ g.isPmc pmc = some true) : IsPmcList g pmcs :=
  fun pmc hpmc => ⟨(h pmc hpmc).1,
    isPotentialMaximalClique_of_isPmc hg (h pmc hpmc).1 (h pmc hpmc).2⟩

/-- The path on three vertices. -/
def path : Option (Graph 3) :=
  (Graph.empty 3).addEdges [(0, 1), (1, 2)]

theorem path_spec :
    ∃ g, path = some g ∧ g.Valid ∧ IsPmcList g [[0, 1], [1, 2]] := by
  obtain ⟨g, hadd, h⟩ := addEdges_spec (Graph.valid_empty 3) [(0, 1), (1, 2)]
    (by decide)
  have htest : ∀ pmc ∈ ([[0, 1], [1, 2]] : List (List (Fin 3))),
      pmc.Nodup ∧ path.bind (fun g => g.isPmc pmc) = some true := by decide
  rw [path] at htest
  simp only [hadd, Option.bind_some] at htest
  exact ⟨g, hadd, h.valid, isPmcList_of_test h.valid htest⟩

/-- The path with both of its maximal cliques listed. -/
theorem solve_exact_path :
    ∃ g, path = some g ∧
      ∃ c F, solve KeySort.stable g [[0, 1], [1, 2]] = some (c, F) ∧
        ((c, F) = (-1, []) ↔ ¬∃ H, IsListed g [[0, 1], [1, 2]] H) ∧
        ((c, F) ≠ (-1, []) → IsBest g [[0, 1], [1, 2]] c F) := by
  obtain ⟨g, hg, hvalid, hpmcs⟩ := path_spec
  exact ⟨g, hg, solve_exact KeySort.stable (by decide) hvalid hpmcs⟩

end BtAlgorithm

end Triangulator
