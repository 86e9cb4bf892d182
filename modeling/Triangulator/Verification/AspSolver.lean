import Triangulator.Model.AspSolver
import Triangulator.Verification.AspAnswers
import Triangulator.Verification.HypertreewidthSat
import Triangulator.Verification.TreewidthSat

/-!
# The solvers on the answer sets

For the treewidth every size gives the cliques of that size, for the generalized hypertree
width all cliques that so many hyperedges cover.  So one loop collects the lists and the
other does not, and both end at the width.
-/

namespace Triangulator

open SimpleGraph AnswerSet AspEnumerator HyperGraph

/-! ## The program `clingo` -/

/-- `clingo` prints the answer sets of every instance. -/
structure PrintsInstances (clingo : Set (Statement Atom) → List (List Char)) : Prop where
  treewidth : ∀ {n : ℕ} (g : Graph n) (size : ℕ), g.Valid →
    PrintsAnswers (program TreewidthRule (treewidthFacts g size))
      (clingo (program TreewidthRule (treewidthFacts g size)))
  hypertreewidth : ∀ {n : ℕ} (h : HyperGraph n) (size : ℕ), h.Valid →
    PrintsAnswers (program HypertreewidthRule (hypertreewidthFacts h size))
      (clingo (program HypertreewidthRule (hypertreewidthFacts h size)))

section Clingo

variable {n : ℕ} {P : Set (Statement Atom)}

/-- Finitely many answer sets with finitely many shown atoms can be printed. -/
theorem exists_printsAnswers (hP : {I | IsAnswerSet P I}.Finite)
    (hshown : ∀ I, IsAnswerSet P I → {x | Atom.pmc x ∈ I}.Finite) :
    ∃ lines, PrintsAnswers P lines := by
  have hprinted : ∀ models : List (Set Atom), (∀ I ∈ models, IsAnswerSet P I) →
      ∃ lines, Printed models lines := by
    intro models hmodels
    induction models with
    | nil => exact ⟨[], .nil⟩
    | cons I models ih =>
        obtain ⟨lines, hlines⟩ := ih fun J hJ => hmodels J (List.mem_cons_of_mem I hJ)
        have hfin := hshown I (hmodels I List.mem_cons_self)
        refine ⟨_, .answer ['1'] hfin.toFinset.toList (by simp) (Finset.nodup_toList _) ?_ hlines⟩
        intro x
        rw [Finset.mem_toList, Set.Finite.mem_toFinset]
        exact Iff.rfl
  obtain ⟨lines, hlines⟩ := hprinted hP.toFinset.toList fun I hI =>
    hP.mem_toFinset.mp (Finset.mem_toList.mp hI)
  refine ⟨lines, _, Finset.nodup_toList _, fun I => ?_, hlines⟩
  rw [Finset.mem_toList, Set.Finite.mem_toFinset]
  exact Iff.rfl

/-- The numbers of the guessed vertices. -/
theorem finite_at (S : Set (Fin n)) : {x | At S x}.Finite := by
  apply (Set.toFinite (S.image fun u : Fin n => (u : ℕ) + 1)).subset
  rintro x ⟨u, hu, rfl⟩
  exact ⟨u, hu, rfl⟩

open Classical in
/-- A program that prints the answer sets whenever they can be printed. -/
noncomputable def clingoChoice (P : Set (Statement Atom)) : List (List Char) :=
  if h : ∃ lines, PrintsAnswers P lines then h.choose else []

theorem printsAnswers_clingoChoice (h : ∃ lines, PrintsAnswers P lines) :
    PrintsAnswers P (clingoChoice P) := by
  rw [clingoChoice, dif_pos h]
  exact h.choose_spec

theorem printsInstances_clingoChoice : PrintsInstances clingoChoice where
  treewidth g size hg := by
    apply printsAnswers_clingoChoice
    apply exists_printsAnswers
    · apply (Set.toFinite (Set.range (treewidthModel g size))).subset
      intro I hI
      obtain ⟨S, rfl, -⟩ := (isAnswerSet_treewidth_iff hg).mp hI
      exact ⟨S, rfl⟩
    · intro I hI
      obtain ⟨S, rfl, -⟩ := (isAnswerSet_treewidth_iff hg).mp hI
      exact finite_at S
  hypertreewidth h size hh := by
    apply printsAnswers_clingoChoice
    apply exists_printsAnswers
    · apply (Set.toFinite (Set.range fun p : Set _ × Set _ =>
        hypertreewidthModel h size p.1 p.2)).subset
      intro I hI
      obtain ⟨S, T, rfl, -⟩ := (isAnswerSet_hypertreewidth_iff hh).mp hI
      exact ⟨(S, T), rfl⟩
    · intro I hI
      obtain ⟨S, T, rfl, -⟩ := (isAnswerSet_hypertreewidth_iff hh).mp hI
      exact finite_at S

end Clingo

/-! ## The lists that are read -/

section Lists

variable {clingo : Set (Statement Atom) → List (List Char)} {n k : ℕ} {g : Graph n}
  {h : HyperGraph n}

theorem nonempty_guessed {S : Set (Fin n)} (hS : g.toSimple.IsPmc S) (hn : 0 < n) :
    S.Nonempty ∧ ∀ x, At S x → At (Set.univ : Set (Fin n)) x := by
  have : Nonempty (Fin n) := ⟨⟨0, hn⟩⟩
  refine ⟨hS.nonempty, ?_⟩
  rintro x ⟨u, -, rfl⟩
  exact ⟨u, trivial, rfl⟩

theorem treewidthPmcs_lists (hclingo : PrintsInstances clingo) (hg : g.Valid) (hn : 0 < n) :
    ∃ ls, treewidthPmcs clingo g k = some ls ∧ (∀ l ∈ ls, l.Nodup) ∧
      ∀ Ω, (g.toSimple.IsPmc Ω ∧ Ω.ncard = k) ↔ ∃ l ∈ ls, vset l = Ω := by
  obtain ⟨ls, hls, hnodup, hmem, -⟩ := readAnswers_spec (hclingo.treewidth g k hg) fun I hI => by
    obtain ⟨S, rfl, hS, -⟩ := (isAnswerSet_treewidth_iff hg).mp hI
    rw [guessed_treewidthModel]
    exact nonempty_guessed hS hn
  refine ⟨ls, hls, hnodup, fun Ω => ?_⟩
  simp only [hmem, isAnswerSet_treewidth_iff hg]
  constructor
  · intro hΩ
    exact ⟨_, ⟨Ω, rfl, hΩ⟩, guessed_treewidthModel Ω⟩
  · rintro ⟨-, ⟨S, rfl, hS⟩, rfl⟩
    rw [guessed_treewidthModel]
    exact hS

theorem hypertreewidthPmcs_lists (hclingo : PrintsInstances clingo) (hh : h.Valid) (hn : 0 < n)
    (hk : k ≤ h.m) :
    ∃ ls, hypertreewidthPmcs clingo h k = some ls ∧ ListsCovered h k ls := by
  obtain ⟨ls, hls, hnodup, hmem, -⟩ :=
    readAnswers_spec (hclingo.hypertreewidth h k hh) fun I hI => by
      obtain ⟨S, T, rfl, hS, -⟩ := (isAnswerSet_hypertreewidth_iff hh).mp hI
      rw [guessed_hypertreewidthModel]
      exact nonempty_guessed hS hn
  refine ⟨sortAndDedup (ls.map sort), ?_, ?_⟩
  · rw [hypertreewidthPmcs, hls]
    rfl
  have hread : ∀ l ∈ sortAndDedup (ls.map sort), l.Nodup ∧ h.primal.toSimple.IsPmc (vset l) ∧
      IsCovered h.edgeSets k (vset l) := by
    intro l hl
    rw [mem_sortAndDedup, List.mem_map] at hl
    obtain ⟨l, hl, rfl⟩ := hl
    obtain ⟨I, hI, hguess⟩ := (hmem (vset l)).mp ⟨l, hl, rfl⟩
    obtain ⟨S, T, rfl, hS, hT, hcover⟩ := (isAnswerSet_hypertreewidth_iff hh).mp hI
    rw [guessed_hypertreewidthModel] at hguess
    subst hguess
    rw [vset_sort]
    refine ⟨(sort_sortedLT (hnodup l hl)).nodup, hS, isCovered_iff.mpr ⟨k, le_rfl,
      (Set.toFinite T).toFinset, ?_, fun v hv => ?_⟩⟩
    · rw [← Set.ncard_eq_toFinset_card T, hT]
    · obtain ⟨j, hj, hvj⟩ := hcover v hv
      exact ⟨j, (Set.Finite.mem_toFinset _).mpr hj, hvj⟩
  refine ⟨fun l hl => (hread l hl).1, fun l hl => (hread l hl).2.1,
    fun l hl => (hread l hl).2.2, ?_⟩
  intro Ω hΩ hcov
  obtain ⟨j, hj, hcover⟩ := isCovered_iff.mp hcov
  obtain ⟨J, hJ, hcover⟩ := hasCover_of_le hcover hj hk
  have hI : IsAnswerSet (program HypertreewidthRule (hypertreewidthFacts h k)) _ :=
    (isAnswerSet_hypertreewidth_iff hh).mpr ⟨Ω, (J : Set _), rfl, hΩ, by
      rw [Set.ncard_coe_finset, hJ], hcover⟩
  obtain ⟨l, hl, rfl⟩ := (hmem Ω).mpr ⟨_, hI, guessed_hypertreewidthModel Ω _⟩
  exact ⟨sort l, by rw [mem_sortAndDedup]; exact List.mem_map_of_mem hl, vset_sort l⟩

end Lists

/-! ## `TreewidthAsp` -/

section Treewidth

variable {ks : KeySort} {clingo : Set (Statement Atom) → List (List Char)} {n k m : ℕ}
  {g : Graph n} {apmcs : List (List (Fin n))}

/-- The loop ends at the first size above the treewidth. -/
theorem treewidthAspLoop_spec (hclingo : PrintsInstances clingo) (hg : g.Valid) (hn : 0 < n)
    (hm : k + m = n) (hsmall : ListsSmall g k apmcs) (hk : k ≤ g.toSimple.treewidth) :
    ∃ sol, treewidthAspLoop ks clingo g (List.range' (k + 1) m) apmcs = some (some sol) ∧
      IsOptimal (wholeInstance g) sol := by
  have : Nonempty (Fin n) := ⟨⟨0, hn⟩⟩
  induction m generalizing k apmcs with
  | zero =>
      have hlt := treewidth_lt_card g.toSimple
      rw [Nat.card_fin] at hlt
      omega
  | succ m ih =>
      obtain ⟨ls, hls, hnodup, hmem⟩ := treewidthPmcs_lists (k := k + 1) hclingo hg hn
      have hnext := hsmall.append_of_mem hnodup hmem
      have hall : (ls.all fun pmc => decide (pmc.length = k + 1)) = true :=
        List.all_eq_true.mpr fun l hl => decide_eq_true (length_of_mem hnodup hmem l hl)
      rw [List.range'_succ, treewidthAspLoop, hls, Option.bind_eq_bind, Option.bind_some,
        if_pos hall]
      dsimp only
      rcases Nat.lt_or_eq_of_le hk with hlt | heq
      · have hneg : ¬(0 : ℤ) ≤ (treewidthSolution (n := n) (-1, [])).treewidth :=
          Int.negSucc_not_nonneg 0 |>.mp
        rw [hnext.solve_of_lt ks hn hg hlt, Option.bind_eq_bind, Option.bind_some, if_neg hneg]
        exact ih (by omega) hnext hlt
      · obtain ⟨solB, hsolve, hsol⟩ := hnext.solve_of_le ks hn hg (Nat.succ_le_succ heq.ge)
        have htw : (treewidthSolution solB).treewidth = (k : ℤ) := by
          rw [heq]
          exact hsol.2
        rw [hsolve, Option.bind_eq_bind, Option.bind_some,
          if_pos (htw ▸ Int.natCast_nonneg k), if_pos (by rw [htw]; simp)]
        exact ⟨_, rfl, hsol⟩

theorem treewidthAspLoop_solves (ks : KeySort) (hclingo : PrintsInstances clingo) (hg : g.Valid)
    (hn : 0 < n) :
    ∃ sol, treewidthAspLoop ks clingo g (List.range' 1 n) [] = some (some sol) ∧
      IsOptimal (wholeInstance g) sol :=
  treewidthAspLoop_spec hclingo hg hn (Nat.zero_add n) (ListsSmall.zero hn g) (Nat.zero_le _)

/-- With preprocessing the treewidth is returned. -/
theorem treewidthAsp_pp (ks : KeySort) (hclingo : PrintsInstances clingo) (hg : g.Valid)
    (hid : g.HasIdentityMap) :
    ∃ depth, ∀ fuel, depth ≤ fuel →
      treewidthAsp ks clingo fuel g true = some (g.toSimple.treewidth : ℤ) := by
  obtain ⟨depth, s, hrun, ⟨I, hI⟩, hback⟩ := exists_mapBack_optimal hg hid
  have hinsts : ∀ inst ∈ s.instances, ∃ o,
      treewidthAspLoop ks clingo inst.graph.2 (List.range' 1 inst.graph.1) [] = some o ∧
        ∃ sol, o = some sol ∧ IsOptimal inst sol := by
    intro inst hinst
    obtain ⟨Q, -, hQ⟩ := exists_of_forall₂ hI hinst
    obtain ⟨φ, hφ, -⟩ := hQ.embedding
    obtain ⟨sol, hsol, hopt⟩ := treewidthAspLoop_solves ks hclingo hφ.valid hQ.core.nonempty
    exact ⟨some sol, hsol, sol, rfl, hopt⟩
  obtain ⟨os, hos, hall⟩ := exists_mapM hinsts
  obtain ⟨sol, hmap, htw⟩ := hback _ (exists_reduceOption hall)
  refine ⟨depth, fun fuel hfuel => ?_⟩
  rw [treewidthAsp, hrun fuel hfuel, Option.bind_eq_bind, Option.bind_some, hos,
    Option.bind_eq_bind, Option.bind_some, hmap, Option.bind_eq_bind, Option.bind_some, htw]
  rfl

/-- Without it too, when there are vertices. -/
theorem treewidthAsp_whole (ks : KeySort) (hclingo : PrintsInstances clingo) (hg : g.Valid)
    (hid : g.HasIdentityMap) (hn : 0 < n) (fuel : ℕ) :
    treewidthAsp ks clingo fuel g false = some (g.toSimple.treewidth : ℤ) := by
  obtain ⟨sol, hrun, hsol⟩ := treewidthAspLoop_solves ks hclingo hg hn
  obtain ⟨sol', hmap, htw⟩ := mapBack_whole_optimal hg hid hsol
  have hruns : ((wholeState g).instances.mapM fun inst =>
      treewidthAspLoop ks clingo inst.graph.2 (List.range' 1 inst.graph.1) []) =
        some [some sol] := by
    rw [wholeState, List.mapM_cons, wholeInstance, hrun]
    rfl
  have hsols : [some sol].reduceOption = [sol] := rfl
  rw [treewidthAsp, preprocess_false, Option.bind_eq_bind, Option.bind_some, hruns,
    Option.bind_eq_bind, Option.bind_some, hsols, hmap, Option.bind_eq_bind, Option.bind_some, htw]
  rfl

/-- No solution is pushed for a graph without vertices, and `MapBack` fails. -/
theorem treewidthAsp_empty (ks : KeySort) (clingo : Set (Statement Atom) → List (List Char))
    (g : Graph 0) (fuel : ℕ) : treewidthAsp ks clingo fuel g false = none := rfl

/-- `TreewidthAsp` returns the treewidth of every graph that can be read, without
preprocessing of every such graph with vertices.  `Solve` reads `IdOf` of a component that no
clique so far produced as a missing child. -/
theorem treewidthAsp_exact (ks : KeySort) (hclingo : PrintsInstances clingo)
    {input : List Text} (h : Io.readGraph input = some ⟨n, g⟩) :
    (∃ depth, ∀ fuel, depth ≤ fuel →
      treewidthAsp ks clingo fuel g true = some (g.toSimple.treewidth : ℤ)) ∧
    ∀ fuel, treewidthAsp ks clingo fuel g false =
      if n = 0 then none else some (g.toSimple.treewidth : ℤ) := by
  have hread := Io.readGraph_spec h
  refine ⟨treewidthAsp_pp ks hclingo hread.valid hread.identity, fun fuel => ?_⟩
  rcases Nat.eq_zero_or_pos n with rfl | hn
  · rw [if_pos rfl]
    exact treewidthAsp_empty ks clingo g fuel
  · rw [if_neg hn.ne']
    exact treewidthAsp_whole ks hclingo hread.valid hread.identity hn fuel

theorem treewidthAsp_exact_cube :
    ∃ n g, Io.readGraph cubeLines = some ⟨n, g⟩ ∧
      (∃ depth, ∀ fuel, depth ≤ fuel →
        treewidthAsp KeySort.stable clingoChoice fuel g true = some (g.toSimple.treewidth : ℤ)) ∧
      ∀ fuel, treewidthAsp KeySort.stable clingoChoice fuel g false =
        if n = 0 then none else some (g.toSimple.treewidth : ℤ) := by
  obtain ⟨n, g, hg⟩ := exists_read_cube
  exact ⟨n, g, hg, treewidthAsp_exact KeySort.stable printsInstances_clingoChoice hg⟩

end Treewidth

/-! ## `HypertreewidthAsp` -/

section Hypertreewidth

variable {ks : KeySort} {clingo : Set (Statement Atom) → List (List Char)} {n k m : ℕ}
  {h : HyperGraph n}

/-- The loop ends at the width. -/
theorem hypertreewidthAspLoop_spec (hclingo : PrintsInstances clingo) (hh : h.Valid)
    (hc : h.Covering) (hn : 0 < n) (hlt : h.ghtw < h.m) (hm : k + m = n) (hk : k < h.ghtw) :
    hypertreewidthAspLoop ks clingo h (List.range' (k + 1) m) = some (some h.ghtw) := by
  induction m generalizing k with
  | zero =>
      have hle := ghtw_le_card hc
      omega
  | succ m ih =>
      obtain ⟨ls, hls, hcov⟩ :=
        hypertreewidthPmcs_lists (k := k + 1) hclingo hh hn (Nat.le_of_lt (by omega))
      obtain ⟨solB, hsolve, hiff⟩ := hcov.solve_iff ks hn hh hc
      rw [List.range'_succ, hypertreewidthAspLoop, hls, Option.bind_eq_bind, Option.bind_some,
        hsolve, Option.bind_eq_bind, Option.bind_some]
      by_cases hfound : h.ghtw ≤ k + 1
      · rw [if_pos (hiff.mpr hfound), le_antisymm hfound hk]
      · rw [if_neg fun hpos => hfound (hiff.mp hpos)]
        exact ih (by omega) (Nat.lt_of_not_le hfound)

/-- `HypertreewidthAsp` returns the least number of hyperedges that suffices for the cover
of each bag of some tree decomposition.  `Solve` reads `IdOf` of a component that no clique
so far produced as a missing child. -/
theorem hypertreewidthAsp_exact (ks : KeySort) (hclingo : PrintsInstances clingo)
    {input : List Text} (hread : Io.readHyperGraph input = some ⟨n, h⟩) (hn : 0 < n) {fuel : ℕ}
    (hfuel : 2 ≤ fuel) :
    ∃ w, hypertreewidthAsp ks clingo fuel h = some w ∧
      IsLeast {k | ∃ D : TreeDecomposition h.edgeSets, ∀ i, ∃ j ≤ k, h.HasCover (D.bag i) j}
        w := by
  obtain ⟨hh, hc⟩ := Io.readHyperGraph_spec hread
  obtain ⟨l, hrun, hinst, hghtw⟩ :=
    HypertreewidthPreprocessor.preprocess_instances hh hc hn hfuel
  have hsolve : ∀ inst ∈ l, hypertreewidthAspLoop ks clingo inst.2 (List.range' 1 inst.1) =
      some (some inst.2.ghtw) := by
    intro inst hmem
    have hi := hinst inst hmem
    exact hypertreewidthAspLoop_spec hclingo hi.valid hi.covering hi.pos
      (ghtw_lt_m hi.valid hi.covering hi.two_le hi.inseparable) (Nat.zero_add _)
      (one_le_ghtw hi.covering hi.pos)
  refine ⟨h.ghtw, ?_, isLeast_ghtw hc⟩
  rw [hypertreewidthAsp, hrun, Option.bind_eq_bind, Option.bind_some, foldlM_instances hsolve,
    hghtw]

theorem hypertreewidthAsp_exact_triangle :
    ∃ n h, Io.readHyperGraph triangleLines = some ⟨n, h⟩ ∧
      ∃ w, hypertreewidthAsp KeySort.stable clingoChoice 2 h = some w ∧
        IsLeast {k | ∃ D : TreeDecomposition h.edgeSets, ∀ i, ∃ j ≤ k, h.HasCover (D.bag i) j}
          w := by
  obtain ⟨n, h, hread, hn⟩ := exists_read_triangle
  exact ⟨n, h, hread,
    hypertreewidthAsp_exact KeySort.stable printsInstances_clingoChoice hread hn le_rfl⟩

end Hypertreewidth

end Triangulator
