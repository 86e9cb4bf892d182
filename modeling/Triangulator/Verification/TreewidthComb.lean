import Triangulator.Model.Solver
import Triangulator.Verification.BtSolve
import Triangulator.Verification.CombPmcs
import Triangulator.Verification.ReadGraph

/-!
# The solver on all potential maximal cliques

With all potential maximal cliques of an instance listed, `Solve` returns a
triangulation of least width, and the preprocessor maps these triangulations back.
-/

namespace Triangulator

open SimpleGraph

variable {n : ℕ} {g : Graph n}

/-! ## Loops over the instances -/

theorem foldl_max_congr {α β : Type*} {f : α → ℤ} {f' : β → ℤ} {l : List α} {l' : List β}
    (h : List.Forall₂ (fun a b => f a = f' b) l l') (m : ℤ) :
    l.foldl (fun m a => max m (f a)) m = l'.foldl (fun m b => max m (f' b)) m := by
  induction h generalizing m with
  | nil => rfl
  | cons hab _ ih => rw [List.foldl_cons, List.foldl_cons, hab, ih]

theorem mapBack_treewidth {s : PreprocessorState} {sols : List TreewidthSolution}
    {sol : TreewidthSolution} (h : mapBack g s sols = some sol) :
    sol.treewidth = sols.foldl (fun tw sol => max tw sol.treewidth) s.lowerBound := by
  rw [mapBack] at h
  split at h
  · dsimp only at h
    split at h
    · rw [Option.bind_eq_bind, Option.bind_eq_some_iff] at h
      obtain ⟨final, -, h⟩ := h
      rw [Option.bind_eq_bind, Option.bind_eq_some_iff] at h
      obtain ⟨tw, -, h⟩ := h
      split at h
      · rw [Option.some_inj] at h
        rw [← h]
      · cases h
    · cases h
  · cases h

/-- A solution of an instance of least width. -/
def IsOptimal (inst : TreewidthInstance) (sol : TreewidthSolution) : Prop :=
  IsSolution inst sol ∧ sol.treewidth = inst.graph.2.toSimple.treewidth

/-- After `Preprocess(true)` solutions of least width are mapped back to the
treewidth of the graph. -/
theorem exists_mapBack_optimal (hg : g.Valid) (hid : g.HasIdentityMap) :
    ∃ depth s, (∀ fuel, depth ≤ fuel → preprocess fuel g true = some s) ∧
      (∃ I : List (SimpleGraph (Fin n)), List.Forall₂ IsInstance s.instances I) ∧
      ∀ sols, List.Forall₂ IsOptimal s.instances sols →
        ∃ sol, mapBack g s sols = some sol ∧ sol.treewidth = g.toSimple.treewidth := by
  obtain ⟨depth, s₁, s, b, F, I, hrun, -, -, -, h⟩ := preprocess_exists hg hid
  refine ⟨depth, s, fun fuel hfuel => (hrun fuel hfuel).2, ⟨I, h.instances⟩, ?_⟩
  intro sols hsols
  obtain ⟨S, hS⟩ := exists_selects h.instances (hsols.imp fun _ _ hsol => hsol.1)
  obtain ⟨sol, -, hmap, -⟩ := mapBack_of_selects hg h.lowerBound h.fillEdges h.reduction hS
  refine ⟨sol, hmap, ?_⟩
  rw [mapBack_treewidth hmap, h.treewidth_eq]
  have hsame : List.Forall₂ (fun sol inst =>
      TreewidthSolution.treewidth sol = (inst.graph.2.toSimple.treewidth : ℤ)) sols s.instances :=
    (hsols.imp fun _ _ hsol => hsol.2).flip
  exact foldl_max_congr hsame s.lowerBound

/-! ## Solving one graph -/

/-- `Solve` finds a triangulation of least width when the cliques of one are listed. -/
theorem solve_treewidth (ks : KeySort) (hn : 0 < n) (hg : g.Valid)
    {pmcs : List (List (Fin n))} (hpmcs : BtAlgorithm.IsPmcList g pmcs)
    {H : SimpleGraph (Fin n)} (hH : BtAlgorithm.IsListed g pmcs H)
    (hk : H.cliqueNum ≤ g.toSimple.treewidth + 1) :
    ∃ c F, BtAlgorithm.solve ks g pmcs = some (c, F) ∧ c = g.toSimple.treewidth ∧
      g.toSimple.IsFill F ∧ (g.toSimple.addFill F).IsChordal ∧
      c = (g.toSimple.addFill F).treewidth := by
  obtain ⟨c, F, hsolve, hcases⟩ := BtAlgorithm.solve_cases ks hn hg hpmcs
  have hb := (hcases.resolve_left fun hnone => hnone.2.2 H hH).2
  have hchordal := hb.isListed.minimal.chordal
  have : Nonempty (Fin n) := ⟨⟨0, hn⟩⟩
  have hc : c = (g.toSimple.addFill F).treewidth := by
    have hnum := hb.cliqueNum
    rw [hchordal.cliqueNum_eq, Nat.cast_add, Nat.cast_one] at hnum
    exact (add_right_cancel hnum).symm
  refine ⟨c, F, hsolve, ?_, hb.isFill, hchordal, hc⟩
  apply le_antisymm
  · have hkz : (H.cliqueNum : ℤ) ≤ g.toSimple.treewidth + 1 := by exact_mod_cast hk
    exact (hb.least H hH).trans (sub_le_iff_le_add.mpr hkz)
  · rw [hc]
    exact_mod_cast treewidth_mono le_addFill

/-- All potential maximal cliques of a connected graph are listed and solved. -/
theorem treewidthCombInstance_spec (ks : KeySort) {inst : TreewidthInstance}
    (hg : inst.graph.2.Valid) (hn : 0 < inst.graph.1)
    (hconn : inst.graph.2.toSimple.IsConnectedSet Set.univ) :
    ∃ sol, treewidthCombInstance ks inst = some sol ∧ IsOptimal inst sol := by
  obtain ⟨s, hls, hs⟩ := CombEnumerator.pmcs_enumInv hg hn hconn
  have hpmcs : BtAlgorithm.IsPmcList inst.graph.2 s.pmcs := by
    intro l hl
    exact ⟨(hs.sorted l hl).imp ne_of_lt,
      isPotentialMaximalClique_iff.mpr (hs.isPmc_iff.mpr ⟨l, hl, rfl⟩)⟩
  obtain ⟨H, hH, hk⟩ := treewidth_le_iff_minimal.mp (le_refl inst.graph.2.toSimple.treewidth)
  have hlisted : BtAlgorithm.IsListed inst.graph.2 s.pmcs H :=
    ⟨hH, fun Q hQ => hs.isPmc_iff.mp (hH.isPmc hQ)⟩
  obtain ⟨c, F, hsolve, hc, hF, hchordal, hwidth⟩ := solve_treewidth ks hn hg hpmcs hlisted hk
  refine ⟨treewidthSolution (c, F), ?_, ⟨F, rfl, hF, hchordal, hwidth⟩, hc⟩
  rw [treewidthCombInstance, hls, Option.bind_eq_bind, Option.bind_some, hsolve]
  rfl

/-! ## The whole run -/

/-- `TreewidthComb` with preprocessing returns the treewidth. -/
theorem treewidthComb_pp (ks : KeySort) (hg : g.Valid) (hid : g.HasIdentityMap) :
    ∃ depth, ∀ fuel, depth ≤ fuel →
      treewidthComb ks fuel g true = some (g.toSimple.treewidth : ℤ) := by
  obtain ⟨depth, s, hrun, ⟨I, hI⟩, hback⟩ := exists_mapBack_optimal hg hid
  have hinsts : ∀ inst ∈ s.instances, ∃ sol,
      treewidthCombInstance ks inst = some sol ∧ IsOptimal inst sol := by
    intro inst hinst
    obtain ⟨Q, -, hQ⟩ := exists_of_forall₂ hI hinst
    obtain ⟨φ, hφ, -⟩ := hQ.embedding
    exact treewidthCombInstance_spec ks hφ.valid hQ.core.nonempty hQ.core.isConnectedSet
  obtain ⟨sols, hsols, hall⟩ := exists_mapM hinsts
  obtain ⟨sol, hmap, htw⟩ := hback sols hall
  refine ⟨depth, fun fuel hfuel => ?_⟩
  rw [treewidthComb, hrun fuel hfuel, Option.bind_eq_bind, Option.bind_some, hsols,
    Option.bind_eq_bind, Option.bind_some, hmap, Option.bind_eq_bind, Option.bind_some, htw]
  rfl

/-- `TreewidthComb` computes the treewidth of every graph that can be read. -/
theorem treewidthComb_exact (ks : KeySort) {input : List Text}
    (h : Io.readGraph input = some ⟨n, g⟩) :
    ∃ depth, ∀ fuel, depth ≤ fuel →
      treewidthComb ks fuel g true = some (g.toSimple.treewidth : ℤ) :=
  treewidthComb_pp ks (Io.readGraph_spec h).valid (Io.readGraph_spec h).identity

/-- Two separate edges. -/
def twoEdges : List Text :=
  [['p', ' ', 'e', ' ', '4', ' ', '2'], ['e', ' ', '1', ' ', '2'], ['e', ' ', '3', ' ', '4']]

theorem exists_read_twoEdges : ∃ n g, Io.readGraph twoEdges = some ⟨n, g⟩ := by
  have hsome : (Io.readGraph twoEdges).isSome = true := by decide
  obtain ⟨⟨n, g⟩, hg⟩ := Option.isSome_iff_exists.mp hsome
  exact ⟨n, g, hg⟩

/-- The cube. -/
def cubeLines : List Text :=
  ["p e 8 12", "e 1 2", "e 1 3", "e 1 5", "e 2 4", "e 2 6", "e 3 4", "e 3 7", "e 4 8", "e 5 6",
    "e 5 7", "e 6 8", "e 7 8"].map String.toList

theorem exists_read_cube : ∃ n g, Io.readGraph cubeLines = some ⟨n, g⟩ := by
  have hsome : (Io.readGraph cubeLines).isSome = true := by decide +kernel
  obtain ⟨⟨n, g⟩, hg⟩ := Option.isSome_iff_exists.mp hsome
  exact ⟨n, g, hg⟩

theorem treewidthComb_exact_cube :
    ∃ n g, Io.readGraph cubeLines = some ⟨n, g⟩ ∧ ∃ depth, ∀ fuel, depth ≤ fuel →
      treewidthComb KeySort.stable fuel g true = some (g.toSimple.treewidth : ℤ) := by
  obtain ⟨n, g, hg⟩ := exists_read_cube
  exact ⟨n, g, hg, treewidthComb_exact KeySort.stable hg⟩

/-! ## Without preprocessing -/

/-- Without cliques there is no triangulation. -/
theorem BtAlgorithm.solve_nil (ks : KeySort) (g : Graph n) :
    BtAlgorithm.solve ks g [] = some (-1, []) := by
  have hsort : ks.run (tripletSize (initTables n)) (initTables n).triplets = [] :=
    (ks.perm _ _).eq_nil
  rw [BtAlgorithm.solve, run]
  change Option.map _ (Option.bind (some (initTables n)) _) = _
  rw [Option.bind_some, hsort]
  rfl

/-- The instance of the whole graph. -/
def wholeInstance (g : Graph n) : TreewidthInstance where
  graph := ⟨n, g⟩
  upperBound := 1000000000
  upperBoundFill := []

/-- The members after `Preprocess(false)`. -/
def wholeState (g : Graph n) : PreprocessorState where
  instances := [wholeInstance g]
  fillEdges := []
  lowerBound := 0

theorem preprocess_false (fuel : ℕ) (g : Graph n) :
    preprocess fuel g false = some (wholeState g) := rfl

/-- Without preprocessing the vertices keep their numbers. -/
theorem mapBack_whole (hg : g.Valid) (hid : g.HasIdentityMap) {sol : TreewidthSolution}
    {F : List (Fin n × Fin n)} (hsol : sol.fillEdges = edgeNumbers F)
    (hF : g.toSimple.IsFill F) (hchordal : (g.toSimple.addFill F).IsChordal)
    (htw : max 0 sol.treewidth = (g.toSimple.addFill F).treewidth) :
    ∃ sol', mapBack g (wholeState g) [sol] = some sol' ∧
      sol'.treewidth = max 0 sol.treewidth := by
  have hback : mapBackEdges ⟨n, g⟩ (edgeNumbers F) = edgeNumbers F := by
    rw [(hid.embeds hg).mapBackEdges_eq, embedEdges]
    exact congrArg edgeNumbers (List.map_id F)
  have hcombined : ((wholeState g).instances.zip [sol]).foldl
      (fun fill p => fill ++ mapBackEdges p.1.graph p.2.fillEdges) (wholeState g).fillEdges =
        edgeNumbers F := by
    rw [← hback, ← hsol]
    rfl
  obtain ⟨sol', F', hmap, -⟩ := mapBack_of_fill hg rfl hcombined hF hchordal htw
  exact ⟨sol', hmap, mapBack_treewidth hmap⟩

theorem mapBack_whole_optimal (hg : g.Valid) (hid : g.HasIdentityMap) {sol : TreewidthSolution}
    (hsol : IsOptimal (wholeInstance g) sol) :
    ∃ sol', mapBack g (wholeState g) [sol] = some sol' ∧
      sol'.treewidth = g.toSimple.treewidth := by
  obtain ⟨⟨F, hfill, hF, hchordal, hwidth⟩, htw⟩ := hsol
  have htw' : sol.treewidth = g.toSimple.treewidth := htw
  have hmax : max 0 sol.treewidth = sol.treewidth := by
    rw [htw']
    exact max_eq_right (Int.natCast_nonneg _)
  obtain ⟨sol', hmap, heq⟩ := mapBack_whole hg hid hfill hF hchordal (hmax.trans hwidth)
  exact ⟨sol', hmap, heq.trans (hmax.trans htw')⟩

theorem treewidth_of_isEmpty {V : Type*} [IsEmpty V] [Finite V] (G : SimpleGraph V) :
    G.treewidth = 0 := by
  cases nonempty_fintype V
  apply Nat.le_zero.mp
  apply (isTriangulation_top G).treewidth_le
  obtain ⟨s, hs⟩ := (⊤ : SimpleGraph V).exists_isNClique_cliqueNum
  rw [← hs.card_eq, Finset.eq_empty_of_isEmpty s, Finset.card_empty]
  exact Nat.zero_le _

/-- On a connected graph the enumeration does not need the preprocessing. -/
theorem treewidthComb_whole (ks : KeySort) (hg : g.Valid) (hid : g.HasIdentityMap)
    (hconn : g.toSimple.IsConnectedSet Set.univ) (fuel : ℕ) :
    treewidthComb ks fuel g false = some (g.toSimple.treewidth : ℤ) := by
  have hsome : ∃ sol, treewidthCombInstance ks (wholeInstance g) = some sol ∧
      ∃ sol', mapBack g (wholeState g) [sol] = some sol' ∧
        sol'.treewidth = g.toSimple.treewidth := by
    rcases Nat.eq_zero_or_pos n with rfl | hn
    · have hchordal : (g.toSimple.addFill []).IsChordal := by
        have htop : g.toSimple.addFill [] = ⊤ := by
          ext u
          exact u.elim0
        exact htop ▸ isChordal_top
      have hwidth : (g.toSimple.addFill []).treewidth = 0 := treewidth_of_isEmpty _
      have hfill : (treewidthSolution ((-1, []) : ℤ × List (Fin 0 × Fin 0))).fillEdges =
          edgeNumbers ([] : List (Fin 0 × Fin 0)) := rfl
      obtain ⟨sol', hmap, heq⟩ :=
        mapBack_whole hg hid hfill isFill_nil hchordal (by rw [hwidth]; rfl)
      refine ⟨treewidthSolution (-1, []), ?_, sol', hmap, ?_⟩
      · have hpmcs : CombEnumerator.pmcs g = some [] := rfl
        rw [treewidthCombInstance, wholeInstance]
        dsimp only
        rw [hpmcs, Option.bind_eq_bind, Option.bind_some, BtAlgorithm.solve_nil]
        rfl
      rw [heq, treewidth_of_isEmpty]
      rfl
    · have hspec : ∃ sol, treewidthCombInstance ks (wholeInstance g) = some sol ∧
          IsOptimal (wholeInstance g) sol := treewidthCombInstance_spec ks hg hn hconn
      obtain ⟨sol, hrun, hsol⟩ := hspec
      exact ⟨sol, hrun, mapBack_whole_optimal hg hid hsol⟩
  obtain ⟨sol, hrun, sol', hmap, htw⟩ := hsome
  have hruns : (wholeState g).instances.mapM (treewidthCombInstance ks) = some [sol] := by
    rw [wholeState, List.mapM_cons, hrun]
    rfl
  rw [treewidthComb, preprocess_false, Option.bind_eq_bind, Option.bind_some, hruns,
    Option.bind_eq_bind, Option.bind_some, hmap, Option.bind_eq_bind, Option.bind_some, htw]
  rfl

/-- On any other graph it fails an assertion. -/
theorem treewidthComb_disconnected (ks : KeySort) (hn : 0 < n)
    (h : g.isConnectedOrIsolated = false) (fuel : ℕ) :
    treewidthComb ks fuel g false = none := by
  have hpmcs : CombEnumerator.pmcs g = none := by
    rw [CombEnumerator.pmcs, if_neg hn.ne', if_neg (Bool.eq_false_iff.mp h)]
  have hrun : treewidthCombInstance ks (wholeInstance g) = none := by
    rw [treewidthCombInstance, wholeInstance]
    dsimp only
    rw [hpmcs]
    rfl
  have hruns : (wholeState g).instances.mapM (treewidthCombInstance ks) = none := by
    rw [wholeState, List.mapM_cons, hrun]
    rfl
  rw [treewidthComb, preprocess_false, Option.bind_eq_bind, Option.bind_some, hruns]
  rfl

/-- `TreewidthComb` agrees with and without preprocessing exactly on the connected
graphs. -/
theorem treewidthComb_agrees_iff (ks : KeySort) {input : List Text}
    (h : Io.readGraph input = some ⟨n, g⟩) :
    (∃ depth, ∀ fuel, depth ≤ fuel → ∃ c, treewidthComb ks fuel g false = some c ∧
      treewidthComb ks fuel g true = some c) ↔ g.toSimple.IsConnectedSet Set.univ := by
  have hread := Io.readGraph_spec h
  constructor
  · rintro ⟨depth, hrun⟩
    obtain ⟨c, hc, -⟩ := hrun depth le_rfl
    rcases Nat.eq_zero_or_pos n with rfl | hn
    · exact fun u => u.elim0
    · apply isConnectedSet_of_isConnectedOrIsolated hread.valid hread.support
      by_contra hdis
      rw [treewidthComb_disconnected ks hn (Bool.eq_false_iff.mpr hdis) depth] at hc
      cases hc
  · intro hconn
    obtain ⟨depth, hpp⟩ := treewidthComb_pp ks hread.valid hread.identity
    refine ⟨depth, fun fuel hfuel => ⟨g.toSimple.treewidth, ?_, hpp fuel hfuel⟩⟩
    exact treewidthComb_whole ks hread.valid hread.identity hconn fuel

theorem treewidthComb_agrees_iff_twoEdges :
    ∃ n g, Io.readGraph twoEdges = some ⟨n, g⟩ ∧
      ((∃ depth, ∀ fuel, depth ≤ fuel → ∃ c, treewidthComb KeySort.stable fuel g false = some c ∧
        treewidthComb KeySort.stable fuel g true = some c) ↔
          g.toSimple.IsConnectedSet Set.univ) := by
  obtain ⟨n, g, hg⟩ := exists_read_twoEdges
  exact ⟨n, g, hg, treewidthComb_agrees_iff KeySort.stable hg⟩

/-- Two separate edges are only solved with preprocessing. -/
theorem treewidthComb_fails_twoEdges :
    ∃ n g, Io.readGraph twoEdges = some ⟨n, g⟩ ∧
      (∀ fuel, treewidthComb KeySort.stable fuel g false = none) ∧
      ∃ c depth, ∀ fuel, depth ≤ fuel → treewidthComb KeySort.stable fuel g true = some c := by
  obtain ⟨n, g, hg⟩ := exists_read_twoEdges
  have hdis : (Io.readGraph twoEdges).map (fun g => g.2.isConnectedOrIsolated) =
      some false := by decide
  have hsize : (Io.readGraph twoEdges).map Sigma.fst = some 4 := by decide
  rw [hg, Option.map_some, Option.some_inj] at hdis hsize
  have hn : 0 < n := by
    rw [show n = 4 from hsize]
    exact Nat.zero_lt_succ 3
  have hread := Io.readGraph_spec hg
  obtain ⟨depth, hpp⟩ := treewidthComb_pp KeySort.stable hread.valid hread.identity
  exact ⟨n, g, hg, treewidthComb_disconnected KeySort.stable hn hdis, _, depth, hpp⟩

end Triangulator
