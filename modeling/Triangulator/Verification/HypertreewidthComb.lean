import Triangulator.Verification.CombPmcs
import Triangulator.Verification.HypertreeSolve
import Triangulator.Verification.ReadHyperGraph
import Triangulator.Verification.Setcover

/-!
# The solver on all cliques with a cover filter

The marks of the cliques tell before the size `k + 1` which of them `k` hyperedges cover.
An unmarked clique has no such cover, so a cover that the search finds has `k + 1` sets.
-/

namespace Triangulator

open AbortM SimpleGraph HyperGraph

variable {n k : ℕ} {h : HyperGraph n} {pmcs : List (List (Fin n))}

/-! ## Covers by lists -/

/-- The hyperedges as the `Setcover` object gets them. -/
def setFamily (h : HyperGraph n) : List (List ℕ) :=
  h.edges.map fun e => e.map Fin.val

theorem mem_map_val {l : List (Fin n)} {v : Fin n} : (v : ℕ) ∈ l.map Fin.val ↔ v ∈ l :=
  List.mem_map_of_injective Fin.val_injective

theorem isCovered_iff_isCover {l : List (Fin n)} :
    IsCovered h.edgeSets k (vset l) ↔
      ∃ T, Setcover.IsCover (setFamily h) (l.map Fin.val) T ∧ T.card ≤ k := by
  classical
  constructor
  · rintro ⟨F, hF, hcard, hcover⟩
    have hlist : ∀ e : Set (Fin n), ∃ set : List ℕ, e ∈ F →
        set ∈ setFamily h ∧ ∀ v : Fin n, v ∈ e → (v : ℕ) ∈ set := by
      intro e
      by_cases he : e ∈ F
      · obtain ⟨edge, hedge, rfl⟩ := hF e he
        exact ⟨edge.map Fin.val, fun _ => ⟨List.mem_map_of_mem hedge,
          fun v hv => mem_map_val.mpr hv⟩⟩
      · exact ⟨[], fun hmem => absurd hmem he⟩
    choose o ho using hlist
    refine ⟨F.image o, ⟨?_, ?_⟩, Finset.card_image_le.trans hcard⟩
    · intro set hset
      obtain ⟨e, he, rfl⟩ := Finset.mem_image.mp hset
      exact (ho e he).1
    · intro u hu
      obtain ⟨v, hv, rfl⟩ := List.mem_map.mp hu
      obtain ⟨e, he, hve⟩ := hcover v hv
      exact ⟨o e, Finset.mem_image_of_mem o he, (ho e he).2 v hve⟩
  · rintro ⟨T, ⟨hT, hcover⟩, hcard⟩
    refine ⟨T.image fun set => {v : Fin n | (v : ℕ) ∈ set}, ?_,
      Finset.card_image_le.trans hcard, ?_⟩
    · intro e he
      obtain ⟨set, hset, rfl⟩ := Finset.mem_image.mp he
      obtain ⟨edge, hedge, rfl⟩ := List.mem_map.mp (hT set hset)
      exact ⟨edge, hedge, Set.ext fun v => mem_map_val⟩
    · intro v hv
      obtain ⟨set, hset, hvset⟩ := hcover v (mem_map_val.mpr hv)
      exact ⟨_, Finset.mem_image_of_mem _ hset, hvset⟩

/-! ## One size -/

section Round

variable {sortBy : (ℕ → ℕ) → List ℕ → List ℕ} {s : Setcover} {E : Setcover → Prop}

open Classical in
/-- The mark of a clique after the size `k`. -/
noncomputable def coverMark (h : HyperGraph n) (k : ℕ) (l : List (Fin n)) : Bool :=
  decide (IsCovered h.edgeSets k (vset l))

open Classical in
theorem coverMark_iff {l : List (Fin n)} :
    coverMark h k l = true ↔ IsCovered h.edgeSets k (vset l) := by
  rw [coverMark, decide_eq_true_iff]

/-- The test of one clique keeps it exactly when `k + 1` hyperedges cover it. -/
theorem wp_coverRound (hh : h.Valid) (hc : h.Covering) (hsort : Setcover.IsSort sortBy)
    (hs : Setcover.Neutral (setFamily h) s) {l : List (Fin n)} (hne : l ≠ [])
    (acc : List (List (Fin n)) × List Bool) :
    wp (coverRound sortBy (k + 1) acc (l, coverMark h k l))
      (fun acc' s' => Setcover.Neutral (setFamily h) s' ∧
        acc' = (acc.1 ++ [l].filter (coverMark h (k + 1)), acc.2 ++ [coverMark h (k + 1) l]))
      E s := by
  rw [coverRound]
  apply wp_ite
  · intro hmark
    have hnext : coverMark h (k + 1) l = true :=
      coverMark_iff.mpr ((coverMark_iff.mp hmark).mono (Nat.le_succ k))
    rw [wp_pure]
    refine ⟨hs, ?_⟩
    rw [List.filter_singleton, hnext]
    rfl
  intro hmark
  have hno : ¬IsCovered h.edgeSets k (vset l) := fun hcov => hmark (coverMark_iff.mpr hcov)
  have hfamily : ∀ set ∈ setFamily h, set.Pairwise (· < ·) := by
    intro set hset
    obtain ⟨edge, hedge, rfl⟩ := List.mem_map.mp hset
    exact List.pairwise_map.mpr (hh.sorted edge hedge)
  have hlegal : Setcover.Legal (setFamily h) (l.map Fin.val) ((k + 1 : ℕ) : ℤ) ((k + 1 : ℕ) : ℤ) := by
    refine ⟨fun u hu => ?_, le_rfl⟩
    obtain ⟨v, -, rfl⟩ := List.mem_map.mp hu
    obtain ⟨edge, hedge, hv⟩ := hc v
    exact ⟨_, List.mem_map_of_mem hedge, mem_map_val.mpr hv⟩
  have hne' : l.map Fin.val ≠ [] := fun hnil => hne (List.map_eq_nil_iff.mp hnil)
  rw [wp_bind]
  apply wp_imp (Setcover.wp_solve hs hfamily hsort (Or.inl hlegal))
  rintro r s' ⟨hs', hanswer⟩
  obtain ⟨hans, hnonneg⟩ := hanswer hne'
  by_cases hr : r = [-1]
  · have hmark' : coverMark h (k + 1) l = false := by
      rw [← Bool.not_eq_true, coverMark_iff, isCovered_iff_isCover]
      rintro ⟨T, hT, hcard⟩
      exact hans.eq_iff.mp hr ⟨T, hT, by exact_mod_cast hcard⟩
    subst hr
    dsimp only
    rw [if_neg (not_not.mpr rfl), wp_pure, List.filter_singleton, hmark']
    exact ⟨hs', by rw [cond_false, List.append_nil]⟩
  obtain ⟨T, hT, hcard⟩ := hans.exists_cover hr
  have hlen := hans.length_le hr
  have hmark' : coverMark h (k + 1) l = true := by
    rw [coverMark_iff, isCovered_iff_isCover]
    exact ⟨T, hT, by rw [hcard]; exact_mod_cast hlen⟩
  -- No cover is smaller, since the clique was not marked before.
  have hexact : r.length = k + 1 := by
    apply le_antisymm (by exact_mod_cast hlen)
    by_contra hlt
    exact hno (isCovered_iff_isCover.mpr ⟨T, hT, by omega⟩)
  cases r with
  | nil => exact absurd hexact (Nat.succ_ne_zero k).symm
  | cons x r =>
      have hx : x ≠ -1 := by
        have hpos := hnonneg hr x List.mem_cons_self
        omega
      dsimp only
      rw [if_pos hx, wp_bind]
      apply wp_assert_of (decide_eq_true hexact)
      rw [wp_pure, List.filter_singleton, hmark']
      exact ⟨hs', rfl⟩

/-- The loop over the cliques for one size. -/
theorem wp_coverRounds (hh : h.Valid) (hc : h.Covering) (hsort : Setcover.IsSort sortBy)
    (hs : Setcover.Neutral (setFamily h) s) (hne : ∀ l ∈ pmcs, l ≠ []) :
    wp ((pmcs.zip (pmcs.map (coverMark h k))).foldlM (coverRound sortBy (k + 1)) ([], []))
      (fun r s' => Setcover.Neutral (setFamily h) s' ∧
        r = (pmcs.filter (coverMark h (k + 1)), pmcs.map (coverMark h (k + 1)))) E s := by
  have hzip : pmcs.zip (pmcs.map (coverMark h k)) = pmcs.map fun l => (l, coverMark h k l) := by
    have hmap := List.zip_map' (f := id) (g := coverMark h k) (l := pmcs)
    rwa [List.map_id] at hmap
  rw [hzip, List.foldlM_map]
  apply wp_foldlM (fun pre (acc : List (List (Fin n)) × List Bool) s' =>
    Setcover.Neutral (setFamily h) s' ∧
      acc = (pre.filter (coverMark h (k + 1)), pre.map (coverMark h (k + 1)))) ⟨hs, rfl⟩
  rintro pre l post _ s' hsplit ⟨hs', rfl⟩
  have hmem : l ∈ pmcs := by
    rw [hsplit]
    simp
  apply wp_imp (wp_coverRound hh hc hsort hs' (hne l hmem) _)
  rintro _ s'' ⟨hs'', rfl⟩
  refine ⟨hs'', ?_⟩
  rw [List.filter_append, List.map_append, List.map_singleton]

/-! ## The loop over the sizes -/

/-- The kept cliques. -/
theorem listsCovered_filter {e : CombEnumerator.EnumState n}
    (he : CombEnumerator.EnumInv h.primal Set.univ e) (k : ℕ) :
    ListsCovered h k (e.pmcs.filter (coverMark h k)) := by
  have hmem : ∀ l ∈ e.pmcs.filter (coverMark h k), l ∈ e.pmcs ∧
      IsCovered h.edgeSets k (vset l) := by
    intro l hl
    obtain ⟨hl, hmark⟩ := List.mem_filter.mp hl
    exact ⟨hl, coverMark_iff.mp hmark⟩
  refine ⟨?_, ?_, fun l hl => (hmem l hl).2, ?_⟩
  · exact fun l hl => (he.sorted l (hmem l hl).1).imp ne_of_lt
  · exact fun l hl => he.isPmc_iff.mpr ⟨l, (hmem l hl).1, rfl⟩
  · intro Ω hΩ hcov
    obtain ⟨l, hl, rfl⟩ := he.isPmc_iff.mp hΩ
    exact ⟨l, List.mem_filter.mpr ⟨hl, coverMark_iff.mpr hcov⟩, rfl⟩

/-- The loop is left at the width. -/
theorem wp_hypertreewidthCombLoop (ks : KeySort) (hn : 0 < n) (hh : h.Valid) (hc : h.Covering)
    (hsort : Setcover.IsSort sortBy) {e : CombEnumerator.EnumState n}
    (he : CombEnumerator.EnumInv h.primal Set.univ e) {m : ℕ} (hm : k + m = n)
    (hlt : k < h.ghtw) (hs : Setcover.Neutral (setFamily h) s) :
    wp (hypertreewidthCombLoop ks sortBy h.primal e.pmcs (List.range' (k + 1) m)
        (e.pmcs.map (coverMark h k)))
      (fun r _ => r = some h.ghtw) E s := by
  induction m generalizing k s with
  | zero =>
      have hle := ghtw_le_card hc
      omega
  | succ m ih =>
      have : Nonempty (Fin n) := ⟨⟨0, hn⟩⟩
      have hne : ∀ l ∈ e.pmcs, l ≠ [] := by
        rintro _ hl rfl
        obtain ⟨v, hv⟩ := (he.isPmc_iff.mpr ⟨_, hl, rfl⟩).nonempty
        exact List.not_mem_nil hv
      rw [List.range'_succ, hypertreewidthCombLoop, wp_bind]
      apply wp_imp (wp_coverRounds hh hc hsort hs hne)
      rintro _ s' ⟨hs', rfl⟩
      obtain ⟨solB, hsolve, hiff⟩ := (listsCovered_filter he (k + 1)).solve_iff ks hn hh hc
      dsimp only
      rw [wp_bind, hsolve, wp_ofOption_some]
      by_cases hfound : h.ghtw ≤ k + 1
      · rw [if_pos (hiff.mpr hfound), wp_pure, le_antisymm hfound hlt]
      · rw [if_neg fun hpos => hfound (hiff.mp hpos)]
        exact ih (by omega) (Nat.lt_of_not_le hfound) hs'

end Round

/-- An instance whose primal graph no clique separates is left at its width. -/
theorem hypertreewidthCombInstance_spec (ks : KeySort) {sortBy : (ℕ → ℕ) → List ℕ → List ℕ}
    (hsort : Setcover.IsSort sortBy) (hn : 0 < n) (hh : h.Valid) (hc : h.Covering)
    (hsep : h.primal.toSimple.IsInseparable Set.univ) :
    (hypertreewidthCombInstance ks sortBy h (Setcover.init (setFamily h))).1 =
      some (some h.ghtw) := by
  have hwp : wp (hypertreewidthCombInstance ks sortBy h) (fun r _ => r = some h.ghtw)
      (fun _ => False) (Setcover.init (setFamily h)) := by
    have : Nonempty (Fin n) := ⟨⟨0, hn⟩⟩
    obtain ⟨e, hpmcs, he⟩ := CombEnumerator.pmcs_enumInv hh.primal hn hsep.isConnectedSet
    have hmarks : (e.pmcs.map fun _ => false) = e.pmcs.map (coverMark h 0) := by
      apply List.map_congr_left
      intro l hl
      obtain ⟨v, hv⟩ := (he.isPmc_iff.mpr ⟨l, hl, rfl⟩).nonempty
      symm
      rw [← Bool.not_eq_true, coverMark_iff]
      exact not_isCovered_zero hv
    rw [hypertreewidthCombInstance, wp_bind, hpmcs, wp_ofOption_some, hmarks]
    exact wp_hypertreewidthCombLoop ks hn hh hc hsort he (Nat.zero_add n) (one_le_ghtw hc hn)
      (Setcover.neutral_init _)
  obtain ⟨r, s, hrun, rfl⟩ := exists_of_wp hwp
  exact congrArg Prod.fst hrun

/-! ## The whole run -/

/-- `HypertreewidthComb` fails no assertion and returns the least number of hyperedges that
suffices for the cover of each bag of some tree decomposition.  `Solve` reads `IdOf` of a
component that no covered clique produced as a missing child. -/
theorem hypertreewidthComb_exact (ks : KeySort) {sortBy : (ℕ → ℕ) → List ℕ → List ℕ}
    (hsort : Setcover.IsSort sortBy) {input : List Text}
    (hread : Io.readHyperGraph input = some ⟨n, h⟩) (hn : 0 < n) :
    ∃ N, ∀ fuel ≥ N, ∃ w, hypertreewidthComb ks sortBy fuel h = some w ∧
      IsLeast {k | ∃ D : TreeDecomposition h.edgeSets, ∀ i, ∃ j ≤ k, h.HasCover (D.bag i) j} w := by
  obtain ⟨hh, hc⟩ := Io.readHyperGraph_spec hread
  refine ⟨2, fun fuel hfuel => ⟨h.ghtw, ?_, isLeast_ghtw hc⟩⟩
  obtain ⟨l, hrun, hinst, hghtw⟩ := HypertreewidthPreprocessor.preprocess_instances hh hc hn hfuel
  have hsolve : ∀ inst ∈ l, (hypertreewidthCombInstance ks sortBy inst.2
      (Setcover.init (setFamily inst.2))).1 = some (some inst.2.ghtw) := by
    intro inst hmem
    have hi := hinst inst hmem
    exact hypertreewidthCombInstance_spec ks hsort hi.pos hi.valid hi.covering hi.inseparable
  have hfold := foldlM_instances hsolve 1
  rw [hypertreewidthComb, hrun, Option.bind_eq_bind, Option.bind_some, hghtw]
  exact hfold

theorem hypertreewidthComb_exact_triangle :
    ∃ n h, Io.readHyperGraph triangleLines = some ⟨n, h⟩ ∧ ∃ N, ∀ fuel ≥ N,
      ∃ w, hypertreewidthComb KeySort.stable Setcover.stableSort fuel h = some w ∧
        IsLeast {k | ∃ D : TreeDecomposition h.edgeSets, ∀ i, ∃ j ≤ k, h.HasCover (D.bag i) j}
          w := by
  obtain ⟨n, h, hread, hn⟩ := exists_read_triangle
  exact ⟨n, h, hread, hypertreewidthComb_exact KeySort.stable Setcover.isSort_stableSort hread hn⟩

end Triangulator
