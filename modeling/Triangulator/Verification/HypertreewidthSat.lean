import Triangulator.Verification.FixedSizeHyper
import Triangulator.Verification.HypertreeSolve
import Triangulator.Verification.ReadHyperGraph

/-!
# The solver on the cliques of growing cover number

The loop over the sizes ends at the generalized hypertree width of the instance.  No clique
separates an instance, so this width is smaller than the number of hyperedges and the
totalizer is always large enough.
-/

namespace Triangulator

open AbortM SimpleGraph SizedEnumerator Enumerator HyperGraph

variable {n k : ℕ} {h : HyperGraph n} {apmcs ls : List (List (Fin n))}

/-! ## The list of the coverable cliques -/

namespace ListsCovered

theorem zero (hn : 0 < n) (h : HyperGraph n) : ListsCovered h 0 [] := by
  have : Nonempty (Fin n) := ⟨⟨0, hn⟩⟩
  refine ⟨by simp, by simp, by simp, fun Ω hΩ hcov => ?_⟩
  obtain ⟨v, hv⟩ := hΩ.nonempty
  exact absurd hcov (not_isCovered_zero hv)

/-- The cliques of the next cover number. -/
theorem append (hl : ListsCovered h k apmcs)
    (hls : Lists {Ω | h.primal.toSimple.IsPmc Ω ∧ IsLeast {j | h.HasCover Ω j} (k + 1)} ls) :
    ListsCovered h (k + 1) (apmcs ++ ls) := by
  have hmem : ∀ l ∈ ls, h.primal.toSimple.IsPmc (vset l) ∧
      IsLeast {j | h.HasCover (vset l) j} (k + 1) := fun l hl => (hls.mem_iff _).mpr ⟨l, hl, rfl⟩
  refine ⟨?_, ?_, ?_, ?_⟩
  · intro l hl'
    rcases List.mem_append.mp hl' with hl' | hl'
    · exact hl.nodup l hl'
    · exact (hls.sorted l hl').imp ne_of_lt
  · intro l hl'
    rcases List.mem_append.mp hl' with hl' | hl'
    · exact hl.isPmc l hl'
    · exact (hmem l hl').1
  · intro l hl'
    rcases List.mem_append.mp hl' with hl' | hl'
    · exact (hl.covered l hl').mono (Nat.le_succ k)
    · exact isCovered_iff.mpr ⟨k + 1, le_rfl, (hmem l hl').2.1⟩
  · intro Ω hΩ hcov
    by_cases hk : IsCovered h.edgeSets k Ω
    · obtain ⟨l, hl', heq⟩ := hl.complete Ω hΩ hk
      exact ⟨l, List.mem_append_left ls hl', heq⟩
    · have hno : ∀ j ≤ k, ¬h.HasCover Ω j := fun j hj hcover =>
        hk (isCovered_iff.mpr ⟨j, hj, hcover⟩)
      obtain ⟨j, hj, hcover⟩ := isCovered_iff.mp hcov
      have hjk : j = k + 1 := by
        by_contra hne
        exact hno j (by omega) hcover
      have hleast : IsLeast {j | h.HasCover Ω j} (k + 1) := by
        refine ⟨hjk ▸ hcover, fun i hi => ?_⟩
        by_contra hlt
        exact hno i (by omega) hi
      obtain ⟨l, hl', heq⟩ := (hls.mem_iff Ω).mp ⟨hΩ, hleast⟩
      exact ⟨l, List.mem_append_right apmcs hl', heq⟩

end ListsCovered

/-! ## The loop over the sizes -/

section Loop

variable {ks : KeySort} {solver : Solver} {sh : Shuffle} {fuel m : ℕ} {input : List Lit}
  {e : SizedEnumerator n} {t : Trace} {E : Trace → Prop} {minsepEncoding cardEncoding : ℕ}

/-- The state before the size `k + 1` is tried. -/
structure CoversTried (h : HyperGraph n) (input : List Lit) (k : ℕ)
    (apmcs : List (List (Fin n))) (e : SizedEnumerator n) (t : Trace) : Prop where
  runInv : RunInv h.HasCover h.primal input e t k
  covered : ListsCovered h k apmcs
  lt : k < h.ghtw

/-- The loop is left at the width, before the totalizer is too small. -/
theorem wp_hypertreewidthSatLoop (hsolver : solver.Exact) (hn : 0 < n) (hh : h.Valid)
    (hc : h.Covering) (hfuel : roundBound n ≤ fuel) (hlen : input.length = h.m)
    (hlt : h.ghtw < h.m) (hm : k + m = n) (hI : CoversTried h input k apmcs e t) :
    wp (hypertreewidthSatLoop ks solver sh fuel h.primal (List.range' (k + 1) m) apmcs e)
      (fun r _ => r = some h.ghtw) E t := by
  induction m generalizing k apmcs e t with
  | zero =>
      have hle := ghtw_le_card hc
      have hkw := hI.lt
      omega
  | succ m ih =>
      have hkm : k + 1 < input.length := by
        rw [hlen]
        exact lt_of_le_of_lt hI.lt hlt
      rw [List.range'_succ, hypertreewidthSatLoop, wp_bind]
      apply wp_imp (wp_allPmcs hsolver hn hh.primal hfuel hkm.le (fun _ => hkm) hI.runInv)
      rintro ⟨ls, e'⟩ t' ⟨hinv, -, hls⟩
      have hcov := hI.covered.append hls
      obtain ⟨solB, hsolve, hiff⟩ := hcov.solve_iff ks hn hh hc
      dsimp only
      rw [wp_bind, hsolve, wp_ofOption_some]
      by_cases hfound : h.ghtw ≤ k + 1
      · rw [if_pos (hiff.mpr hfound), wp_pure, le_antisymm hfound hI.lt]
      · rw [if_neg fun hpos => hfound (hiff.mp hpos)]
        exact ih (by omega) ⟨hinv, hcov, Nat.lt_of_not_le hfound⟩

theorem hypertreewidthSatInstance_spec (ks : KeySort) (hsolver : solver.Exact) (sh : Shuffle)
    (hn : 0 < n) (hh : h.Valid) (hc : h.Covering) (hm : 2 ≤ h.m)
    (hsep : h.primal.toSimple.IsInseparable Set.univ) (hms : minsepEncoding ≤ 5)
    (hce : cardEncoding ≤ 1) (hfuel : roundBound n ≤ fuel) :
    (hypertreewidthSatInstance ks solver sh fuel minsepEncoding cardEncoding h []).1 =
      some (some h.ghtw) := by
  have hwp : wp (hypertreewidthSatInstance ks solver sh fuel minsepEncoding cardEncoding h)
      (fun r _ => r = some h.ghtw) (fun _ => False) [] := by
    rw [hypertreewidthSatInstance, wp_bind]
    apply wp_imp (FixedSizeHyperEnumerator.wp_new hh hn hm hms hce)
    rintro e t ⟨input, hlen, -, hrun⟩
    exact wp_hypertreewidthSatLoop hsolver hn hh hc hfuel hlen (ghtw_lt_m hh hc hm hsep)
      (Nat.zero_add n) ⟨hrun, ListsCovered.zero hn h, one_le_ghtw hc hn⟩
  obtain ⟨r, t, hrun, rfl⟩ := exists_of_wp hwp
  exact congrArg Prod.fst hrun

end Loop

/-! ## The whole run -/

/-- `HypertreewidthSat` returns the least number of hyperedges that suffices for the cover
of each bag of some tree decomposition, and on every instance the loop is left at a size
below the number of hyperedges.  `Solve` reads `IdOf` of a component that no clique so far
produced as a missing child. -/
theorem hypertreewidthSat_exact (ks : KeySort) {solver : Solver} (hsolver : solver.Exact)
    (sh : Shuffle) {minsepEncoding cardEncoding : ℕ} {input : List Text}
    (hread : Io.readHyperGraph input = some ⟨n, h⟩) (hn : 0 < n) (hms : minsepEncoding ≤ 5)
    (hce : cardEncoding ≤ 1) :
    ∃ N, ∀ fuel ≥ N,
      (∃ w, hypertreewidthSat ks solver sh fuel h minsepEncoding cardEncoding = some w ∧
        IsLeast {k | ∃ D : TreeDecomposition h.edgeSets, ∀ i, ∃ j ≤ k, h.HasCover (D.bag i) j}
          w) ∧
      ∃ instances, HypertreewidthPreprocessor.preprocess fuel h = some instances ∧ ∀ inst ∈ instances,
        ∃ k ≤ inst.2.m - 1,
          (hypertreewidthSatInstance ks solver sh fuel minsepEncoding cardEncoding
            inst.2 []).1 = some (some k) := by
  obtain ⟨hh, hc⟩ := Io.readHyperGraph_spec hread
  refine ⟨max 2 (roundBound n), fun fuel hfuel => ?_⟩
  obtain ⟨l, hrun, hinst, hghtw⟩ :=
    HypertreewidthPreprocessor.preprocess_instances hh hc hn ((le_max_left _ _).trans hfuel)
  have hsolve : ∀ inst ∈ l, (hypertreewidthSatInstance ks solver sh fuel minsepEncoding
      cardEncoding inst.2 []).1 = some (some inst.2.ghtw) := by
    intro inst hmem
    have hi := hinst inst hmem
    have hbound := (roundBound_mono hi.card_le).trans ((le_max_right _ _).trans hfuel)
    exact hypertreewidthSatInstance_spec ks hsolver sh hi.pos hi.valid hi.covering hi.two_le
      hi.inseparable hms hce hbound
  refine ⟨⟨h.ghtw, ?_, isLeast_ghtw hc⟩, l, hrun, fun inst hmem => ⟨_, ?_, hsolve inst hmem⟩⟩
  · rw [hypertreewidthSat, hrun, Option.bind_eq_bind, Option.bind_some, foldlM_instances hsolve,
      hghtw]
  · have hi := hinst inst hmem
    exact Nat.le_sub_one_of_lt (ghtw_lt_m hi.valid hi.covering hi.two_le hi.inseparable)

theorem hypertreewidthSat_exact_triangle :
    ∃ n h, Io.readHyperGraph triangleLines = some ⟨n, h⟩ ∧ ∃ N, ∀ fuel ≥ N,
      ∃ w, hypertreewidthSat KeySort.stable Solver.choice Shuffle.none fuel h 0 1 = some w ∧
        IsLeast {k | ∃ D : TreeDecomposition h.edgeSets, ∀ i, ∃ j ≤ k, h.HasCover (D.bag i) j}
          w := by
  obtain ⟨n, h, hread, hn⟩ := exists_read_triangle
  obtain ⟨N, hN⟩ := hypertreewidthSat_exact KeySort.stable Solver.exact_choice Shuffle.none hread
    hn (Nat.zero_le 5) le_rfl
  exact ⟨n, h, hread, N, fun fuel hfuel => (hN fuel hfuel).1⟩

end Triangulator
