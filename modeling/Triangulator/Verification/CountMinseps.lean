import Triangulator.Verification.CombMinSeps
import Triangulator.Verification.TreewidthComb

/-!
# Counting the minimal separators

`CountMinseps` may stop as soon as the bound is exceeded, and `FindMinSeps` may stop below
the number of all separators.  Neither shows in the minimum that is returned.
-/

namespace Triangulator

open SimpleGraph CombEnumerator

variable {n : ℕ} {g : Graph n}

/-- The number of minimal separators. -/
noncomputable def numMinseps (G : SimpleGraph (Fin n)) : ℕ :=
  {S | G.IsMinimalSeparator S}.ncard

/-- Different sorted vectors are different vertex sets. -/
theorem CombEnumerator.IsSeparatorList.length_eq {ls : List (List (Fin n))} (h : IsSeparatorList g ls)
    (hall : ∀ S, g.toSimple.IsMinimalSeparator S → S ∈ listed ls) :
    ls.length = numMinseps g.toSimple := by
  classical
  have hinj : (ls.map vset).Nodup := by
    apply h.nodup.map_on
    intro s hs t ht heq
    exact eq_of_vset_eq (h.sorted s hs) (h.sorted t ht) heq
  have hset : {S | g.toSimple.IsMinimalSeparator S} = ((ls.map vset).toFinset : Set (Set (Fin n))) := by
    ext S
    rw [Finset.mem_coe, List.mem_toFinset, List.mem_map]
    constructor
    · exact hall S
    · rintro ⟨s, hs, rfl⟩
      exact h.isMinimalSeparator s hs
  rw [numMinseps, hset, Set.ncard_coe_finset, List.toFinset_card_of_nodup hinj, List.length_map]

/-- The number of separators that `FindMinSeps` returns, up to the bound. -/
theorem findMinSeps_length (hg : g.Valid) (hedge : ∃ u v, g.toSimple.Adj u v) (ub : ℤ) :
    ∃ ms, findMinSeps g ub = some ms ∧
      (ub ≤ ms.length ∧ ub ≤ numMinseps g.toSimple ∨ ms.length = numMinseps g.toSimple) := by
  obtain ⟨ls, hls, hlist, -, hall⟩ := findMinSeps_spec hg hedge
  obtain ⟨ms, hms, -, -, hmany, hfew⟩ := findMinSeps_bounded hg ub hls
  have hlen := hlist.length_eq hall
  refine ⟨ms, hms, ?_⟩
  rcases le_or_gt ub ls.length with hle | hlt
  · exact Or.inl ⟨hmany hle, hlen ▸ hle⟩
  · exact Or.inr (hfew hlt ▸ hlen)

/-- A graph whose minimal separators can be enumerated. -/
def Enumerable (inst : TreewidthInstance) : Prop :=
  inst.graph.2.Valid ∧ ∃ u v, inst.graph.2.toSimple.Adj u v

/-- The loop over the instances adds up their numbers of separators, up to the bound. -/
theorem countMinsepsLoop_spec (ub : ℤ) {instances : List TreewidthInstance}
    (h : ∀ inst ∈ instances, Enumerable inst) {ans : ℤ} (hans : 0 ≤ ans) :
    ∃ r, countMinsepsLoop ub instances ans = some r ∧
      min r ub = min (ans + (instances.map fun inst => numMinseps inst.graph.2.toSimple).sum) ub := by
  induction instances generalizing ans with
  | nil => exact ⟨ans, rfl, by simp⟩
  | cons inst instances ih =>
      obtain ⟨hg, hedge⟩ := h inst List.mem_cons_self
      obtain ⟨ms, hms, hcount⟩ := findMinSeps_length hg hedge ub
      have hnext : 0 ≤ ans + ms.length := add_nonneg hans (Int.natCast_nonneg _)
      obtain ⟨r, hr, hmin⟩ := ih (fun i hi => h i (List.mem_cons_of_mem _ hi)) hnext
      rw [countMinsepsLoop, hms, Option.bind_eq_bind, Option.bind_some, List.map_cons,
        List.sum_cons, Nat.cast_add]
      dsimp only
      set rest : ℕ := (instances.map fun inst => numMinseps inst.graph.2.toSimple).sum
      by_cases hstop : ub < ans + ms.length
      · rw [if_pos hstop]
        refine ⟨_, rfl, ?_⟩
        -- Both numbers are at least the bound.
        rcases hcount with ⟨-, hle⟩ | heq
        · omega
        · omega
      · rw [if_neg hstop]
        refine ⟨r, hr, hmin.trans ?_⟩
        rcases hcount with ⟨hle, hle'⟩ | heq
        · omega
        · rw [heq, add_assoc]

/-- `CountMinseps` returns the number of minimal separators of all instances of the
preprocessing together, or the bound when there are more. -/
theorem countMinseps_exact (ub : ℤ) {input : List Text}
    (h : Io.readGraph input = some ⟨n, g⟩) :
    ∃ depth s, ∀ fuel, depth ≤ fuel → preprocess fuel g true = some s ∧
      countMinseps fuel g ub =
        some (min ((s.instances.map fun inst => numMinseps inst.graph.2.toSimple).sum : ℤ) ub) := by
  have hread := Io.readGraph_spec h
  obtain ⟨depth, s, hrun, ⟨I, hI⟩, -⟩ := exists_mapBack_optimal hread.valid hread.identity
  have hinsts : ∀ inst ∈ s.instances, Enumerable inst := by
    intro inst hinst
    obtain ⟨Q, -, hQ⟩ := exists_of_forall₂ hI hinst
    obtain ⟨φ, hφ, -⟩ := hQ.embedding
    have hpos : 0 < (inst.graph.2.adjList ⟨0, hQ.core.nonempty⟩).length :=
      Nat.zero_lt_of_lt (hQ.degree _)
    obtain ⟨u, hu⟩ := List.exists_mem_of_length_pos hpos
    exact ⟨hφ.valid, _, u, hφ.valid.mem_adjList_iff.mp hu⟩
  obtain ⟨r, hr, hmin⟩ := countMinsepsLoop_spec ub hinsts le_rfl
  refine ⟨depth, s, fun fuel hfuel => ⟨hrun fuel hfuel, ?_⟩⟩
  rw [countMinseps, hrun fuel hfuel, Option.bind_eq_bind, Option.bind_some, hr,
    Option.bind_eq_bind, Option.bind_some, hmin, zero_add]
  rfl

theorem countMinseps_exact_cube :
    ∃ n g, Io.readGraph cubeLines = some ⟨n, g⟩ ∧ ∃ depth s, ∀ fuel, depth ≤ fuel →
      preprocess fuel g true = some s ∧
      countMinseps fuel g 5 =
        some (min ((s.instances.map fun inst => numMinseps inst.graph.2.toSimple).sum : ℤ) 5) := by
  obtain ⟨n, g, hg⟩ := exists_read_cube
  exact ⟨n, g, hg, countMinseps_exact 5 hg⟩

end Triangulator
