import Triangulator.GraphTheory.BlockRecurrence
import Triangulator.Verification.Components

/-!
# The test for potential maximal cliques

`ConnectedMatrix` links two vertices that are adjacent or see a common component
outside the separator, and `IsPmc` decides the local conditions.
-/

namespace Triangulator

open SimpleGraph

variable {n : ℕ} {g : Graph n}

/-- The closed neighbourhood of a component outside `S` contains both
vertices. -/
def ShareComponent (G : SimpleGraph (Fin n)) (S : Set (Fin n)) (v u : Fin n) :
    Prop :=
  ∃ D, G.IsComponent S D ∧ v ∈ D ∪ G.nbhd D ∧ u ∈ D ∪ G.nbhd D

theorem connectedMatrix_spec (hg : g.Valid) (separator : List (Fin n))
    (v u : Fin n) :
    g.connectedMatrix separator v u = true ↔
      g.toSimple.Adj v u ∨ ShareComponent g.toSimple (vset separator) v u := by
  -- The fold over a list of components.
  have loop : ∀ (cs : List (List (Fin n))) (m : Fin n → Fin n → Bool),
      cs.foldl (fun connected component =>
          let component := component ++ g.neighbors component
          fun v u => if v ∈ component ∧ u ∈ component then true
            else connected v u) m v u = true ↔
        m v u = true ∨ ∃ c ∈ cs, v ∈ vset c ∪ g.toSimple.nbhd (vset c) ∧
          u ∈ vset c ∪ g.toSimple.nbhd (vset c) := by
    intro cs
    induction cs with
    | nil => simp
    | cons c cs ih =>
        intro m
        rw [List.foldl_cons, ih]
        have hmem : ∀ w, w ∈ c ++ g.neighbors c ↔
            w ∈ vset c ∪ g.toSimple.nbhd (vset c) := by
          intro w
          rw [List.mem_append, mem_neighbors hg]
          rfl
        rw [List.exists_mem_cons_iff, ← hmem, ← hmem, ← or_assoc]
        refine or_congr_left ?_
        split
        · exact iff_of_true rfl (Or.inr ‹_›)
        · exact (or_iff_left ‹_›).symm
  have hcs := components_spec hg separator
  rw [Graph.connectedMatrix, loop, hg.adj_iff]
  refine or_congr_right ⟨?_, ?_⟩
  · rintro ⟨c, hc, h⟩
    exact ⟨vset c, hcs.isComponent c hc, h⟩
  · rintro ⟨D, hD, h⟩
    obtain ⟨c, hc, rfl⟩ := hcs.exists_eq hD
    exact ⟨c, hc, h⟩

/-- Two vertices of the separator share a component when both are in its
neighbourhood. -/
theorem shareComponent_of_mem {G : SimpleGraph (Fin n)} {S : Set (Fin n)}
    {v u : Fin n} (hv : v ∈ S) (hu : u ∈ S) :
    ShareComponent G S v u ↔
      ∃ D, G.IsComponent S D ∧ v ∈ G.nbhd D ∧ u ∈ G.nbhd D := by
  refine exists_congr fun D => and_congr_right fun hD => ?_
  have hnot : ∀ w ∈ S, (w ∈ D ∪ G.nbhd D ↔ w ∈ G.nbhd D) := fun w hw =>
    or_iff_right fun hwD => hD.notMem w hwD hw
  rw [hnot v hv, hnot u hu]

/-- A vertex of the component `D` and a vertex of the separator are linked when
the latter is in the neighbourhood of `D`. -/
theorem adj_or_shareComponent_iff {G : SimpleGraph (Fin n)} {S D : Set (Fin n)}
    {v u : Fin n} (hD : G.IsComponent S D) (hv : v ∈ D) (hu : u ∈ S) :
    G.Adj v u ∨ ShareComponent G S v u ↔ u ∈ G.nbhd D := by
  have huD : u ∉ D := fun h => hD.notMem u h hu
  constructor
  · rintro (h | ⟨E, hE, hvE, huE⟩)
    · exact ⟨huD, v, hv, h⟩
    · rcases hvE with hvE | hvE
      · rw [hD.eq_of_mem hE hv hvE]
        exact huE.resolve_left fun h => hE.notMem u h hu
      · exact absurd (hE.nbhd_subset hvE) (hD.notMem v hv)
  · exact fun h => Or.inr ⟨D, hD, Or.inl hv, Or.inr h⟩

/-- The number of vertices of the clique linked to a vertex of the component `D`
is the size of the neighbourhood of `D`. -/
theorem countP_connected (hg : g.Valid) {pmc : List (Fin n)} {D : Set (Fin n)}
    {i : Fin n} (hD : g.toSimple.IsComponent (vset pmc) D) (hi : i ∈ D) :
    ((List.finRange n).countP fun j => g.connectedMatrix pmc i j &&
      mark (fun _ => false) pmc j) = (g.toSimple.nbhd D).ncard := by
  rw [List.countP_eq_length_filter,
    ← ncard_vset ((List.nodup_finRange n).filter _)]
  congr 1
  ext j
  rw [mem_vset, List.mem_filter, Bool.and_eq_true, connectedMatrix_spec hg,
    mark_false_apply, decide_eq_true_iff]
  constructor
  · rintro ⟨-, hlink, hj⟩
    exact (adj_or_shareComponent_iff hD hi hj).mp hlink
  · intro hj
    have hjS := hD.nbhd_subset hj
    exact ⟨List.mem_finRange j, (adj_or_shareComponent_iff hD hi hjS).mpr hj, hjS⟩

/-- The loop of `IsPmc` over a part of the vertices. -/
theorem isPmcLoop_spec (hg : g.Valid) {pmc : List (Fin n)} (hnd : pmc.Nodup)
    (is : List (Fin n)) :
    ∃ b, g.isPmcLoop pmc (g.connectedMatrix pmc) (mark (fun _ => false) pmc) is =
        some b ∧
      (b = true ↔ ∀ i ∈ is,
        (i ∈ pmc → ∀ v ∈ pmc, i ≠ v → g.toSimple.Adj i v ∨
          ∃ D, g.toSimple.IsComponent (vset pmc) D ∧ i ∈ g.toSimple.nbhd D ∧
            v ∈ g.toSimple.nbhd D) ∧
        ∀ D, g.toSimple.IsComponent (vset pmc) D → i ∈ D →
          g.toSimple.nbhd D ≠ vset pmc) := by
  induction is with
  | nil => exact ⟨true, rfl, by simp⟩
  | cons i is ih =>
      obtain ⟨b, hb, hiff⟩ := ih
      rw [Graph.isPmcLoop]
      simp only [List.forall_mem_cons]
      by_cases hi : i ∈ pmc
      · rw [if_pos (by simpa [mark_false_apply] using hi)]
        have hcomp : ∀ D, g.toSimple.IsComponent (vset pmc) D → i ∈ D →
            g.toSimple.nbhd D ≠ vset pmc :=
          fun D hD hiD => absurd hi (hD.notMem i hiD)
        have hlink : ∀ v ∈ pmc, (g.connectedMatrix pmc i v = true ∨
            g.adjMat i v = true ↔ g.toSimple.Adj i v ∨
            ∃ D, g.toSimple.IsComponent (vset pmc) D ∧ i ∈ g.toSimple.nbhd D ∧
              v ∈ g.toSimple.nbhd D) := by
          intro v hv
          rw [connectedMatrix_spec hg, ← hg.adj_iff,
            shareComponent_of_mem (show i ∈ vset pmc from hi) hv, or_right_comm, or_self]
        by_cases hany : (pmc.any fun v => decide (i ≠ v) &&
            !g.connectedMatrix pmc i v && !g.adjMat i v) = true
        · rw [if_pos hany]
          refine ⟨false, rfl, iff_of_false (by simp) fun h => ?_⟩
          obtain ⟨v, hv, hcond⟩ := List.any_eq_true.mp hany
          simp only [Bool.and_eq_true, decide_eq_true_iff, Bool.not_eq_true'] at hcond
          have := (hlink v hv).mpr (h.1.1 hi v hv hcond.1.1)
          simp [hcond.1.2, hcond.2] at this
        · rw [if_neg hany]
          refine ⟨b, hb, hiff.trans ?_⟩
          refine (and_iff_right ⟨fun _ v hv hiv => ?_, hcomp⟩).symm
          rw [← hlink v hv]
          by_contra hno
          rw [not_or, Bool.not_eq_true, Bool.not_eq_true] at hno
          refine hany (List.any_eq_true.mpr ⟨v, hv, ?_⟩)
          simp [hiv, hno.1, hno.2]
      · rw [if_neg (by simpa [mark_false_apply] using hi)]
        have hD := isComponent_componentOf (G := g.toSimple)
          (S := vset pmc) (v := i) hi
        have hcard := ncard_vset hnd
        rw [countP_connected hg hD mem_componentOf_self, ← hcard,
          if_pos (Set.ncard_le_ncard hD.nbhd_subset (Set.toFinite _))]
        by_cases hfull : (g.toSimple.nbhd (g.toSimple.componentOf (vset pmc) i)).ncard =
            (vset pmc).ncard
        · rw [if_pos hfull]
          refine ⟨false, rfl, iff_of_false (by simp) fun h => ?_⟩
          exact h.1.2 _ hD mem_componentOf_self
            (Set.eq_of_subset_of_ncard_le hD.nbhd_subset hfull.ge (Set.toFinite _))
        · rw [if_neg hfull]
          refine ⟨b, hb, hiff.trans ?_⟩
          refine (and_iff_right ⟨fun h => absurd h hi, fun E hE hiE heq => ?_⟩).symm
          rw [← hE.eq_componentOf hiE, heq] at hfull
          exact hfull rfl

/-- `IsPmc` fails no assertion and decides whether a vertex list is a potential
maximal clique. -/
theorem isPmc_spec (hg : g.Valid) {pmc : List (Fin n)} (hnd : pmc.Nodup) :
    ∃ b, g.isPmc pmc = some b ∧
      (b = true ↔ g.toSimple.IsPotentialMaximalClique (vset pmc)) := by
  obtain ⟨b, hb, hiff⟩ := isPmcLoop_spec hg hnd (List.finRange n)
  refine ⟨b, hb, hiff.trans ?_⟩
  rw [isPotentialMaximalClique_iff]
  constructor
  · intro h
    refine ⟨fun D hD => ?_, fun u hu v hv huv =>
      (h u (List.mem_finRange u)).1 hu v hv huv⟩
    obtain ⟨i, hi⟩ := hD.nonempty
    exact (h i (List.mem_finRange i)).2 D hD hi
  · intro h i _
    exact ⟨fun hi v hv hiv => h.cliquish i hi v hv hiv, fun D hD _ => h.no_full D hD⟩

/-- A list on which `IsPmc` answers yes. -/
theorem isPotentialMaximalClique_of_isPmc (hg : g.Valid) {pmc : List (Fin n)}
    (hnd : pmc.Nodup) (h : g.isPmc pmc = some true) :
    g.toSimple.IsPotentialMaximalClique (vset pmc) := by
  obtain ⟨b, hb, hiff⟩ := isPmc_spec hg hnd
  rw [hb, Option.some_inj] at h
  exact hiff.mp h

end Triangulator
