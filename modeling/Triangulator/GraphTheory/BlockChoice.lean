import Triangulator.GraphTheory.BlockRecurrence

/-!
# Values of blocks and solutions built from chosen cliques

The value of a block is the least clique number, less one, of its solutions.
When a clique is chosen at every solved block, gluing along the chosen cliques
gives a solution, and its fill edges are the pairs inside the chosen cliques,
each counted at the block where it first appears.
-/

namespace SimpleGraph

variable {V : Type*} {G H : SimpleGraph V} {S C D Ω : Set V}
  {P : Set (Set V)} {u v w : V}

/-! ## Values -/

/-- `none` when the block has no solution, otherwise the least clique number of
a solution less one. -/
def IsBlockValue (G : SimpleGraph V) (P : Set (Set V)) (S C : Set V) :
    Option ℤ → Prop
  | none => ∀ H, ¬G.BlockSolution P S C H
  | some c => (∃ H, G.BlockSolution P S C H ∧ (H.cliqueNum : ℤ) = c + 1) ∧
      ∀ H, G.BlockSolution P S C H → c + 1 ≤ (H.cliqueNum : ℤ)

theorem exists_isBlockValue (G : SimpleGraph V) (P : Set (Set V)) (S C : Set V) :
    ∃ a, G.IsBlockValue P S C a := by
  classical
  by_cases hex : ∃ k H, G.BlockSolution P S C H ∧ H.cliqueNum = k
  · obtain ⟨H, hH, hk⟩ := Nat.find_spec hex
    refine ⟨some ((Nat.find hex : ℤ) - 1), ⟨H, hH, by omega⟩, fun K hK => ?_⟩
    have := Nat.find_le (h := hex) ⟨K, hK, rfl⟩
    omega
  · refine ⟨none, fun H hH => hex ⟨_, H, hH, rfl⟩⟩

/-- The value of a block. -/
noncomputable def blockValue (G : SimpleGraph V) (P : Set (Set V))
    (S C : Set V) : Option ℤ :=
  (exists_isBlockValue G P S C).choose

theorem isBlockValue_blockValue (G : SimpleGraph V) (P : Set (Set V))
    (S C : Set V) : G.IsBlockValue P S C (G.blockValue P S C) :=
  (exists_isBlockValue G P S C).choose_spec

theorem exists_solution_of_blockValue {c : ℤ}
    (h : G.blockValue P S C = some c) :
    ∃ H, G.BlockSolution P S C H ∧ (H.cliqueNum : ℤ) = c + 1 := by
  have := isBlockValue_blockValue G P S C
  rw [h] at this
  exact this.1

theorem BlockSolution.blockValue_le (hH : G.BlockSolution P S C H) :
    ∃ c, G.blockValue P S C = some c ∧ c + 1 ≤ (H.cliqueNum : ℤ) := by
  have := isBlockValue_blockValue G P S C
  cases h : G.blockValue P S C with
  | none =>
      rw [h] at this
      exact absurd hH (this H)
  | some c =>
      rw [h] at this
      exact ⟨c, rfl, this.2 H hH⟩

/-! ## Gluing along chosen cliques -/

open Classical in
/-- The graph glued along the clique `opt S C` chosen at every block. -/
noncomputable def glueChoice [Finite V] (G : SimpleGraph V)
    (opt : Set V → Set V → Set V) (S C : Set V) : SimpleGraph V :=
  G.glueBlock S C (opt S C) fun D =>
    if D ⊂ C then glueChoice G opt (G.nbhd D) D else ⊥
termination_by C.ncard
decreasing_by exact Set.ncard_lt_ncard ‹_› (Set.toFinite _)

/-- A choice of cliques on a family of solved blocks: the clique is allowed and
placed at its block, and its child blocks are solved. -/
structure IsChoice (G : SimpleGraph V) (P : Set (Set V))
    (opt : Set V → Set V → Set V) (solved : Set V → Set V → Prop) : Prop where
  mem : ∀ S C, solved S C → opt S C ∈ P
  isPmc : ∀ S C, solved S C → G.IsPmc (opt S C)
  placed : ∀ S C, solved S C → G.IsPlaced (opt S C) S C
  child : ∀ S C, solved S C → ∀ D, G.IsComponent (opt S C) D → D ⊆ C →
    solved (G.nbhd D) D

/-- The fill edges of the graph glued at a block. -/
def fillSet [Finite V] (G : SimpleGraph V) (opt : Set V → Set V → Set V)
    (S C : Set V) : Set (Sym2 V) :=
  (G.glueChoice opt S C).edgeSet \ (G.realization S C).edgeSet

/-- The pairs of `Ω` that are neither adjacent nor both in `S`. -/
def newPairs (G : SimpleGraph V) (S Ω : Set V) : Set (Sym2 V) :=
  (completeOn Ω).edgeSet \ (G ⊔ completeOn S).edgeSet

namespace IsChoice

variable {opt : Set V → Set V → Set V} {solved : Set V → Set V → Prop}

theorem isBlock (h : G.IsChoice P opt solved) (hs : solved S C) :
    G.IsBlock S C :=
  ((h.placed S C hs).isStateBlock (h.isPmc S C hs)).isBlock

variable [Finite V] [Nonempty V]

theorem glueChoice_adj (h : G.IsChoice P opt solved) (hs : solved S C) :
    (G.glueChoice opt S C).Adj u v ↔ (u ≠ v ∧ u ∈ opt S C ∧ v ∈ opt S C) ∨
      ∃ D, G.IsComponent (opt S C) D ∧ D ⊆ C ∧
        (G.glueChoice opt (G.nbhd D) D).Adj u v := by
  rw [glueChoice, (h.isBlock hs).glueBlock_adj]
  refine or_congr_right (exists_congr fun D => and_congr_right fun hD =>
    and_congr_right fun hDC => ?_)
  rw [if_pos ((h.placed S C hs).child_ssubset (h.isPmc S C hs) hD hDC)]

/-- Gluing along the chosen cliques solves every solved block. -/
theorem blockSolution (h : G.IsChoice P opt solved) (hs : solved S C) :
    G.BlockSolution P S C (G.glueChoice opt S C) := by
  induction hn : C.ncard using Nat.strong_induction_on generalizing S C with
  | _ k ih =>
      subst hn
      have hpl := h.placed S C hs
      have hpmc := h.isPmc S C hs
      have hb := h.isBlock hs
      have hin := hpl.inBlock hpmc
      rw [glueChoice]
      refine BlockSolution.glueBlock hb hin (h.mem S C hs)
        (hpmc.realization hb hin) fun D hD hDC => ?_
      have hlt := hpl.child_ssubset hpmc hD hDC
      rw [if_pos hlt]
      exact ih _ (Set.ncard_lt_ncard hlt (Set.toFinite _))
        (h.child S C hs D hD hDC) rfl

/-- A bound that covers every chosen clique and does not grow towards the
children bounds the clique number of the glued graph. -/
theorem cliqueNum_le (h : G.IsChoice P opt solved)
    (bound : Set V → Set V → ℕ)
    (hclique : ∀ S C, solved S C → (opt S C).ncard ≤ bound S C)
    (hchild : ∀ S C, solved S C → ∀ D, G.IsComponent (opt S C) D → D ⊆ C →
      bound (G.nbhd D) D ≤ bound S C) (hs : solved S C) :
    (G.glueChoice opt S C).cliqueNum ≤ bound S C := by
  induction hn : C.ncard using Nat.strong_induction_on generalizing S C with
  | _ k ih =>
      subst hn
      have hpl := h.placed S C hs
      have hpmc := h.isPmc S C hs
      rw [glueChoice]
      refine (h.isBlock hs).cliqueNum_glueBlock_le (hpl.inBlock hpmc) hpmc.nonempty
        (fun D hD hDC => ?_) (hclique S C hs) fun D hD hDC => ?_
      · rw [if_pos (hpl.child_ssubset hpmc hD hDC)]
        exact (h.blockSolution (h.child S C hs D hD hDC)).minimal
      · have hlt := hpl.child_ssubset hpmc hD hDC
        rw [if_pos hlt]
        exact (ih _ (Set.ncard_lt_ncard hlt (Set.toFinite _))
          (h.child S C hs D hD hDC) rfl).trans (hchild S C hs D hD hDC)

/-- A fill edge of a block has both ends in the block and one end in its
component. -/
theorem fillSet_mem (h : G.IsChoice P opt solved) (hs : solved S C)
    (he : s(u, v) ∈ G.fillSet opt S C) :
    (u ∈ S ∪ C ∧ v ∈ S ∪ C) ∧ (u ∈ C ∨ v ∈ C) := by
  have hadj := ((h.blockSolution hs).minimal.le_completeOn
    realization_le_completeOn he.1)
  refine ⟨hadj.2, ?_⟩
  by_contra hno
  rw [not_or] at hno
  exact he.2 (Or.inr ⟨hadj.1, hadj.2.1.resolve_right hno.1,
    hadj.2.2.resolve_right hno.2⟩)

/-- The fill edges of a block are the new pairs of its clique and the fill edges
of its children. -/
theorem mem_fillSet_iff (h : G.IsChoice P opt solved) (hs : solved S C)
    (e : Sym2 V) :
    e ∈ G.fillSet opt S C ↔ e ∈ G.newPairs S (opt S C) ∨
      ∃ D, G.IsComponent (opt S C) D ∧ D ⊆ C ∧ e ∈ G.fillSet opt (G.nbhd D) D := by
  have hpl := h.placed S C hs
  have hpmc := h.isPmc S C hs
  have hb := h.isBlock hs
  have hin := hpl.inBlock hpmc
  induction e using Sym2.ind with
  | _ u v =>
      constructor
      · rintro ⟨hadj, hnot⟩
        rcases (h.glueChoice_adj hs).mp hadj with hΩ | ⟨D, hD, hDC, hDadj⟩
        · left
          refine ⟨hΩ, fun hR => hnot ?_⟩
          rcases hR with hG | hS
          · exact Or.inl ⟨hG, hin.subset hΩ.2.1, hin.subset hΩ.2.2⟩
          · exact Or.inr hS
        · by_cases hR : (G.realization (G.nbhd D) D).Adj u v
          · rcases hR with hG | hN
            · have hsub : G.nbhd D ∪ D ⊆ S ∪ C :=
                Set.union_subset (hD.nbhd_subset.trans hin.subset)
                  (hDC.trans Set.subset_union_right)
              exact absurd (Or.inl ⟨hG.1, hsub hG.2.1, hsub hG.2.2⟩) hnot
            · left
              refine ⟨⟨hN.1, hD.nbhd_subset hN.2.1, hD.nbhd_subset hN.2.2⟩,
                fun hR => hnot ?_⟩
              rcases hR with hG | hS
              · exact Or.inl ⟨hG, hin.subset (hD.nbhd_subset hN.2.1),
                  hin.subset (hD.nbhd_subset hN.2.2)⟩
              · exact Or.inr hS
          · exact Or.inr ⟨D, hD, hDC, hDadj, hR⟩
      · rintro (⟨hΩ, hnot⟩ | ⟨D, hD, hDC, hfill⟩)
        · refine ⟨(h.glueChoice_adj hs).mpr (Or.inl hΩ), fun hR => hnot ?_⟩
          rcases hR with hG | hS
          · exact Or.inl hG.1
          · exact Or.inr hS
        · refine ⟨(h.glueChoice_adj hs).mpr (Or.inr ⟨D, hD, hDC, hfill.1⟩),
            fun hR => hfill.2 ?_⟩
          have hends := h.fillSet_mem (h.child S C hs D hD hDC) hfill
          rcases hR with hG | hS
          · exact Or.inl ⟨hG.1, hends.1⟩
          · exfalso
            rcases hends.2 with hu | hv
            · exact hD.notMem u hu (hin.sep_subset hS.2.1)
            · exact hD.notMem v hv (hin.sep_subset hS.2.2)

theorem newPairs_disjoint_fillSet (h : G.IsChoice P opt solved) (hs : solved S C)
    (hD : G.IsComponent (opt S C) D) (hDC : D ⊆ C) :
    Disjoint (G.newPairs S (opt S C)) (G.fillSet opt (G.nbhd D) D) := by
  rw [Set.disjoint_left]
  intro e
  induction e using Sym2.ind with
  | _ u v =>
      rintro ⟨hΩ, -⟩ hfill
      have hends := h.fillSet_mem (h.child S C hs D hD hDC) hfill
      rcases hends.2 with hu | hv
      · exact hD.notMem u hu hΩ.2.1
      · exact hD.notMem v hv hΩ.2.2

theorem fillSet_disjoint (h : G.IsChoice P opt solved) (hs : solved S C)
    {E : Set V} (hD : G.IsComponent (opt S C) D) (hDC : D ⊆ C)
    (hE : G.IsComponent (opt S C) E) (hEC : E ⊆ C)
    (hDE : Disjoint D E) :
    Disjoint (G.fillSet opt (G.nbhd D) D) (G.fillSet opt (G.nbhd E) E) := by
  have key : ∀ x, x ∈ D → ¬(x ∈ G.nbhd E ∪ E) := by
    rintro x hx (hxN | hxE)
    · exact hD.notMem x hx (hE.nbhd_subset hxN)
    · exact Set.disjoint_left.mp hDE hx hxE
  rw [Set.disjoint_left]
  intro e
  induction e using Sym2.ind with
  | _ u v =>
      intro hfD hfE
      have hD' := h.fillSet_mem (h.child S C hs D hD hDC) hfD
      have hE' := h.fillSet_mem (h.child S C hs E hE hEC) hfE
      rcases hD'.2 with hu | hv
      · exact key u hu hE'.1.1
      · exact key v hv hE'.1.2

end IsChoice

end SimpleGraph
