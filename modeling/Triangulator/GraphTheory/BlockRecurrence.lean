import Triangulator.GraphTheory.Block

/-!
# The recurrence over blocks

A block `(S, C)` is a vertex set `C` whose edges leave it only into `S`.
A solution of a block, for a collection `P` of allowed cliques, is a minimal
triangulation of its realization all of whose maximal cliques are allowed.
Solutions are cut along a maximal clique into solutions of the child blocks and
glued back from them, and the clique number of the whole is the maximum over
the clique and the children.
-/

namespace SimpleGraph

variable {V : Type*} {G H : SimpleGraph V} {S A B C D O Q Ω : Set V}
  {P : Set (Set V)} {K : Set V → SimpleGraph V} {a b u v w x y : V}

/-! ## Clique numbers -/

theorem cliqueNum_le_iff [Finite V] {k : ℕ} :
    G.cliqueNum ≤ k ↔ ∀ Q : Set V, G.IsClique Q → Q.ncard ≤ k := by
  classical
  have := Fintype.ofFinite V
  constructor
  · intro h Q hQ
    rw [Set.ncard_eq_toFinset_card' Q]
    have hQ' : G.IsClique (Q.toFinset : Set V) := by simpa using hQ
    exact hQ'.card_le_cliqueNum.trans h
  · intro h
    obtain ⟨s, hs⟩ := G.exists_isNClique_cliqueNum
    rw [← hs.card_eq, ← Set.ncard_coe_finset]
    exact h _ hs.isClique

theorem IsClique.ncard_le_cliqueNum [Finite V] (hQ : G.IsClique Q) :
    Q.ncard ≤ G.cliqueNum :=
  cliqueNum_le_iff.mp le_rfl Q hQ

theorem cliqueNum_mono_graph [Finite V] (h : G ≤ H) :
    G.cliqueNum ≤ H.cliqueNum :=
  cliqueNum_le_iff.mpr fun _ hQ => (hQ.mono_graph h).ncard_le_cliqueNum

theorem cliqueNum_pos [Finite V] [Nonempty V] : 0 < G.cliqueNum := by
  obtain ⟨v⟩ := ‹Nonempty V›
  have h : G.IsClique {v} := by simp
  have hle := h.ncard_le_cliqueNum
  rw [Set.ncard_singleton] at hle
  exact hle

/-- Every clique lies in a maximal clique. -/
theorem IsClique.exists_maximal [Finite V] (hQ : G.IsClique Q) :
    ∃ M, Q ⊆ M ∧ Maximal G.IsClique M := by
  obtain ⟨M, hQM, hM⟩ :=
    (Set.toFinite {A | G.IsClique A}).exists_le_maximal hQ
  exact ⟨M, hQM, hM⟩

theorem IsPmc.nonempty [Nonempty V] (hΩ : G.IsPmc Ω) : Ω.Nonempty := by
  by_contra hempty
  rw [Set.not_nonempty_iff_eq_empty] at hempty
  subst hempty
  obtain ⟨v⟩ := ‹Nonempty V›
  have hC := isComponent_componentOf (G := G) (Set.notMem_empty v)
  exact hΩ.no_full _ hC (Set.subset_empty_iff.mp hC.nbhd_subset)

/-! ## Blocks -/

/-- `C` avoids `S`, and its edges leave it only into `S`. -/
structure IsBlock (G : SimpleGraph V) (S C : Set V) : Prop where
  notMem : ∀ v ∈ C, v ∉ S
  closed : ∀ u ∈ C, ∀ v, G.Adj u v → v ∈ S ∪ C

theorem isBlock_empty_univ : G.IsBlock ∅ Set.univ :=
  ⟨fun _ _ => Set.notMem_empty _, fun _ _ _ _ => Or.inr trivial⟩

theorem IsComponent.isBlock (hC : G.IsComponent S C) : G.IsBlock S C :=
  ⟨hC.notMem, fun u hu v huv => by
    by_cases hv : v ∈ S
    · exact Or.inl hv
    · exact Or.inr (hC.closed u hu v huv hv)⟩

/-- `Ω` is a vertex set of the block `(S, C)` that contains the separator. -/
structure InBlock (S C Ω : Set V) : Prop where
  sep_subset : S ⊆ Ω
  subset : Ω ⊆ S ∪ C

namespace IsBlock

theorem realization_adj_of_mem (h : G.IsBlock S C) (hu : u ∈ C) :
    (G.realization S C).Adj u v ↔ G.Adj u v := by
  constructor
  · rintro (huv | huv)
    · exact huv.1
    · exact absurd huv.2.1 (h.notMem u hu)
  · exact fun huv => Or.inl ⟨huv, Or.inr hu, h.closed u hu v huv⟩

theorem nbhd_realization (h : G.IsBlock S C) (hD : D ⊆ C) :
    (G.realization S C).nbhd D = G.nbhd D := by
  ext v
  simp only [mem_nbhd]
  refine and_congr_right fun _ => exists_congr fun u => and_congr_right fun hu => ?_
  exact h.realization_adj_of_mem (hD hu)

theorem isConnectedSet_realization (h : G.IsBlock S C) (hD : D ⊆ C) :
    (G.realization S C).IsConnectedSet D ↔ G.IsConnectedSet D :=
  ⟨fun hconn => hconn.congr_graph fun _ ha _ _ hab =>
      (h.realization_adj_of_mem (hD ha)).mp hab,
    fun hconn => hconn.congr_graph fun _ ha _ _ hab =>
      (h.realization_adj_of_mem (hD ha)).mpr hab⟩

/-- The components inside the block are the same in the graph and in the
realization. -/
theorem isComponent_realization (h : G.IsBlock S C) (hD : D ⊆ C) :
    (G.realization S C).IsComponent Ω D ↔ G.IsComponent Ω D := by
  constructor
  · intro hcomp
    exact ⟨hcomp.nonempty, hcomp.notMem,
      (h.isConnectedSet_realization hD).mp hcomp.connected,
      fun u hu v huv hv => hcomp.closed u hu v
        ((h.realization_adj_of_mem (hD hu)).mpr huv) hv⟩
  · intro hcomp
    exact ⟨hcomp.nonempty, hcomp.notMem,
      (h.isConnectedSet_realization hD).mpr hcomp.connected,
      fun u hu v huv hv => hcomp.closed u hu v
        ((h.realization_adj_of_mem (hD hu)).mp huv) hv⟩

/-- A component of the realization lies inside the block or is a single vertex
outside it. -/
theorem component_cases (h : G.IsBlock S C) (hΩ : InBlock S C Ω)
    (hD : (G.realization S C).IsComponent Ω D) :
    D ⊆ C ∨ ∃ v, v ∉ S ∪ C ∧ D = {v} := by
  obtain ⟨v, hv⟩ := hD.nonempty
  by_cases hvC : v ∈ C
  · left
    intro w hw
    refine (hD.connected v hv w hw).mem_of_closed hvC fun a ha b hb hab => ?_
    rcases h.closed a ha b ((h.realization_adj_of_mem ha).mp hab) with hbS | hbC
    · exact absurd (hΩ.sep_subset hbS) (hD.notMem b hb)
    · exact hbC
  · right
    have hvSC : v ∉ S ∪ C := fun hmem =>
      hD.notMem v hv (hΩ.sep_subset (hmem.resolve_right hvC))
    refine ⟨v, hvSC, Set.Subset.antisymm (fun w hw => ?_) (by simpa using hv)⟩
    refine (hD.connected v hv w hw).mem_of_closed (A := {v}) rfl ?_
    rintro a rfl b _ hab
    exact absurd (realization_le_completeOn hab).2.1 hvSC

/-- A component outside `Ω` that meets the block lies in it. -/
theorem component_subset (h : G.IsBlock S C) (hS : S ⊆ Ω)
    (hD : G.IsComponent Ω D) (hvD : v ∈ D) (hvC : v ∈ C) : D ⊆ C :=
  fun w hw => (hD.connected v hvD w hw).mem_of_closed hvC fun a ha b hb hab =>
    (h.closed a ha b hab).resolve_left fun hbS => hD.notMem b hb (hS hbS)

theorem nbhd_subset_sep (_h : G.IsBlock S C) (hΩ : InBlock S C Ω)
    (hD : G.IsComponent Ω D) : G.nbhd D ⊆ S ∪ C :=
  hD.nbhd_subset.trans hΩ.subset

/-- The child block has the same realization in the graph and in the
realization of its parent. -/
theorem realization_realization (h : G.IsBlock S C) (hΩ : InBlock S C Ω)
    (hD : G.IsComponent Ω D) (hDC : D ⊆ C) :
    (G.realization S C).realization (G.nbhd D) D =
      G.realization (G.nbhd D) D := by
  ext u v
  constructor
  · rintro (⟨huv | huv, hu, hv⟩ | huv)
    · exact Or.inl ⟨huv.1, hu, hv⟩
    · have hnot : ∀ w ∈ S, w ∉ D := fun w hw hwD => h.notMem w (hDC hwD) hw
      exact Or.inr ⟨huv.1, hu.resolve_right (hnot u huv.2.1),
        hv.resolve_right (hnot v huv.2.2)⟩
    · exact Or.inr huv
  · rintro (huv | huv)
    · have hsub : G.nbhd D ∪ D ⊆ S ∪ C :=
        Set.union_subset (h.nbhd_subset_sep hΩ hD)
          (hDC.trans Set.subset_union_right)
      exact Or.inl ⟨Or.inl ⟨huv.1, hsub huv.2.1, hsub huv.2.2⟩, huv.2⟩
    · exact Or.inr huv

end IsBlock

/-- A vertex set of a block satisfying the local conditions in the graph
satisfies them in the realization. -/
theorem IsPmc.realization [Nonempty V] (hpmc : G.IsPmc Ω) (hb : G.IsBlock S C)
    (hΩ : InBlock S C Ω) : (G.realization S C).IsPmc Ω where
  no_full := by
    intro D hD
    rcases hb.component_cases hΩ hD with hDC | ⟨v, hv, rfl⟩
    · rw [hb.nbhd_realization hDC]
      exact hpmc.no_full D ((hb.isComponent_realization hDC).mp hD)
    · intro hfull
      obtain ⟨w, hw⟩ := hpmc.nonempty
      rw [← hfull] at hw
      obtain ⟨-, u, rfl, huw⟩ := hw
      exact hv (realization_le_completeOn huw).2.1
  cliquish := by
    have key : ∀ x ∈ Ω, x ∈ C → ∀ D, G.IsComponent Ω D → x ∈ G.nbhd D → D ⊆ C := by
      rintro x - hxC D hD ⟨-, d, hd, hdx⟩ w hw
      have hSΩ : ∀ a ∈ D, a ∉ S := fun a ha haS => hD.notMem a ha (hΩ.sep_subset haS)
      have hdC : d ∈ C := (hb.closed x hxC d hdx.symm).resolve_left (hSΩ d hd)
      exact (hD.connected d hd w hw).mem_of_closed hdC fun a ha b hb' hab =>
        (hb.closed a ha b hab).resolve_left (hSΩ b hb')
    intro u hu v hv huv
    by_cases hS : u ∈ S ∧ v ∈ S
    · exact Or.inl (Or.inr ⟨huv, hS⟩)
    · rcases hpmc.cliquish u hu v hv huv with hadj | ⟨D, hD, huD, hvD⟩
      · exact Or.inl (Or.inl ⟨hadj, hΩ.subset hu, hΩ.subset hv⟩)
      · have hDC : D ⊆ C := by
          by_cases huS : u ∈ S
          · have hvC := (hΩ.subset hv).resolve_left fun hvS => hS ⟨huS, hvS⟩
            exact key v hv hvC D hD hvD
          · exact key u hu ((hΩ.subset hu).resolve_left huS) D hD huD
        rw [← hb.nbhd_realization hDC] at huD hvD
        exact Or.inr ⟨D, (hb.isComponent_realization hDC).mpr hD, huD, hvD⟩

/-! ## Solutions of blocks -/

/-- A minimal triangulation of the realization of `(S, C)` whose maximal
cliques inside the block all belong to `P`. -/
structure BlockSolution (G : SimpleGraph V) (P : Set (Set V)) (S C : Set V)
    (H : SimpleGraph V) : Prop where
  minimal : (G.realization S C).IsMinimalTriangulation H
  allowed : ∀ Q, Maximal H.IsClique Q → Q ⊆ S ∪ C → Q ∈ P

/-- A solution of a connected block whose separator is attached to it has a
maximal clique that contains the separator and more. -/
theorem BlockSolution.exists_clique [Finite V] (h : G.BlockSolution P S C H)
    (hb : G.IsBlock S C) (hC : G.IsConnectedSet C) (hne : C.Nonempty)
    (hfull : ∀ s ∈ S, ∃ c ∈ C, G.Adj c s) :
    ∃ Ω, Maximal H.IsClique Ω ∧ InBlock S C Ω ∧ ∃ c ∈ Ω, c ∈ C := by
  have hle := h.minimal.le
  have hS : H.IsClique S := completeOn_le_iff.mp (le_sup_right.trans hle)
  obtain ⟨c, hc, hcS⟩ := h.minimal.chordal.exists_adj_clique
    (((hb.isConnectedSet_realization subset_rfl).mpr hC).mono hle) hne hS
    hb.notMem fun t ht => by
      obtain ⟨c, hc, hct⟩ := hfull t ht
      exact ⟨c, hc, hle ((hb.realization_adj_of_mem hc).mpr hct)⟩
  obtain ⟨Ω, hsub, hΩ⟩ := (hS.insert fun t ht _ => hcS t ht).exists_maximal
  refine ⟨Ω, hΩ, ⟨(Set.subset_insert c S).trans hsub, fun w hw => ?_⟩,
    c, hsub (Set.mem_insert c S), hc⟩
  by_cases hcw : c = w
  · exact Or.inr (hcw ▸ hc)
  · have hadj := hΩ.1 (hsub (Set.mem_insert c S)) hw hcw
    exact (h.minimal.le_completeOn realization_le_completeOn hadj).2.2

/-- Cutting a solution along one of its maximal cliques gives solutions of the
child blocks. -/
theorem BlockSolution.cut [Finite V] (h : G.BlockSolution P S C H)
    (hb : G.IsBlock S C) (hΩ : InBlock S C Ω) (hclique : H.IsClique Ω)
    (hD : G.IsComponent Ω D) (hDC : D ⊆ C) :
    G.BlockSolution P (G.nbhd D) D (H.within (G.nbhd D ∪ D)) := by
  have hDR := (hb.isComponent_realization hDC).mpr hD
  have hN := hb.nbhd_realization hDC
  have hmin := h.minimal.within_block hclique hDR
  rw [hN, hb.realization_realization hΩ hD hDC] at hmin
  refine ⟨hmin, fun Q hQ hsub => h.allowed Q ⟨?_, ?_⟩ ?_⟩
  · exact hQ.1.mono_graph (within_le _)
  · -- A larger clique of `H` still meets `D`, so it stays inside the block.
    have hQD : ∃ d ∈ Q, d ∈ D := by
      by_contra hno
      push Not at hno
      have hQN : Q ⊆ G.nbhd D := fun q hq => (hsub hq).resolve_right (hno q hq)
      have hQH : (H.within (G.nbhd D ∪ D)).IsClique Q := hQ.1
      obtain ⟨d, hd, hdQ⟩ := hmin.chordal.exists_adj_clique (C := D)
        ((hD.connected.congr_graph fun a ha b hb' hab =>
          hmin.le (Or.inl ⟨hab, Or.inr ha, Or.inr hb'⟩)))
        hD.nonempty hQH (fun v hv hvQ => hno v hvQ hv) fun t ht => by
          obtain ⟨htD, d, hd, hdt⟩ := hQN ht
          exact ⟨d, hd, hmin.le
            (Or.inl ⟨hdt, Or.inr hd, Or.inl ⟨htD, d, hd, hdt⟩⟩)⟩
      have hins := hQ.1.insert fun t ht _ => hdQ t ht
      exact hno d (hQ.2 hins (Set.subset_insert d Q) (Set.mem_insert d Q)) hd
    obtain ⟨d, hdQ, hdD⟩ := hQD
    intro Q' hQ' hQQ'
    have hblock : Q' ⊆ G.nbhd D ∪ D := by
      intro q hq
      by_cases hdq : d = q
      · exact Or.inr (hdq ▸ hdD)
      · have hadj := hQ' (hQQ' hdQ) hq hdq
        have := h.minimal.mem_or_mem_nbhd hclique hDR hdD hadj
        rw [hN] at this
        exact this.symm
    refine hQ.2 (fun u hu v hv huv => ?_) hQQ'
    exact ⟨hQ' hu hv huv, hblock hu, hblock hv⟩
  · exact hsub.trans (Set.union_subset (hb.nbhd_subset_sep hΩ hD)
      (hDC.trans Set.subset_union_right))

open Classical in
/-- Complete `Ω` in the block `(S, C)` and put the graph `K D` on every child
block `D`. -/
noncomputable def glueBlock (G : SimpleGraph V) (S C Ω : Set V)
    (K : Set V → SimpleGraph V) : SimpleGraph V :=
  (G.realization S C).glue Ω fun D => if D ⊆ C then K D else ⊥

theorem IsBlock.glueBlock_adj (hb : G.IsBlock S C) :
    (G.glueBlock S C Ω K).Adj u v ↔ (u ≠ v ∧ u ∈ Ω ∧ v ∈ Ω) ∨
      ∃ D, G.IsComponent Ω D ∧ D ⊆ C ∧ (K D).Adj u v := by
  rw [glueBlock, glue_adj]
  refine or_congr_right (exists_congr fun D => ?_)
  by_cases hDC : D ⊆ C
  · simp [hDC, hb.isComponent_realization hDC]
  · simp [hDC]

/-- Minimal triangulations of all child blocks give minimal triangulations of
all blocks around `Ω` in the realization. -/
theorem IsBlock.blocksMinimal (hb : G.IsBlock S C) (hΩ : InBlock S C Ω)
    (hK : ∀ D, G.IsComponent Ω D → D ⊆ C →
      (G.realization (G.nbhd D) D).IsMinimalTriangulation (K D)) :
    (G.realization S C).BlocksMinimal Ω
      (open Classical in fun D => if D ⊆ C then K D else ⊥) := by
  classical
  intro D hD
  rcases hb.component_cases hΩ hD with hDC | ⟨v, hv, rfl⟩
  · have hDG := (hb.isComponent_realization hDC).mp hD
    rw [hb.nbhd_realization hDC, hb.realization_realization hΩ hDG hDC]
    simpa [hDC] using hK D hDG hDC
  · have hvC : ¬({v} : Set V) ⊆ C := fun h => hv (Or.inr (h rfl))
    have hN : (G.realization S C).nbhd {v} = ∅ := by
      rw [Set.eq_empty_iff_forall_notMem]
      rintro w ⟨-, u, rfl, huw⟩
      exact hv (realization_le_completeOn huw).2.1
    have hbot : (G.realization S C).realization
        ((G.realization S C).nbhd {v}) {v} = ⊥ := by
      ext a b
      rw [hN]
      simp only [realization_adj, Set.empty_union, Set.mem_singleton_iff,
        Set.mem_empty_iff_false, bot_adj, iff_false]
      rintro (⟨hab, rfl, rfl⟩ | h)
      · rcases hab with hab | hab
        · exact hab.1.ne rfl
        · exact hab.1 rfl
      · exact h.2.1
    rw [hbot]
    simp only [if_neg hvC]
    refine ⟨⟨le_rfl, isChordal_iff_no_hole.mpr fun k g hg => ?_⟩,
      fun _ _ _ => bot_le⟩
    exact hg.adj_last

/-- Solutions of all child blocks around an allowed clique are glued into a
solution of the parent. -/
theorem BlockSolution.glueBlock [Finite V] (hb : G.IsBlock S C)
    (hΩ : InBlock S C Ω) (hP : Ω ∈ P) (hpmc : (G.realization S C).IsPmc Ω)
    (hK : ∀ D, G.IsComponent Ω D → D ⊆ C → G.BlockSolution P (G.nbhd D) D (K D)) :
    G.BlockSolution P S C (G.glueBlock S C Ω K) := by
  classical
  have hblocks := hb.blocksMinimal hΩ fun D hD hDC => (hK D hD hDC).minimal
  refine ⟨hblocks.isMinimalTriangulation_glue hpmc, fun Q hQ hsub => ?_⟩
  rcases hblocks.clique_cases hQ.1 with hQΩ | ⟨D, hD, ⟨d, hdQ, hdD⟩, hblock, hQD⟩
  · rw [Set.Subset.antisymm hQΩ (hQ.2 (hblocks.maximal_glue hpmc).1 hQΩ)]
    exact hP
  · rcases hb.component_cases hΩ hD with hDC | ⟨v, hv, rfl⟩
    · have hDG := (hb.isComponent_realization hDC).mp hD
      rw [hb.nbhd_realization hDC] at hblock
      refine (hK D hDG hDC).allowed Q ⟨by simpa [hDC] using hQD, ?_⟩ hblock
      intro Q' hQ' hQQ'
      refine hQ.2 (BlocksMinimal.isClique_of_block hD ?_) hQQ'
      simpa [hDC] using hQ'
    · exact absurd (hsub hdQ) (hdD ▸ hv)

/-- A common bound on the clique and on the child blocks bounds the clique
number of the glued graph. -/
theorem IsBlock.cliqueNum_glueBlock_le [Finite V] {k : ℕ} (hb : G.IsBlock S C)
    (hΩ : InBlock S C Ω) (hne : Ω.Nonempty)
    (hK : ∀ D, G.IsComponent Ω D → D ⊆ C →
      (G.realization (G.nbhd D) D).IsMinimalTriangulation (K D))
    (hk : Ω.ncard ≤ k)
    (hle : ∀ D, G.IsComponent Ω D → D ⊆ C → (K D).cliqueNum ≤ k) :
    (G.glueBlock S C Ω K).cliqueNum ≤ k := by
  classical
  have hblocks := hb.blocksMinimal hΩ hK
  have hpos : 1 ≤ k :=
    le_trans ((Set.ncard_pos (Set.toFinite Ω)).mpr hne) hk
  rw [cliqueNum_le_iff]
  intro Q hQ
  rcases hblocks.clique_cases hQ with hQΩ | ⟨D, hD, -, -, hQD⟩
  · exact (Set.ncard_le_ncard hQΩ (Set.toFinite Ω)).trans hk
  · by_cases hDC : D ⊆ C
    · have hDG := (hb.isComponent_realization hDC).mp hD
      simp only [if_pos hDC] at hQD
      exact hQD.ncard_le_cliqueNum.trans (hle D hDG hDC)
    · simp only [if_neg hDC] at hQD
      refine le_trans ?_ hpos
      rw [Set.ncard_le_one (Set.toFinite Q)]
      intro a ha b hb
      by_contra hab
      exact hQD ha hb hab

/-! ## States of the dynamic program -/

/-- The whole graph, or a full component of a separator with a second full
component. -/
def IsStateBlock (G : SimpleGraph V) (S C : Set V) : Prop :=
  (S = ∅ ∧ C = Set.univ) ∨
    (G.IsComponent S C ∧ G.nbhd C = S ∧
      ∃ O, G.IsComponent S O ∧ O ≠ C ∧ G.nbhd O = S)

/-- `Ω` is considered at the block `(S, C)`: the block is the whole graph, or `S`
is the neighbourhood of a component outside `Ω` and `C` contains the rest of
`Ω`. -/
def IsPlaced (G : SimpleGraph V) (Ω S C : Set V) : Prop :=
  (S = ∅ ∧ C = Set.univ) ∨
    ∃ O, G.IsComponent Ω O ∧ G.nbhd O = S ∧ G.IsComponent S C ∧
      ∃ w ∈ Ω, w ∉ S ∧ w ∈ C

theorem IsStateBlock.isBlock (h : G.IsStateBlock S C) : G.IsBlock S C := by
  rcases h with ⟨rfl, rfl⟩ | ⟨hC, -⟩
  · exact isBlock_empty_univ
  · exact hC.isBlock

namespace IsPmc

/-- A component outside `Ω` leaves a vertex of `Ω` unseen. -/
theorem exists_notMem_nbhd (hpmc : G.IsPmc Ω) (hO : G.IsComponent Ω O) :
    ∃ w ∈ Ω, w ∉ G.nbhd O := by
  by_contra hno
  push Not at hno
  exact hpmc.no_full O hO (Set.Subset.antisymm hO.nbhd_subset hno)

/-- The vertices of `Ω` outside the neighbourhood of a component lie in one
component of the rest, and every vertex of `Ω` is in it or attached to it. -/
theorem mem_or_adj_rest (hpmc : G.IsPmc Ω) (hO : G.IsComponent Ω O)
    (hC : G.IsComponent (G.nbhd O) C) (hw : w ∈ Ω) (hwC : w ∈ C) (hx : x ∈ Ω) :
    (x ∉ G.nbhd O → x ∈ C) ∧ (x ∈ G.nbhd O → ∃ c ∈ C, G.Adj c x) := by
  have hwO : w ∉ G.nbhd O := hC.notMem w hwC
  by_cases hxw : x = w
  · subst hxw
    exact ⟨fun _ => hwC, fun h => absurd h hwO⟩
  rcases hpmc.cliquish x hx w hw hxw with hadj | ⟨D, hD, ⟨-, d, hd, hdx⟩,
    ⟨-, e, he, hew⟩⟩
  · exact ⟨fun hxO => hC.closed w hwC x hadj.symm hxO, fun _ => ⟨w, hwC, hadj.symm⟩⟩
  · have hDO : ∀ a ∈ D, a ∉ G.nbhd O := fun a ha haO =>
      hD.notMem a ha (hO.nbhd_subset haO)
    have heC := hC.closed w hwC e hew.symm (hDO e he)
    have hdC := hC.subset_of_connected hD.connected hDO heC he hd
    exact ⟨fun hxO => hC.closed d hdC x hdx hxO, fun _ => ⟨d, hdC, hdx⟩⟩

/-- The component of the rest is full. -/
theorem nbhd_rest (hpmc : G.IsPmc Ω) (hO : G.IsComponent Ω O)
    (hC : G.IsComponent (G.nbhd O) C) (hw : w ∈ Ω) (hwC : w ∈ C) :
    G.nbhd C = G.nbhd O :=
  hC.nbhd_eq_iff.mpr fun _ hs =>
    (hpmc.mem_or_adj_rest hO hC hw hwC (hO.nbhd_subset hs)).2 hs

/-- The block of a component outside `Ω` is a state. -/
theorem isStateBlock_child (hpmc : G.IsPmc Ω) (hD : G.IsComponent Ω D) :
    G.IsStateBlock (G.nbhd D) D := by
  obtain ⟨w, hw, hwD⟩ := hpmc.exists_notMem_nbhd hD
  have hC := isComponent_componentOf (G := G) hwD
  refine Or.inr ⟨hD.nbhd_self, rfl, _, hC, ?_,
    hpmc.nbhd_rest hD hC hw mem_componentOf_self⟩
  intro heq
  exact hD.notMem w (heq ▸ mem_componentOf_self) hw

end IsPmc

namespace IsPlaced

theorem inBlock (h : G.IsPlaced Ω S C) (hpmc : G.IsPmc Ω) : InBlock S C Ω := by
  rcases h with ⟨rfl, rfl⟩ | ⟨O, hO, rfl, hC, w, hw, -, hwC⟩
  · exact ⟨Set.empty_subset _, fun _ _ => Or.inr trivial⟩
  · refine ⟨hO.nbhd_subset, fun x hx => ?_⟩
    by_cases hxO : x ∈ G.nbhd O
    · exact Or.inl hxO
    · exact Or.inr ((hpmc.mem_or_adj_rest hO hC hw hwC hx).1 hxO)

theorem isStateBlock (h : G.IsPlaced Ω S C) (hpmc : G.IsPmc Ω) :
    G.IsStateBlock S C := by
  rcases h with ⟨rfl, rfl⟩ | ⟨O, hO, rfl, hC, w, hw, -, hwC⟩
  · exact Or.inl ⟨rfl, rfl⟩
  · refine Or.inr ⟨hC, hpmc.nbhd_rest hO hC hw hwC, O, hO.nbhd_self, ?_, rfl⟩
    rintro rfl
    exact hO.notMem w hwC hw

/-- `Ω` has a vertex in the component of the block. -/
theorem exists_mem [Nonempty V] (h : G.IsPlaced Ω S C) (hpmc : G.IsPmc Ω) :
    ∃ w ∈ Ω, w ∈ C := by
  rcases h with ⟨rfl, rfl⟩ | ⟨-, -, -, -, w, hw, -, hwC⟩
  · obtain ⟨w, hw⟩ := hpmc.nonempty
    exact ⟨w, hw, trivial⟩
  · exact ⟨w, hw, hwC⟩

/-- A child block is smaller than its parent. -/
theorem ncard_child_lt [Finite V] (h : G.IsPlaced Ω S C) (hpmc : G.IsPmc Ω)
    (hD : G.IsComponent Ω D) (hDC : D ⊆ C) :
    (G.nbhd D).ncard + D.ncard < S.ncard + C.ncard := by
  have hin := h.inBlock hpmc
  have hb := (h.isStateBlock hpmc).isBlock
  obtain ⟨w, hw, hwD⟩ := hpmc.exists_notMem_nbhd hD
  have hdisj : ∀ {A B : Set V}, (∀ v ∈ B, v ∉ A) →
      (A ∪ B).ncard = A.ncard + B.ncard := fun hAB =>
    Set.ncard_union_eq (Set.disjoint_left.mpr fun v hA hB => hAB v hB hA)
      (Set.toFinite _) (Set.toFinite _)
  rw [← hdisj fun v hv hN => hD.notMem v hv (hD.nbhd_subset hN), ← hdisj hb.notMem]
  refine Set.ncard_lt_ncard ⟨?_, fun hsub => ?_⟩ (Set.toFinite _)
  · exact Set.union_subset (hD.nbhd_subset.trans hin.subset)
      (hDC.trans Set.subset_union_right)
  · exact (hsub (hin.subset hw)).elim hwD fun h => hD.notMem w h hw

theorem child_ssubset [Nonempty V] (h : G.IsPlaced Ω S C) (hpmc : G.IsPmc Ω)
    (hD : G.IsComponent Ω D) (hDC : D ⊆ C) : D ⊂ C := by
  obtain ⟨w, hw, hwC⟩ := h.exists_mem hpmc
  exact ⟨hDC, fun hsub => hD.notMem w (hsub hwC) hw⟩

end IsPlaced

/-- Every solution of a state has an allowed maximal clique placed at the
state. -/
theorem BlockSolution.exists_placed [Finite V] [Nonempty V]
    (h : G.BlockSolution P S C H) (hstate : G.IsStateBlock S C) :
    ∃ Ω ∈ P, Maximal H.IsClique Ω ∧ G.IsPlaced Ω S C ∧ InBlock S C Ω := by
  rcases hstate with ⟨rfl, rfl⟩ | ⟨hC, hN, O, hO, hOC, hON⟩
  · obtain ⟨Ω, -, hΩ⟩ := (show H.IsClique ∅ by simp).exists_maximal
    exact ⟨Ω, h.allowed Ω hΩ (by simp), hΩ, Or.inl ⟨rfl, rfl⟩,
      Set.empty_subset _, by simp⟩
  · obtain ⟨Ω, hΩ, hin, c, hcΩ, hcC⟩ := h.exists_clique hC.isBlock hC.connected
      hC.nonempty (hC.nbhd_eq_iff.mp hN)
    refine ⟨Ω, h.allowed Ω hΩ hin.subset, hΩ, Or.inr ⟨O, ?_, hON, hC, c, hcΩ,
      hC.notMem c hcC, hcC⟩, hin⟩
    refine hO.of_nbhd_subset (hON ▸ hin.sep_subset) fun v hv hvΩ => ?_
    rcases hin.subset hvΩ with hvS | hvC
    · exact hO.notMem v hv hvS
    · exact hOC (hO.eq_of_mem hC hv hvC)

end SimpleGraph
