import Triangulator.GraphTheory.MinimalTriangulation

/-!
# Gluing minimal triangulations around a potential maximal clique

Around a vertex set `Ω` satisfying the local conditions, minimal
triangulations of the realizations of the components of `G - Ω` are glued into
a minimal triangulation of `G` in which `Ω` is a maximal clique.  Together with
`IsMinimalTriangulation.within_block` this is the recurrence behind the dynamic
program over blocks.
-/

namespace SimpleGraph

variable {V : Type*} {G H : SimpleGraph V} {S A B C D Q Ω : Set V}
  {K : Set V → SimpleGraph V} {a b u v w x y : V}

/-- Complete `Ω` and put the graph `K C` on the block of every component `C`
of `G - Ω`. -/
def glue (G : SimpleGraph V) (Ω : Set V) (K : Set V → SimpleGraph V) :
    SimpleGraph V where
  Adj u v := (completeOn Ω).Adj u v ∨ ∃ C, G.IsComponent Ω C ∧ (K C).Adj u v
  symm := ⟨fun _ _ h => h.imp (fun h => h.symm) fun ⟨C, hC, h⟩ => ⟨C, hC, h.symm⟩⟩
  loopless := ⟨fun _ h => h.elim (fun h => h.ne rfl) fun ⟨_, _, h⟩ => h.ne rfl⟩

theorem glue_adj :
    (G.glue Ω K).Adj u v ↔ (u ≠ v ∧ u ∈ Ω ∧ v ∈ Ω) ∨
      ∃ C, G.IsComponent Ω C ∧ (K C).Adj u v :=
  Iff.rfl

/-- Every component of `G - Ω` carries a minimal triangulation of its
realization. -/
def BlocksMinimal (G : SimpleGraph V) (Ω : Set V) (K : Set V → SimpleGraph V) :
    Prop :=
  ∀ C, G.IsComponent Ω C →
    (G.realization (G.nbhd C) C).IsMinimalTriangulation (K C)

namespace BlocksMinimal

theorem mem (h : G.BlocksMinimal Ω K) (hC : G.IsComponent Ω C)
    (huv : (K C).Adj u v) : u ∈ G.nbhd C ∪ C ∧ v ∈ G.nbhd C ∪ C :=
  ((h C hC).le_completeOn realization_le_completeOn huv).2

theorem isClique_nbhd (h : G.BlocksMinimal Ω K) (hC : G.IsComponent Ω C) :
    (K C).IsClique (G.nbhd C) := by
  refine completeOn_le_iff.mp (le_trans ?_ (h C hC).le)
  exact le_sup_right

theorem le_glue (h : G.BlocksMinimal Ω K) : G ≤ G.glue Ω K := by
  have hout : ∀ {a b : V}, G.Adj a b → a ∉ Ω →
      ∃ C, G.IsComponent Ω C ∧ (K C).Adj a b := by
    intro a b hab ha
    have hC := isComponent_componentOf (G := G) ha
    refine ⟨_, hC, (h _ hC).le (Or.inl ⟨hab, Or.inr mem_componentOf_self, ?_⟩)⟩
    by_cases hb : b ∈ G.componentOf Ω a
    · exact Or.inr hb
    · exact Or.inl ⟨hb, a, mem_componentOf_self, hab⟩
  intro u v huv
  by_cases hu : u ∈ Ω
  · by_cases hv : v ∈ Ω
    · exact Or.inl ⟨huv.ne, hu, hv⟩
    · obtain ⟨C, hC, h'⟩ := hout huv.symm hv
      exact Or.inr ⟨C, hC, h'.symm⟩
  · exact Or.inr (hout huv hu)

/-- An edge of the glued graph at a vertex of a component belongs to the graph
on that component's block. -/
theorem adj_of_mem (h : G.BlocksMinimal Ω K) (hC : G.IsComponent Ω C)
    (hu : u ∈ C) (huv : (G.glue Ω K).Adj u v) : (K C).Adj u v := by
  rcases huv with huv | ⟨D, hD, huv⟩
  · exact absurd huv.2.1 (hC.notMem u hu)
  · rcases (h.mem hD huv).1 with hN | huD
    · exact absurd (hD.nbhd_subset hN) (hC.notMem u hu)
    · rwa [hC.eq_of_mem hD hu huD]

/-- Inside one block the glued graph is the graph put on that block. -/
theorem within_glue (h : G.BlocksMinimal Ω K) (hC : G.IsComponent Ω C) :
    (G.glue Ω K).within (G.nbhd C ∪ C) = K C := by
  have hclique := h.isClique_nbhd hC
  ext u v
  constructor
  · rintro ⟨huv, hu, hv⟩
    by_cases huC : u ∈ C
    · exact h.adj_of_mem hC huC huv
    by_cases hvC : v ∈ C
    · exact (h.adj_of_mem hC hvC huv.symm).symm
    · exact hclique (hu.resolve_right huC) (hv.resolve_right hvC) huv.ne
  · intro huv
    exact ⟨Or.inr ⟨C, hC, huv⟩, h.mem hC huv⟩

theorem isClique_glue : (G.glue Ω K).IsClique Ω :=
  fun _ hu _ hv huv => Or.inl ⟨huv, hu, hv⟩

theorem isComponent_glue (h : G.BlocksMinimal Ω K) (hC : G.IsComponent Ω C) :
    (G.glue Ω K).IsComponent Ω C where
  nonempty := hC.nonempty
  notMem := hC.notMem
  connected := hC.connected.mono h.le_glue
  closed := fun _ hu _ huv hv =>
    ((h.mem hC (h.adj_of_mem hC hu huv)).2).resolve_left fun hN =>
      hv (hC.nbhd_subset hN)

theorem nbhd_glue (h : G.BlocksMinimal Ω K) (hC : G.IsComponent Ω C) :
    (G.glue Ω K).nbhd C = G.nbhd C := by
  apply Set.Subset.antisymm
  · rintro v ⟨hv, u, hu, huv⟩
    exact ((h.mem hC (h.adj_of_mem hC hu huv)).2).resolve_right hv
  · rintro v ⟨hv, u, hu, huv⟩
    exact ⟨hv, u, hu, h.le_glue huv⟩

theorem isComponent_glue_iff (h : G.BlocksMinimal Ω K) :
    (G.glue Ω K).IsComponent Ω C ↔ G.IsComponent Ω C := by
  refine ⟨fun hC => ?_, h.isComponent_glue⟩
  obtain ⟨v, hv⟩ := hC.nonempty
  have hD := isComponent_componentOf (G := G) (hC.notMem v hv)
  rw [hC.eq_of_mem (h.isComponent_glue hD) hv mem_componentOf_self]
  exact hD

theorem chordal_glue (h : G.BlocksMinimal Ω K) : (G.glue Ω K).IsChordal := by
  refine isChordal_of_star (A := Ω) ?_ fun C hC => ?_
  · refine (isChordal_top.within Ω).congr ?_
    ext u v
    simp only [within_adj, top_adj]
    exact ⟨fun huv => ⟨Or.inl ⟨huv.1, huv.2⟩, huv.2⟩, fun huv => ⟨huv.1.ne, huv.2⟩⟩
  · have hCG := h.isComponent_glue_iff.mp hC
    rw [h.nbhd_glue hCG, Set.union_comm, h.within_glue hCG]
    exact ⟨isClique_glue.subset hCG.nbhd_subset, (h C hCG).chordal⟩

/-- A chordal graph between `G` and the glued graph keeps `Ω` complete: a
separator of two vertices of `Ω` would have to meet a common component, hence
stay in its block, and a vertex of `Ω` outside that block would lead around
it. -/
theorem isClique_of_le (h : G.BlocksMinimal Ω K) (hΩ : G.IsPmc Ω)
    (hG : G ≤ H) (hH : H.IsChordal) (hle : H ≤ G.glue Ω K) : H.IsClique Ω := by
  intro x hx y hy hxy
  by_contra hna
  obtain ⟨T, hT, -, hsep⟩ := hH.exists_clique_separates hxy hna
  have hsepG := hsep.mono hG
  obtain ⟨C, hC, ⟨-, c, hc, hcx⟩, ⟨-, d, hd, hdy⟩⟩ :=
    (hΩ.cliquish x hx y hy hxy).resolve_left fun h => hna (hG h)
  obtain ⟨t, htC, htT⟩ :=
    hsepG.exists_mem hC.connected hcx.symm hc hd hdy.symm
  have hTblock : ∀ s ∈ T, s ∈ G.nbhd C ∪ C := by
    intro s hs
    by_cases hst : t = s
    · exact Or.inr (hst ▸ htC)
    · exact (h.mem hC (h.adj_of_mem hC htC (hle (hT htT hs hst)))).2
  obtain ⟨z, hz, hzN⟩ : ∃ z ∈ Ω, z ∉ G.nbhd C := by
    by_contra hno
    push Not at hno
    exact hΩ.no_full C hC (Set.Subset.antisymm hC.nbhd_subset hno)
  have hzT : z ∉ T := fun hzT =>
    (hTblock z hzT).elim hzN fun hzC => hC.notMem z hzC hz
  have hreach : ∀ p ∈ Ω, p ∉ T → G.ReachIn Tᶜ p z := by
    intro p hp hpT
    by_cases hpz : p = z
    · exact hpz ▸ ReachIn.refl p
    rcases hΩ.cliquish p hp z hz hpz with hadj | ⟨D, hD, ⟨-, e, he, hep⟩, hzD⟩
    · exact ReachIn.of_adj hadj hzT
    · obtain ⟨f, hf, hfz⟩ := hzD.2
      have hDT : D ⊆ Tᶜ := by
        intro w hw hwT
        rcases hTblock w hwT with hwN | hwC
        · exact hD.notMem w hw (hC.nbhd_subset hwN)
        · exact hzN (hC.eq_of_mem hD hwC hw ▸ hzD)
      have hef := (hD.connected e he f hf).mono_right hDT
      exact (ReachIn.head hep.symm (hDT he) hef).tail hfz hzT
  exact hsepG.not_reach ((hreach x hx hsep.left).trans
    ((hreach y hy hsep.right).symm hsep.right))

/-- Gluing minimal triangulations of the blocks around a potential maximal
clique gives a minimal triangulation. -/
theorem isMinimalTriangulation_glue (h : G.BlocksMinimal Ω K)
    (hΩ : G.IsPmc Ω) : G.IsMinimalTriangulation (G.glue Ω K) := by
  refine ⟨⟨h.le_glue, h.chordal_glue⟩, fun L hL hLle => ?_⟩
  have hclique := h.isClique_of_le hΩ hL.le hL.chordal hLle
  rintro u v (huv | ⟨C, hC, huv⟩)
  · exact hclique huv.2.1 huv.2.2 huv.1
  · have htri : (G.realization (G.nbhd C) C).IsTriangulation
        (L.within (G.nbhd C ∪ C)) := by
      refine ⟨?_, hL.chordal.within _⟩
      rintro u v (huv | huv)
      · exact ⟨hL.le huv.1, huv.2⟩
      · exact ⟨hclique (hC.nbhd_subset huv.2.1) (hC.nbhd_subset huv.2.2) huv.1,
          Or.inl huv.2.1, Or.inl huv.2.2⟩
    have hle : L.within (G.nbhd C ∪ C) ≤ K C := by
      rw [← h.within_glue hC]
      exact within_mono hLle subset_rfl
    rw [← (h C hC).eq_of_le htri hle] at huv
    exact huv.1

/-- A clique of the glued graph lies in `Ω` or in one block. -/
theorem clique_cases (h : G.BlocksMinimal Ω K) (hQ : (G.glue Ω K).IsClique Q) :
    Q ⊆ Ω ∨ ∃ C, G.IsComponent Ω C ∧ (∃ c ∈ Q, c ∈ C) ∧ Q ⊆ G.nbhd C ∪ C ∧
      (K C).IsClique Q := by
  by_cases hsub : Q ⊆ Ω
  · exact Or.inl hsub
  · right
    obtain ⟨c, hcQ, hcΩ⟩ := Set.not_subset.mp hsub
    have hC := isComponent_componentOf (G := G) hcΩ
    set C := G.componentOf Ω c
    have hblock : Q ⊆ G.nbhd C ∪ C := by
      intro q hq
      by_cases hcq : c = q
      · exact Or.inr (hcq ▸ mem_componentOf_self)
      · exact (h.mem hC (h.adj_of_mem hC mem_componentOf_self (hQ hcQ hq hcq))).2
    refine ⟨C, hC, ⟨c, hcQ, mem_componentOf_self⟩, hblock, fun u hu v hv huv => ?_⟩
    rw [← h.within_glue hC]
    exact ⟨hQ hu hv huv, hblock hu, hblock hv⟩

theorem isClique_of_block (hC : G.IsComponent Ω C) (hQ : (K C).IsClique Q) :
    (G.glue Ω K).IsClique Q :=
  fun _ hu _ hv huv => Or.inr ⟨C, hC, hQ hu hv huv⟩

/-- `Ω` is a maximal clique of the glued graph. -/
theorem maximal_glue [Finite V] (h : G.BlocksMinimal Ω K) (hΩ : G.IsPmc Ω) :
    Maximal (G.glue Ω K).IsClique Ω := by
  refine ⟨isClique_glue, fun Q hQ hsub => ?_⟩
  rcases h.clique_cases hQ with hQΩ | ⟨C, hC, ⟨c, -, hcC⟩, hblock, -⟩
  · exact hQΩ
  · exfalso
    refine hΩ.no_full C hC (Set.Subset.antisymm hC.nbhd_subset fun w hw => ?_)
    exact (hblock (hsub hw)).resolve_right fun hwC => hC.notMem w hwC hw

end BlocksMinimal

/-- The sets satisfying the local conditions are exactly the maximal cliques of
minimal triangulations. -/
theorem isPotentialMaximalClique_iff [Finite V] :
    G.IsPotentialMaximalClique Ω ↔ G.IsPmc Ω := by
  constructor
  · rintro ⟨H, hH, hΩ⟩
    exact hH.isPmc hΩ
  · intro hΩ
    have hex : ∀ C, ∃ K, (G.realization (G.nbhd C) C).IsMinimalTriangulation K :=
      fun C => by
        obtain ⟨K, -, hK⟩ := (isTriangulation_top
          (G.realization (G.nbhd C) C)).exists_minimal_le
        exact ⟨K, hK⟩
    choose K hK using hex
    have h : G.BlocksMinimal Ω K := fun C _ => hK C
    exact ⟨_, h.isMinimalTriangulation_glue hΩ, h.maximal_glue hΩ⟩

end SimpleGraph
