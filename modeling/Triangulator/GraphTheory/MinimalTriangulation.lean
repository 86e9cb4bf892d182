import Triangulator.GraphTheory.CliqueSeparator

/-!
# Minimal triangulations and potential maximal cliques

A triangulation of `G` is a chordal supergraph on the same vertices.  This file
shows that a minimal triangulation has no edge across a clique that separates
`G`, that its maximal cliques are exactly the vertex sets satisfying the two
local conditions of `IsPmc`, and that minimal triangulations are glued from,
and cut into, minimal triangulations of the blocks around a potential maximal
clique.
-/

namespace SimpleGraph

variable {V : Type*} {G H : SimpleGraph V} {S A B C D Q Ω : Set V}
  {a b u v w x y : V}

/-- `H` is a chordal supergraph of `G`. -/
structure IsTriangulation (G H : SimpleGraph V) : Prop where
  le : G ≤ H
  chordal : H.IsChordal

/-- `H` is a triangulation of `G` and no proper subgraph of it is one. -/
def IsMinimalTriangulation (G H : SimpleGraph V) : Prop :=
  Minimal G.IsTriangulation H

/-- `Ω` is a maximal clique of some minimal triangulation of `G`. -/
def IsPotentialMaximalClique (G : SimpleGraph V) (Ω : Set V) : Prop :=
  ∃ H, G.IsMinimalTriangulation H ∧ Maximal H.IsClique Ω

/-- The local conditions: no component of `G - Ω` is full, and any two vertices
of `Ω` are adjacent or see a common component of `G - Ω`. -/
structure IsPmc (G : SimpleGraph V) (Ω : Set V) : Prop where
  no_full : ∀ C, G.IsComponent Ω C → G.nbhd C ≠ Ω
  cliquish : ∀ u ∈ Ω, ∀ v ∈ Ω, u ≠ v →
    G.Adj u v ∨ ∃ C, G.IsComponent Ω C ∧ u ∈ G.nbhd C ∧ v ∈ G.nbhd C

/-- The block `(S, C)` with its separator completed. -/
def realization (G : SimpleGraph V) (S C : Set V) : SimpleGraph V :=
  G.within (S ∪ C) ⊔ completeOn S

@[simp] theorem realization_adj :
    (G.realization S C).Adj u v ↔
      (G.Adj u v ∧ u ∈ S ∪ C ∧ v ∈ S ∪ C) ∨ (u ≠ v ∧ u ∈ S ∧ v ∈ S) :=
  Iff.rfl

theorem realization_le_completeOn :
    G.realization S C ≤ completeOn (S ∪ C) := by
  intro u v huv
  rcases huv with h | h
  · exact ⟨h.1.ne, h.2.1, h.2.2⟩
  · exact ⟨h.1, Or.inl h.2.1, Or.inl h.2.2⟩

@[simp] theorem realization_empty_univ :
    G.realization ∅ Set.univ = G := by
  ext u v
  simp

theorem isChordal_top : (⊤ : SimpleGraph V).IsChordal := by
  rw [isChordal_iff_no_hole]
  intro k g h
  have h4 := h.four_le
  have hne : g 0 ≠ g 2 := fun he =>
    absurd (h.inj 0 (by omega) 2 (by omega) he) (by omega)
  have := (h.adj_iff 0 2 (by omega) (by omega)).mp hne
  omega

theorem isTriangulation_top (G : SimpleGraph V) : G.IsTriangulation ⊤ :=
  ⟨le_top, isChordal_top⟩

/-- Every triangulation contains a minimal one. -/
theorem IsTriangulation.exists_minimal_le [Finite V] (h : G.IsTriangulation H) :
    ∃ H' ≤ H, G.IsMinimalTriangulation H' := by
  obtain ⟨H', hle, hmin⟩ :=
    (Set.toFinite {K | G.IsTriangulation K}).exists_le_minimal h
  exact ⟨H', hle, hmin⟩

namespace IsMinimalTriangulation

theorem le (h : G.IsMinimalTriangulation H) : G ≤ H :=
  h.1.le

theorem chordal (h : G.IsMinimalTriangulation H) : H.IsChordal :=
  h.1.chordal

theorem eq_of_le {K : SimpleGraph V} (h : G.IsMinimalTriangulation H)
    (hK : G.IsTriangulation K) (hle : K ≤ H) : K = H :=
  le_antisymm hle (h.2 hK hle)

/-- A minimal triangulation has no edge outside the vertex set that carries
the graph. -/
theorem le_completeOn (h : G.IsMinimalTriangulation H)
    (hG : G ≤ completeOn A) : H ≤ completeOn A := by
  have htri : G.IsTriangulation (H.within A) :=
    ⟨fun u v huv => ⟨h.le huv, (hG huv).2⟩, h.chordal.within A⟩
  rw [← h.eq_of_le htri (within_le A)]
  exact fun u v huv => ⟨huv.1.ne, huv.2⟩

/-- A minimal triangulation has no edge across a clique separator. -/
theorem not_adj_across (h : G.IsMinimalTriangulation H)
    (hAB : ∀ v, v ∈ A ∨ v ∈ B) (hclique : H.IsClique (A ∩ B))
    (hG : ∀ a ∈ A, a ∉ B → ∀ b ∈ B, b ∉ A → ¬G.Adj a b) :
    ∀ a ∈ A, a ∉ B → ∀ b ∈ B, b ∉ A → ¬H.Adj a b := by
  have hle : H.within A ⊔ H.within B ≤ H := sup_le (within_le A) (within_le B)
  have hcross : ∀ a ∈ A, a ∉ B → ∀ b ∈ B, b ∉ A →
      ¬(H.within A ⊔ H.within B).Adj a b := by
    intro a _ haB b _ hbA hab
    rcases hab with hab | hab
    · exact hbA hab.2.2
    · exact haB hab.2.1
  have htri : G.IsTriangulation (H.within A ⊔ H.within B) := by
    refine ⟨fun u v huv => ?_, isChordal_of_glue hAB ?_ hcross ?_ ?_⟩
    · by_cases hu : u ∈ A ∧ v ∈ A
      · exact Or.inl ⟨h.le huv, hu⟩
      · by_cases hv : u ∈ B ∧ v ∈ B
        · exact Or.inr ⟨h.le huv, hv⟩
        · have hu' := hAB u
          have hv' := hAB v
          rcases hu' with huA | huB
          · have hvA : v ∉ A := fun hvA => hu ⟨huA, hvA⟩
            have hvB := hv'.resolve_left hvA
            have huB : u ∉ B := fun huB => hv ⟨huB, hvB⟩
            exact absurd huv (hG u huA huB v hvB hvA)
          · have hvB : v ∉ B := fun hvB => hv ⟨huB, hvB⟩
            have hvA := hv'.resolve_right hvB
            have huA : u ∉ A := fun huA => hu ⟨huA, hvA⟩
            exact absurd huv.symm (hG v hvA hvB u huB huA)
    · intro u hu v hv huv
      exact Or.inl ⟨hclique hu hv huv, hu.1, hv.1⟩
    · refine (h.chordal.within A).congr ?_
      ext u v
      simp only [within_adj, sup_adj]
      tauto
    · refine (h.chordal.within B).congr ?_
      ext u v
      simp only [within_adj, sup_adj]
      tauto
  rw [h.eq_of_le htri hle] at hcross
  exact hcross

/-- Every neighbour in `H` of a component of `G - Ω` is already a neighbour in
`G` when `Ω` is a clique of `H`. -/
theorem mem_or_mem_nbhd (h : G.IsMinimalTriangulation H) (hΩ : H.IsClique Ω)
    (hC : G.IsComponent Ω C) (hu : u ∈ C) (huv : H.Adj u v) :
    v ∈ C ∨ v ∈ G.nbhd C := by
  by_contra hv
  rw [not_or] at hv
  have hinter : (C ∪ G.nbhd C) ∩ Cᶜ ⊆ Ω := by
    rintro w ⟨hw | hw, hwC⟩
    · exact absurd hw hwC
    · exact hC.nbhd_subset hw
  refine h.not_adj_across (A := C ∪ G.nbhd C) (B := Cᶜ) (fun w => ?_)
    (hΩ.subset hinter) ?_ u (Or.inl hu) (fun h => h hu) v hv.1
    (fun h => h.elim hv.1 hv.2) huv
  · by_cases hw : w ∈ C <;> simp [hw]
  · intro a _ haB b _ hbA hab
    have haC : a ∈ C := by simpa using haB
    rw [Set.mem_union, not_or] at hbA
    exact hC.not_adj haC hbA.1 hbA.2 hab

/-- The components of `G - Ω` are components of `H - Ω`. -/
theorem isComponent_of (h : G.IsMinimalTriangulation H) (hΩ : H.IsClique Ω)
    (hC : G.IsComponent Ω C) : H.IsComponent Ω C where
  nonempty := hC.nonempty
  notMem := hC.notMem
  connected := hC.connected.mono h.le
  closed := fun _ hu _ huv hv =>
    (h.mem_or_mem_nbhd hΩ hC hu huv).resolve_right fun hN =>
      hv (hC.nbhd_subset hN)

theorem isComponent_iff (h : G.IsMinimalTriangulation H)
    (hΩ : H.IsClique Ω) : H.IsComponent Ω C ↔ G.IsComponent Ω C := by
  refine ⟨fun hC => ?_, h.isComponent_of hΩ⟩
  obtain ⟨v, hv⟩ := hC.nonempty
  have hD := isComponent_componentOf (G := G) (hC.notMem v hv)
  rw [hC.eq_of_mem (h.isComponent_of hΩ hD) hv mem_componentOf_self]
  exact hD

end IsMinimalTriangulation

/-! ## Maximal cliques of minimal triangulations -/

/-- A maximal clique of a minimal triangulation has no full component. -/
theorem IsMinimalTriangulation.no_full [Finite V]
    (h : G.IsMinimalTriangulation H) (hΩ : Maximal H.IsClique Ω)
    (hC : G.IsComponent Ω C) : G.nbhd C ≠ Ω := by
  intro hfull
  obtain ⟨c, hc, hcΩ⟩ := h.chordal.exists_adj_clique
    (hC.connected.mono h.le) hC.nonempty hΩ.1 hC.notMem fun t ht => by
      obtain ⟨c, hc, hct⟩ := (hC.nbhd_eq_iff.mp hfull) t ht
      exact ⟨c, hc, h.le hct⟩
  have hins : H.IsClique (insert c Ω) :=
    hΩ.1.insert fun t ht _ => hcΩ t ht
  exact hC.notMem c hc (hΩ.2 hins (Set.subset_insert c Ω) (Set.mem_insert c Ω))

/-- In a maximal clique of a minimal triangulation, nonadjacent vertices see a
common component: otherwise the pair could be removed from the
triangulation. -/
theorem IsMinimalTriangulation.cliquish (h : G.IsMinimalTriangulation H)
    (hΩ : H.IsClique Ω) (hx : x ∈ Ω) (hy : y ∈ Ω) (hxy : x ≠ y)
    (hna : ¬G.Adj x y) :
    ∃ C, G.IsComponent Ω C ∧ x ∈ G.nbhd C ∧ y ∈ G.nbhd C := by
  by_contra hno
  push Not at hno
  set K := H.deleteEdges {s(x, y)} with hK
  have hadj : ∀ a b, K.Adj a b ↔ H.Adj a b ∧ s(a, b) ≠ s(x, y) := by
    intro a b
    simp [hK, deleteEdges_adj]
  have hKH : K ≤ H := deleteEdges_le _
  have hpair : ∀ {a b : V} {A : Set V}, s(a, b) = s(x, y) → a ∈ A → b ∈ A →
      x ∈ A ∧ y ∈ A := by
    intro a b A hab ha hb
    rcases Sym2.eq_iff.mp hab with ⟨rfl, rfl⟩ | ⟨rfl, rfl⟩
    · exact ⟨ha, hb⟩
    · exact ⟨hb, ha⟩
  have htri : G.IsTriangulation K := by
    refine ⟨fun a b hab => (hadj a b).mpr ⟨h.le hab, fun he => hna ?_⟩, ?_⟩
    · rcases Sym2.eq_iff.mp he with ⟨rfl, rfl⟩ | ⟨rfl, rfl⟩
      · exact hab
      · exact hab.symm
    refine isChordal_of_star (A := Ω) ?_ ?_
    · refine isChordal_of_one_missing (x := x) (y := y) ?_
      exact fun a ha b hb hab hne => (hadj a b).mpr ⟨hΩ ha hb hab, hne⟩
    · intro C hC
      have hCH : H.IsComponent Ω C :=
        { nonempty := hC.nonempty
          notMem := hC.notMem
          connected := hC.connected.mono hKH
          closed := fun u hu v huv hv => by
            refine hC.closed u hu v ((hadj u v).mpr ⟨huv, fun he => ?_⟩) hv
            rcases Sym2.eq_iff.mp he with ⟨rfl, rfl⟩ | ⟨rfl, rfl⟩
            · exact hC.notMem _ hu hx
            · exact hC.notMem _ hu hy }
      have hCG := (h.isComponent_iff hΩ).mp hCH
      have hN : K.nbhd C ⊆ G.nbhd C := by
        rintro v ⟨hv, u, hu, huv⟩
        exact (h.mem_or_mem_nbhd hΩ hCG hu (hKH huv)).resolve_left hv
      have hxyC : ¬(x ∈ C ∪ K.nbhd C ∧ y ∈ C ∪ K.nbhd C) := by
        rintro ⟨hx' | hx', hy' | hy'⟩
        · exact hC.notMem x hx' hx
        · exact hC.notMem x hx' hx
        · exact hC.notMem y hy' hy
        · exact hno C hCG (hN hx') (hN hy')
      constructor
      · intro a ha b hb hab
        refine (hadj a b).mpr
          ⟨hΩ (hC.nbhd_subset ha) (hC.nbhd_subset hb) hab, fun he => ?_⟩
        exact hxyC (hpair he (Or.inr ha) (Or.inr hb))
      · refine (h.chordal.within (C ∪ K.nbhd C)).congr ?_
        ext a b
        rw [within_adj, within_adj, hadj]
        exact ⟨fun hab => ⟨⟨hab.1, fun he => hxyC (hpair he hab.2.1 hab.2.2)⟩,
          hab.2⟩, fun hab => ⟨hab.1.1, hab.2⟩⟩
  have hlt := h.eq_of_le htri hKH
  have hxyH : K.Adj x y := hlt ▸ hΩ hx hy hxy
  exact ((hadj x y).mp hxyH).2 rfl

/-- The maximal cliques of minimal triangulations satisfy the local
conditions. -/
theorem IsMinimalTriangulation.isPmc [Finite V]
    (h : G.IsMinimalTriangulation H) (hΩ : Maximal H.IsClique Ω) :
    G.IsPmc Ω where
  no_full := fun _ hC => h.no_full hΩ hC
  cliquish := fun u hu v hv huv => by
    by_cases hna : G.Adj u v
    · exact Or.inl hna
    · exact Or.inr (h.cliquish hΩ.1 hu hv huv hna)

/-! ## Cutting a minimal triangulation into blocks -/

/-- Inside the block of a component of `G - Ω`, a minimal triangulation in
which `Ω` is a clique is a minimal triangulation of the realization. -/
theorem IsMinimalTriangulation.within_block (h : G.IsMinimalTriangulation H)
    (hΩ : H.IsClique Ω) (hC : G.IsComponent Ω C) :
    (G.realization (G.nbhd C) C).IsMinimalTriangulation
      (H.within (G.nbhd C ∪ C)) := by
  have hN : H.IsClique (G.nbhd C) := hΩ.subset hC.nbhd_subset
  refine ⟨⟨?_, h.chordal.within _⟩, ?_⟩
  · rintro u v (huv | huv)
    · exact ⟨h.le huv.1, huv.2⟩
    · exact ⟨hN huv.2.1 huv.2.2 huv.1, Or.inl huv.2.1, Or.inl huv.2.2⟩
  intro K hK hKH
  set L := K ⊔ H.within Cᶜ with hL
  have hLH : L ≤ H := sup_le (hKH.trans (within_le _)) (within_le _)
  have hcross : ∀ a ∈ G.nbhd C ∪ C, a ∉ Cᶜ → ∀ b ∈ Cᶜ, b ∉ G.nbhd C ∪ C →
      ¬H.Adj a b := by
    intro a _ haB b hb hbA hab
    have haC : a ∈ C := by simpa using haB
    rcases h.mem_or_mem_nbhd hΩ hC haC hab with hbC | hbN
    · exact hb hbC
    · exact hbA (Or.inl hbN)
  have hAB : ∀ v, v ∈ G.nbhd C ∪ C ∨ v ∈ Cᶜ := by
    intro v
    by_cases hv : v ∈ C <;> simp [hv]
  have hKclique : K.IsClique (G.nbhd C) := by
    refine completeOn_le_iff.mp (le_trans ?_ hK.le)
    exact le_sup_right
  have htri : G.IsTriangulation L := by
    refine ⟨fun u v huv => ?_, ?_⟩
    · by_cases hu : u ∈ G.nbhd C ∪ C ∧ v ∈ G.nbhd C ∪ C
      · exact Or.inl (hK.le (Or.inl ⟨huv, hu⟩))
      · refine Or.inr ⟨h.le huv, fun huC => ?_, fun hvC => ?_⟩
        · refine hu ⟨Or.inr huC, ?_⟩
          exact (h.mem_or_mem_nbhd hΩ hC huC (h.le huv)).symm
        · refine hu ⟨?_, Or.inr hvC⟩
          exact (h.mem_or_mem_nbhd hΩ hC hvC (h.le huv.symm)).symm
    · refine isChordal_of_glue hAB ?_
        (fun a ha haB b hb hbA hab => hcross a ha haB b hb hbA (hLH hab)) ?_ ?_
      · rintro u ⟨hu | hu, huC⟩ v ⟨hv | hv, hvC⟩ huv
        · exact Or.inl (hKclique hu hv huv)
        · exact absurd hv hvC
        · exact absurd hu huC
        · exact absurd hu huC
      · refine (hK.chordal.within (G.nbhd C ∪ C)).congr ?_
        ext u v
        constructor
        · exact fun huv => ⟨Or.inl huv.1, huv.2⟩
        · rintro ⟨huv | huv, hu, hv⟩
          · exact ⟨huv, hu, hv⟩
          · exact ⟨hKclique (hu.resolve_right huv.2.1)
              (hv.resolve_right huv.2.2) huv.1.ne, hu, hv⟩
      · refine (h.chordal.within Cᶜ).congr ?_
        ext u v
        exact ⟨fun huv => ⟨Or.inr huv, huv.2⟩, fun huv => ⟨hLH huv.1, huv.2⟩⟩
  rintro u v ⟨huv, hu, hv⟩
  rw [← h.eq_of_le htri hLH] at huv
  rcases huv with huv | huv
  · exact huv
  · exact hKclique (hu.resolve_right huv.2.1) (hv.resolve_right huv.2.2)
      huv.1.ne

end SimpleGraph
