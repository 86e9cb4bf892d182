import Triangulator.GraphTheory.BlockRecurrence
import Triangulator.GraphTheory.Fill

/-!
# Treewidth

The treewidth of a graph is the least width of its triangulations.  Lower bounds
come from vertices of large degree and from a connected set attached to a whole
clique.
-/

namespace SimpleGraph

variable {V : Type*} {G H : SimpleGraph V} {A D K : Set V} {F : List (V × V)}
  {k : ℕ} {u v x z : V}

/-- The minimum over all triangulations of the largest clique size minus one. -/
noncomputable def treewidth (G : SimpleGraph V) : ℕ :=
  sInf ((fun H : SimpleGraph V => H.cliqueNum - 1) '' {H | G.IsTriangulation H})

/-- Some triangulation has the least width. -/
theorem exists_treewidth (G : SimpleGraph V) :
    ∃ H, G.IsTriangulation H ∧ H.cliqueNum - 1 = G.treewidth :=
  Nat.sInf_mem (Set.Nonempty.image _ ⟨⊤, isTriangulation_top G⟩)

theorem IsTriangulation.treewidth_le (h : G.IsTriangulation H)
    (hk : H.cliqueNum ≤ k + 1) : G.treewidth ≤ k := by
  have hle : G.treewidth ≤ H.cliqueNum - 1 := Nat.sInf_le ⟨H, h, rfl⟩
  exact hle.trans (Nat.sub_le_iff_le_add.mpr hk)

theorem treewidth_le_iff :
    G.treewidth ≤ k ↔ ∃ H, G.IsTriangulation H ∧ H.cliqueNum ≤ k + 1 := by
  constructor
  · intro h
    obtain ⟨H, hH, hw⟩ := G.exists_treewidth
    exact ⟨H, hH, Nat.sub_le_iff_le_add.mp (hw.trans_le h)⟩
  · intro h
    obtain ⟨H, hH, hk⟩ := h
    exact hH.treewidth_le hk

/-- Minimal triangulations attain the treewidth. -/
theorem treewidth_le_iff_minimal [Finite V] :
    G.treewidth ≤ k ↔ ∃ H, G.IsMinimalTriangulation H ∧ H.cliqueNum ≤ k + 1 := by
  rw [treewidth_le_iff]
  constructor
  · rintro ⟨T, hT, hk⟩
    obtain ⟨H, hHT, hH⟩ := hT.exists_minimal_le
    exact ⟨H, hH, (cliqueNum_mono_graph hHT).trans hk⟩
  · rintro ⟨H, hH, hk⟩
    exact ⟨H, hH.prop, hk⟩

theorem le_treewidth (h : ∀ H, G.IsTriangulation H → k + 1 ≤ H.cliqueNum) :
    k ≤ G.treewidth := by
  obtain ⟨H, hH, hw⟩ := G.exists_treewidth
  have hk := h H hH
  rw [← hw]
  exact Nat.le_sub_one_of_lt hk

theorem IsTriangulation.mono {G' : SimpleGraph V} (hGG : G ≤ G')
    (h : G'.IsTriangulation H) : G.IsTriangulation H :=
  ⟨hGG.trans h.le, h.chordal⟩

theorem treewidth_mono (h : G ≤ H) : G.treewidth ≤ H.treewidth := by
  obtain ⟨K, hK, hk⟩ := treewidth_le_iff.mp (le_refl H.treewidth)
  exact (hK.mono h).treewidth_le hk

theorem isTriangulation_self (hG : G.IsChordal) : G.IsTriangulation G :=
  ⟨le_rfl, hG⟩

theorem IsChordal.treewidth_eq [Finite V] (hG : G.IsChordal) :
    G.treewidth = G.cliqueNum - 1 := by
  apply le_antisymm
  · exact (isTriangulation_self hG).treewidth_le (Nat.sub_le_iff_le_add.mp le_rfl)
  · obtain ⟨H, hH, hw⟩ := G.exists_treewidth
    rw [← hw]
    exact Nat.sub_le_sub_right (cliqueNum_mono_graph hH.le) 1

theorem IsChordal.cliqueNum_eq [Finite V] [Nonempty V] (hG : G.IsChordal) :
    G.cliqueNum = G.treewidth + 1 := by
  rw [hG.treewidth_eq]
  exact (Nat.sub_add_cancel cliqueNum_pos).symm

/-! ## The largest treewidth -/

theorem treewidth_lt_card [Finite V] [Nonempty V] (G : SimpleGraph V) :
    G.treewidth < Nat.card V := by
  obtain ⟨m, hm⟩ := Nat.exists_eq_succ_of_ne_zero (Nat.card_pos (α := V)).ne'
  rw [hm, Nat.lt_succ_iff]
  apply (isTriangulation_top G).treewidth_le
  rw [cliqueNum_le_iff]
  intro Q _
  rw [← Nat.succ_eq_add_one, ← hm]
  exact Set.ncard_le_card Q

theorem treewidth_top [Finite V] [Nonempty V] :
    (⊤ : SimpleGraph V).treewidth + 1 = Nat.card V := by
  apply le_antisymm (treewidth_lt_card ⊤)
  rw [← isChordal_top.cliqueNum_eq, ← Set.ncard_univ]
  apply IsClique.ncard_le_cliqueNum
  intro u _ v _ huv
  exact huv

/-- Only complete graphs have the largest treewidth. -/
theorem treewidth_lt_of_ne_top [Finite V] (h : G ≠ ⊤) : G.treewidth + 1 < Nat.card V := by
  obtain ⟨x, z, hxz, hadj⟩ : ∃ x z, x ≠ z ∧ ¬G.Adj x z := by
    by_contra hall
    push Not at hall
    apply h
    ext u v
    exact ⟨fun huv => huv.ne, fun huv => hall u v huv⟩
  -- All pairs but this one make a triangulation.
  set H : SimpleGraph V := (⊤ : SimpleGraph V).deleteEdges {s(x, z)} with hH
  have hHadj : ∀ u v, H.Adj u v ↔ u ≠ v ∧ s(u, v) ≠ s(x, z) := by
    intro u v
    rw [hH, deleteEdges_adj, top_adj, Set.mem_singleton_iff]
  have hle : G ≤ H := by
    intro u v huv
    refine (hHadj u v).mpr ⟨huv.ne, fun heq => hadj ?_⟩
    rcases Sym2.eq_iff.mp heq with ⟨rfl, rfl⟩ | ⟨rfl, rfl⟩
    · exact huv
    · exact huv.symm
  have hchordal : H.IsChordal := by
    have huniv : (H.within Set.univ).IsChordal :=
      isChordal_of_one_missing (x := x) (y := z) fun a _ b _ hab hne =>
        (hHadj a b).mpr ⟨hab, hne⟩
    apply huniv.congr
    ext u v
    rw [within_adj]
    exact and_iff_left ⟨trivial, trivial⟩
  have hclique : ∀ Q, H.IsClique Q → Q.ncard < Nat.card V := by
    intro Q hQ
    rw [← Set.ncard_univ]
    refine Set.ncard_lt_ncard ?_ Set.finite_univ
    rw [Set.ssubset_univ_iff]
    rintro rfl
    exact ((hHadj x z).mp (hQ trivial trivial hxz)).2 rfl
  have hpair : 2 ≤ Nat.card V := by
    rw [← Set.ncard_pair hxz]
    exact Set.ncard_le_card _
  obtain ⟨m, hm⟩ := Nat.exists_eq_add_of_le' hpair
  rw [hm, Nat.succ_lt_succ_iff, Nat.lt_succ_iff]
  apply IsTriangulation.treewidth_le ⟨hle, hchordal⟩
  rw [cliqueNum_le_iff]
  intro Q hQ
  have hlt := hclique Q hQ
  rw [hm] at hlt
  exact Nat.lt_succ_iff.mp hlt

/-! ## Vertices of large degree -/

/-- A graph in which every vertex of `A` has `k` neighbours inside `A`. -/
theorem le_treewidth_of_degree [Finite V] (hA : A.Nonempty)
    (h : ∀ v ∈ A, k ≤ (G.neighborSet v ∩ A).ncard) : k ≤ G.treewidth := by
  apply le_treewidth
  intro H hH
  obtain ⟨s, hsA, hs⟩ := hH.chordal.exists_simplicial hA
  have hsub : G.neighborSet s ∩ A ⊆ H.neighborSet s ∩ A :=
    Set.inter_subset_inter_left A fun v hv => hH.le hv
  have hcard := (h s hsA).trans (Set.ncard_le_ncard hsub (Set.toFinite _))
  -- A simplicial vertex forms a clique with its neighbours.
  have hclique : H.IsClique (insert s (H.neighborSet s ∩ A)) := by
    refine hs.insert ?_
    intro v hv _
    exact hv.1
  have hnot : s ∉ H.neighborSet s ∩ A := fun hmem => H.loopless.irrefl s hmem.1
  have hle := hclique.ncard_le_cliqueNum
  rw [Set.ncard_insert_of_notMem hnot (Set.toFinite _)] at hle
  exact (Nat.add_le_add_right hcard 1).trans hle

/-- A connected set attached to every vertex of a clique contributes one more vertex
to the clique in every triangulation. -/
theorem ncard_le_treewidth [Finite V] (hK : G.IsClique K)
    (hD : G.IsConnectedSet D) (hne : D.Nonempty) (hdisj : ∀ v ∈ D, v ∉ K)
    (hN : ∀ t ∈ K, ∃ d ∈ D, G.Adj d t) : K.ncard ≤ G.treewidth := by
  apply le_treewidth
  intro H hH
  have hKH : H.IsClique K := hK.mono_graph hH.le
  obtain ⟨d, hdD, hd⟩ := hH.chordal.exists_adj_clique (hD.mono hH.le) hne hKH hdisj
    fun t ht => by
      obtain ⟨d, hdD, hdt⟩ := hN t ht
      exact ⟨d, hdD, hH.le hdt⟩
  have hclique : H.IsClique (insert d K) :=
    hKH.insert fun t ht _ => hd t ht
  have hle := hclique.ncard_le_cliqueNum
  rwa [Set.ncard_insert_of_notMem (hdisj d hdD) (Set.toFinite _)] at hle

/-- A vertex set that is a clique but for one pair, whose ends are attached to a
connected set outside. -/
theorem ncard_le_of_joined [Finite V] (hzK : z ∈ K) (hxz : x ≠ z)
    (hx : G.IsClique (K \ {z})) (hz : G.IsClique (K \ {x})) (hD : G.IsConnectedSet D)
    (hDK : ∀ v ∈ D, v ∉ K) (hxD : ∃ d ∈ D, G.Adj d x) (hzD : ∃ d ∈ D, G.Adj d z) :
    K.ncard ≤ G.treewidth + 1 := by
  obtain ⟨c, hcD, hcx⟩ := hxD
  obtain ⟨d, hdD, hdz⟩ := hzD
  have hconn : G.IsConnectedSet (D ∪ {z}) :=
    hD.union (isConnectedSet_singleton z) hdD rfl (Or.inr hdz)
  have hdisj : ∀ v ∈ D ∪ {z}, v ∉ K \ {z} := by
    intro v hv hmem
    rcases hv with hv | hv
    · exact hDK v hv hmem.1
    · exact hmem.2 hv
  have hle := ncard_le_treewidth hx hconn ⟨z, Or.inr rfl⟩ hdisj fun t ht => by
    by_cases htx : t = x
    · exact ⟨c, Or.inl hcD, htx ▸ hcx⟩
    · exact ⟨z, Or.inr rfl, hz ⟨hzK, hxz.symm⟩ ⟨ht.1, htx⟩ fun h => ht.2 h.symm⟩
  rwa [Set.ncard_sdiff_singleton_of_mem hzK, Nat.sub_le_iff_le_add] at hle

/-! ## One missing edge -/

section OneEdge

variable (hGH : ∀ a b, H.Adj a b → s(a, b) ≠ s(x, z) → G.Adj a b)
include hGH

theorem isClique_diff_of_one_edge (hK : H.IsClique K) (hu : u = x ∨ u = z) :
    G.IsClique (K \ {u}) := by
  intro a ha b hb hab
  apply hGH a b (hK ha.1 hb.1 hab)
  intro heq
  have hau : a ≠ u := ha.2
  have hbu : b ≠ u := hb.2
  rcases Sym2.eq_iff.mp heq with ⟨rfl, rfl⟩ | ⟨rfl, rfl⟩
  · rcases hu with rfl | rfl
    · exact hau rfl
    · exact hbu rfl
  · rcases hu with rfl | rfl
    · exact hbu rfl
    · exact hau rfl

/-- A minimal triangulation that adds one edge has the least width. -/
theorem IsMinimalTriangulation.cliqueNum_le_of_one_edge [Finite V]
    (h : G.IsMinimalTriangulation H) : H.cliqueNum ≤ G.treewidth + 1 := by
  rw [cliqueNum_le_iff]
  intro Q hQ
  by_cases hG : G.IsClique Q
  · obtain ⟨T, hT, hk⟩ := treewidth_le_iff.mp (le_refl G.treewidth)
    exact (hG.mono_graph hT.le).ncard_le_cliqueNum.trans hk
  -- Otherwise the clique contains the added edge, whose ends see a common component.
  have hmem : ∃ a ∈ Q, ∃ b ∈ Q, a ≠ b ∧ ¬G.Adj a b := by
    by_contra hno
    apply hG
    intro a ha b hb hab
    by_contra hna
    exact hno ⟨a, ha, b, hb, hab, hna⟩
  obtain ⟨M, hQM, hM⟩ := hQ.exists_maximal
  apply (Set.ncard_le_ncard hQM (Set.toFinite _)).trans
  obtain ⟨a, ha, b, hb, hab, hna⟩ := hmem
  have heq : s(a, b) = s(x, z) := by
    by_contra hne
    exact hna (hGH a b (hQ ha hb hab) hne)
  have hends : (a = x ∨ a = z) ∧ (b = x ∨ b = z) := by
    rcases Sym2.eq_iff.mp heq with ⟨hax, hbz⟩ | ⟨haz, hbx⟩
    · exact ⟨Or.inl hax, Or.inr hbz⟩
    · exact ⟨Or.inr haz, Or.inl hbx⟩
  obtain ⟨C, hC, ⟨-, hCa⟩, -, hCb⟩ := h.cliquish hM.1 (hQM ha) (hQM hb) hab hna
  exact ncard_le_of_joined (hQM hb) hab
    (isClique_diff_of_one_edge hGH hM.1 hends.2)
    (isClique_diff_of_one_edge hGH hM.1 hends.1) hC.connected hC.notMem hCa hCb

end OneEdge

/-- A minimal triangulation with at most one fill edge has the least width. -/
theorem IsMinimalTriangulation.treewidth_eq [Finite V]
    (h : G.IsMinimalTriangulation (G.addFill F)) (hF : F.length ≤ 1) :
    G.treewidth = (G.addFill F).cliqueNum - 1 := by
  apply le_antisymm
  · exact h.1.treewidth_le (Nat.sub_le_iff_le_add.mp le_rfl)
  · apply Nat.sub_le_iff_le_add.mpr
    cases F with
    | nil =>
      have hG : G.IsChordal := by simpa using h.chordal
      rw [addFill_nil, hG.treewidth_eq]
      exact Nat.sub_le_iff_le_add.mp le_rfl
    | cons e F =>
      have hnil : F = [] :=
        List.length_eq_zero_iff.mp (Nat.le_zero.mp (Nat.le_of_succ_le_succ hF))
      subst hnil
      apply h.cliqueNum_le_of_one_edge (x := e.1) (z := e.2)
      intro a b hab hne
      rcases addFill_adj.mp hab with hG | ⟨-, hmem⟩
      · exact hG
      · exact absurd (by simpa using hmem) hne

/-! ## Embedded graphs -/

section Embedded

variable {W : Type*} {f : V ↪ W}

theorem IsChordal.comap {T : SimpleGraph W} (hT : T.IsChordal) : (T.comap f).IsChordal := by
  intro k hk
  constructor
  intro e
  exact (hT k hk).false ((Embedding.comap f T).comp e)

theorem IsChordal.map (hG : G.IsChordal) : (G.map f).IsChordal := by
  rw [isChordal_iff_no_hole] at hG ⊢
  intro k g hg
  -- Every vertex of a hole has a neighbour, so it is the image of a vertex.
  have hrange : ∀ t < k, ∃ v, f v = g t := by
    intro t ht
    have hk := hg.four_le
    by_cases h : t + 1 < k
    · obtain ⟨a, b, -, ha, -⟩ := map_adj f G _ _ |>.mp (hg.adj_succ h)
      exact ⟨a, ha⟩
    · obtain ⟨a, b, -, -, hb⟩ := map_adj f G _ _ |>.mp hg.adj_last
      have htk : t = k - 1 := by omega
      exact ⟨b, htk ▸ hb⟩
  have hcast : ∀ t : ℕ, ∃ v, t < k → f v = g t := by
    intro t
    by_cases ht : t < k
    · obtain ⟨v, hv⟩ := hrange t ht
      exact ⟨v, fun _ => hv⟩
    · obtain ⟨v, -⟩ := hrange 0 (Nat.lt_of_lt_of_le (by norm_num) hg.four_le)
      exact ⟨v, fun h => absurd h ht⟩
  choose p hp using hcast
  refine hG k p ⟨hg.four_le, ?_, ?_⟩
  · intro s hs t ht hst
    apply hg.inj s hs t ht
    rw [← hp s hs, ← hp t ht, hst]
  · intro s t hst ht
    rw [← hg.adj_iff s t hst ht, ← hp s (hst.trans ht), ← hp t ht, map_adj_apply]

theorem cliqueNum_comap_le [Finite V] [Finite W] {T : SimpleGraph W} :
    (T.comap f).cliqueNum ≤ T.cliqueNum := by
  rw [cliqueNum_le_iff]
  intro Q hQ
  rw [← Set.ncard_image_of_injective Q f.injective]
  apply IsClique.ncard_le_cliqueNum
  rintro _ ⟨a, ha, rfl⟩ _ ⟨b, hb, rfl⟩ hab
  exact hQ ha hb fun h => hab (congrArg f h)

/-- Vertices outside the image are isolated and only matter when nothing else is
there. -/
theorem cliqueNum_map_le [Finite V] [Finite W] (h : G.cliqueNum ≤ k + 1) :
    (G.map f).cliqueNum ≤ k + 1 := by
  rw [cliqueNum_le_iff]
  intro Q hQ
  by_cases hone : Q.ncard ≤ 1
  · exact hone.trans (Nat.le_add_left 1 k)
  have hrange : Q ⊆ Set.range f := by
    intro q hq
    obtain ⟨r, hr, hne⟩ := Set.exists_ne_of_one_lt_ncard (Nat.lt_of_not_le hone) q
    obtain ⟨a, b, -, ha, -⟩ := map_adj f G _ _ |>.mp (hQ hq hr hne.symm)
    exact ⟨a, ha⟩
  rw [← Set.image_preimage_eq_of_subset hrange, Set.ncard_image_of_injective _ f.injective]
  refine le_trans (IsClique.ncard_le_cliqueNum ?_) h
  intro a ha b hb hab
  have hmap := hQ ha hb fun h => hab (f.injective h)
  rwa [map_adj_apply] at hmap

theorem treewidth_map [Finite V] [Finite W] (f : V ↪ W) :
    (G.map f).treewidth = G.treewidth := by
  apply le_antisymm
  · obtain ⟨H, hH, hk⟩ := treewidth_le_iff.mp (le_refl G.treewidth)
    have hT : (G.map f).IsTriangulation (H.map f) := ⟨map_monotone f hH.le, hH.chordal.map⟩
    exact hT.treewidth_le (cliqueNum_map_le hk)
  · obtain ⟨T, hT, hk⟩ := treewidth_le_iff.mp (le_refl (G.map f).treewidth)
    have hH : G.IsTriangulation (T.comap f) :=
      ⟨map_le_iff_le_comap f G T |>.mp hT.le, hT.chordal.comap⟩
    exact hH.treewidth_le (cliqueNum_comap_le.trans hk)

end Embedded

end SimpleGraph
