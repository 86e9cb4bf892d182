import Triangulator.GraphTheory.AtomPieces
import Triangulator.GraphTheory.TreeDecomposition

/-!
# Generalized hypertree width

The width of a tree decomposition of a family of vertex sets is the largest number of
sets of the family that a bag needs for its cover.  The least width is determined by the
triangulations of the primal graph, so that it can be computed on the pieces of a
decomposition by clique separators, each with the traces of the family on it.
-/

namespace SimpleGraph

variable {V W : Type*} {G H : SimpleGraph V} {E : Set (Set V)} {A B C Q R S : Set V}
  {L : List (Set V)} {P : Set V → Prop} {k k' : ℕ} {u v : V}

/-! ## Triangulations with bounded cliques -/

/-- The subgraph on `A` has a triangulation whose cliques in `A` satisfy `P`. -/
def HasCliqueBound (G : SimpleGraph V) (A : Set V) (P : Set V → Prop) : Prop :=
  ∃ H, (G.within A).IsTriangulation H ∧ ∀ Q ⊆ A, H.IsClique Q → P Q

theorem hasCliqueBound_univ :
    G.HasCliqueBound Set.univ P ↔
      ∃ H, G.IsTriangulation H ∧ ∀ Q, H.IsClique Q → P Q := by
  have huniv : G.within Set.univ = G := by
    ext u v
    simp
  rw [HasCliqueBound, huniv]
  simp only [Set.subset_univ, true_implies]

theorem HasCliqueBound.subset (h : G.HasCliqueBound B P) (hAB : A ⊆ B) :
    G.HasCliqueBound A P := by
  obtain ⟨H, hH, hQ⟩ := h
  refine ⟨H.within A, ⟨?_, hH.chordal.within A⟩, fun Q hQA hclique => ?_⟩
  · rintro u v ⟨huv, hu, hv⟩
    exact ⟨hH.le ⟨huv, hAB hu, hAB hv⟩, hu, hv⟩
  · exact hQ Q (hQA.trans hAB) (hclique.mono_graph (within_le A))

/-- A vertex set that is a clique has the bound when it satisfies the condition. -/
theorem HasCliqueBound.of_isClique (hA : G.IsClique A) (hP : ∀ Q ⊆ A, P Q) :
    G.HasCliqueBound A P :=
  ⟨G.within A, ⟨le_rfl, hA.isChordal_within⟩, fun Q hQ _ => hP Q hQ⟩

/-- Triangulations of the two sides of a clique separator are glued together. -/
theorem HasCliqueBound.glue (hS : S ⊆ R \ C) (hclique : G.IsClique S)
    (hclosed : ∀ c ∈ C, ∀ v ∈ R, G.Adj c v → v ∈ C ∪ S)
    (h₁ : G.HasCliqueBound (C ∪ S) P) (h₂ : G.HasCliqueBound (R \ C) P) :
    G.HasCliqueBound R P := by
  obtain ⟨H₁, hH₁, hQ₁⟩ := h₁
  obtain ⟨H₂, hH₂, hQ₂⟩ := h₂
  set H := H₁.within (C ∪ S) ⊔ H₂.within (R \ C) with hH
  have hS₁ : ∀ u ∈ S, ∀ v ∈ S, u ≠ v → H₁.Adj u v := fun u hu v hv huv =>
    hH₁.le ⟨hclique hu hv huv, Or.inr hu, Or.inr hv⟩
  have hS₂ : ∀ u ∈ S, ∀ v ∈ S, u ≠ v → H₂.Adj u v := fun u hu v hv huv =>
    hH₂.le ⟨hclique hu hv huv, hS hu, hS hv⟩
  have hmemS : ∀ v ∈ C ∪ S, v ∉ C → v ∈ S := fun v hv hvC => hv.resolve_left hvC
  have hleft : H.within (C ∪ S) = H₁.within (C ∪ S) := by
    ext u v
    rw [within_adj, within_adj]
    constructor
    · rintro ⟨huv | huv, hu, hv⟩
      · exact huv
      · exact ⟨hS₁ u (hmemS u hu huv.2.1.2) v (hmemS v hv huv.2.2.2) huv.1.ne, hu, hv⟩
    · rintro ⟨huv, hu, hv⟩
      exact ⟨Or.inl ⟨huv, hu, hv⟩, hu, hv⟩
  have hright : H.within Cᶜ = H₂.within (R \ C) := by
    ext u v
    rw [within_adj, within_adj]
    constructor
    · rintro ⟨huv | huv, hu, hv⟩
      · have huS := hmemS u huv.2.1 hu
        have hvS := hmemS v huv.2.2 hv
        exact ⟨hS₂ u huS v hvS huv.1.ne, hS huS, hS hvS⟩
      · exact huv
    · rintro ⟨huv, hu, hv⟩
      exact ⟨Or.inr ⟨huv, hu, hv⟩, hu.2, hv.2⟩
  have hcross : ∀ c ∈ C, ∀ v, v ∉ C ∪ S → ¬H.Adj c v := by
    rintro c hc v hv (huv | huv)
    · exact hv huv.2.2
    · exact huv.2.1.2 hc
  refine ⟨H, ⟨?_, ?_⟩, ?_⟩
  · rintro u v ⟨huv, hu, hv⟩
    by_cases huC : u ∈ C
    · have hvCS := hclosed u huC v hv huv
      exact Or.inl ⟨hH₁.le ⟨huv, Or.inl huC, hvCS⟩, Or.inl huC, hvCS⟩
    by_cases hvC : v ∈ C
    · have huCS := hclosed v hvC u hu huv.symm
      exact Or.inl ⟨hH₁.le ⟨huv, huCS, Or.inl hvC⟩, huCS, Or.inl hvC⟩
    · exact Or.inr ⟨hH₂.le ⟨huv, ⟨hu, huC⟩, hv, hvC⟩, ⟨hu, huC⟩, hv, hvC⟩
  · apply isChordal_of_glue (A := C ∪ S) (B := Cᶜ)
    · intro v
      by_cases hv : v ∈ C
      · exact Or.inl (Or.inl hv)
      · exact Or.inr hv
    · rintro u ⟨hu, huC⟩ v ⟨hv, hvC⟩ huv
      have huS := hmemS u hu huC
      have hvS := hmemS v hv hvC
      exact Or.inr ⟨hS₂ u huS v hvS huv, hS huS, hS hvS⟩
    · exact fun a _ haC b _ hb => hcross a (not_not.mp haC) b hb
    · exact (hH₁.chordal.within _).congr hleft.symm
    · exact (hH₂.chordal.within _).congr hright.symm
  · intro Q hQR hQ
    by_cases hQC : ∃ c ∈ Q, c ∈ C
    · obtain ⟨c, hcQ, hc⟩ := hQC
      have hsub : Q ⊆ C ∪ S := by
        intro v hv
        by_contra hvCS
        have hcv : c ≠ v := fun h => hvCS (h ▸ Or.inl hc)
        exact hcross c hc v hvCS (hQ hcQ hv hcv)
      refine hQ₁ Q hsub fun u hu v hv huv => ?_
      have hadj : (H.within (C ∪ S)).Adj u v := ⟨hQ hu hv huv, hsub hu, hsub hv⟩
      rw [hleft] at hadj
      exact hadj.1
    · have hnot : ∀ v ∈ Q, v ∉ C := fun v hv hvC => hQC ⟨v, hv, hvC⟩
      refine hQ₂ Q (fun v hv => ⟨hQR hv, hnot v hv⟩) fun u hu v hv huv => ?_
      have hadj : (H.within Cᶜ).Adj u v := ⟨hQ hu hv huv, hnot u hu, hnot v hv⟩
      rw [hright] at hadj
      exact hadj.1

theorem IsCliqueDecomposition.hasCliqueBound_iff (h : G.IsCliqueDecomposition R L) :
    G.HasCliqueBound R P ↔ ∀ A ∈ L, G.HasCliqueBound A P := by
  constructor
  · intro hR A hA
    exact hR.subset (h.subset A hA)
  · induction h with
    | rest _ _ => exact fun h => h _ (List.mem_singleton_self _)
    | split _ _ hS hclique hclosed _ _ ih =>
        intro hL
        have hrest := ih fun A hA => hL A (List.mem_cons_of_mem _ hA)
        exact HasCliqueBound.glue hS hclique hclosed (hL _ List.mem_cons_self) hrest

/-- The bound on the range of an embedding is one on the embedded graph. -/
theorem hasCliqueBound_range_iff {f : W ↪ V} :
    G.HasCliqueBound (Set.range f) P ↔
      (G.comap f).HasCliqueBound Set.univ fun Q => P (f '' Q) := by
  rw [hasCliqueBound_univ]
  constructor
  · rintro ⟨H, hH, hQ⟩
    refine ⟨H.comap f, ⟨fun u v huv => hH.le ⟨huv, ⟨u, rfl⟩, v, rfl⟩, hH.chordal.comap⟩,
      fun Q hclique => hQ _ (Set.image_subset_range f Q) ?_⟩
    rintro _ ⟨a, ha, rfl⟩ _ ⟨b, hb, rfl⟩ hab
    exact hclique ha hb fun h => hab (congrArg f h)
  · rintro ⟨H, hH, hQ⟩
    refine ⟨H.map f, ⟨?_, hH.chordal.map⟩, fun Q hsub hclique => ?_⟩
    · rintro _ _ ⟨huv, ⟨u, rfl⟩, v, rfl⟩
      exact (map_adj_apply ..).mpr (hH.le huv)
    · rw [← Set.image_preimage_eq_of_subset hsub]
      refine hQ _ fun a ha b hb hab => ?_
      have hadj := hclique ha hb fun h => hab (f.injective h)
      rwa [map_adj_apply] at hadj

/-! ## Covers -/

/-- At most `k` sets of the family cover `Q`. -/
def IsCovered (E : Set (Set V)) (k : ℕ) (Q : Set V) : Prop :=
  ∃ F : Finset (Set V), (∀ e ∈ F, e ∈ E) ∧ F.card ≤ k ∧ ∀ v ∈ Q, ∃ e ∈ F, v ∈ e

theorem IsCovered.mono (h : IsCovered E k Q) (hk : k ≤ k') : IsCovered E k' Q := by
  obtain ⟨F, hF, hcard, hQ⟩ := h
  exact ⟨F, hF, hcard.trans hk, hQ⟩

theorem IsCovered.subset (h : IsCovered E k B) (hAB : A ⊆ B) : IsCovered E k A := by
  obtain ⟨F, hF, hcard, hQ⟩ := h
  exact ⟨F, hF, hcard, fun v hv => hQ v (hAB hv)⟩

theorem isCovered_singleton (hE : ∀ v, ∃ e ∈ E, v ∈ e) (v : V) (hk : 1 ≤ k) :
    IsCovered E k {v} := by
  obtain ⟨e, he, hv⟩ := hE v
  refine ⟨{e}, ?_, by simpa using hk, ?_⟩
  · intro e' he'
    rwa [Finset.mem_singleton.mp he']
  · rintro _ rfl
    exact ⟨e, Finset.mem_singleton_self e, hv⟩

theorem not_isCovered_zero (hv : v ∈ Q) : ¬IsCovered E 0 Q := by
  rintro ⟨F, -, hcard, hQ⟩
  obtain ⟨e, he, -⟩ := hQ v hv
  rw [Finset.card_eq_zero.mp (Nat.le_zero.mp hcard)] at he
  exact absurd he (Finset.notMem_empty e)

/-- The whole family covers everything. -/
theorem isCovered_ncard [Finite V] (hE : ∀ v, ∃ e ∈ E, v ∈ e) (Q : Set V) :
    IsCovered E E.ncard Q := by
  refine ⟨(Set.toFinite E).toFinset, ?_, ?_, fun v _ => ?_⟩
  · intro e he
    exact (Set.Finite.mem_toFinset _).mp he
  · rw [Set.ncard_eq_toFinset_card E]
  · obtain ⟨e, he, hv⟩ := hE v
    exact ⟨e, (Set.Finite.mem_toFinset _).mpr he, hv⟩

/-- A finite set needs at most as many sets as it has vertices. -/
theorem isCovered_card [Finite V] (hE : ∀ v, ∃ e ∈ E, v ∈ e) (Q : Set V) :
    IsCovered E (Nat.card V) Q := by
  classical
  have := Fintype.ofFinite V
  choose c hc hmem using hE
  refine ⟨Finset.univ.image c, ?_, ?_, fun v _ => ⟨c v, ?_, hmem v⟩⟩
  · intro e he
    obtain ⟨v, -, rfl⟩ := Finset.mem_image.mp he
    exact hc v
  · rw [Nat.card_eq_fintype_card]
    exact Finset.card_image_le
  · exact Finset.mem_image_of_mem c (Finset.mem_univ v)

/-! ## The width -/

/-- The generalized hypertree width: the least number of sets of the family that suffices
for the cover of each bag of some tree decomposition. -/
noncomputable def hypertreeWidth (E : Set (Set V)) : ℕ :=
  sInf {k | ∃ D : TreeDecomposition E, ∀ i, IsCovered E k (D.bag i)}

theorem exists_treeDecomposition_iff_hasCliqueBound [Finite V] :
    (∃ D : TreeDecomposition E, ∀ i, IsCovered E k (D.bag i)) ↔
      (primal E).HasCliqueBound Set.univ (IsCovered E k) := by
  rw [hasCliqueBound_univ]
  exact exists_treeDecomposition_iff fun Q Q' h hsub => h.subset hsub

/-- The least width is attained. -/
theorem isLeast_hypertreeWidth [Finite V] (hE : ∀ v, ∃ e ∈ E, v ∈ e) :
    IsLeast {k | ∃ D : TreeDecomposition E, ∀ i, IsCovered E k (D.bag i)}
      (hypertreeWidth E) := by
  have hne : {k | ∃ D : TreeDecomposition E, ∀ i, IsCovered E k (D.bag i)}.Nonempty :=
    ⟨Nat.card V, exists_treeDecomposition_iff_hasCliqueBound.mpr (hasCliqueBound_univ.mpr
      ⟨⊤, isTriangulation_top _, fun Q _ => isCovered_card hE Q⟩)⟩
  exact ⟨Nat.sInf_mem hne, fun k hk => Nat.sInf_le hk⟩

theorem hypertreeWidth_le_iff [Finite V] (hE : ∀ v, ∃ e ∈ E, v ∈ e) :
    hypertreeWidth E ≤ k ↔ (primal E).HasCliqueBound Set.univ (IsCovered E k) := by
  have hleast := isLeast_hypertreeWidth hE
  rw [← exists_treeDecomposition_iff_hasCliqueBound]
  constructor
  · intro h
    obtain ⟨D, hD⟩ := hleast.1
    exact ⟨D, fun i => (hD i).mono h⟩
  · exact fun h => hleast.2 h

/-- Minimal triangulations and their maximal cliques suffice. -/
theorem hypertreeWidth_le_iff_minimal [Finite V] (hE : ∀ v, ∃ e ∈ E, v ∈ e) :
    hypertreeWidth E ≤ k ↔ ∃ H, (primal E).IsMinimalTriangulation H ∧
      ∀ Q, Maximal H.IsClique Q → IsCovered E k Q := by
  rw [hypertreeWidth_le_iff hE, hasCliqueBound_univ]
  constructor
  · rintro ⟨H, hH, hQ⟩
    obtain ⟨K, hKH, hK⟩ := hH.exists_minimal_le
    exact ⟨K, hK, fun Q hQK => hQ Q (hQK.prop.mono_graph hKH)⟩
  · rintro ⟨H, hH, hQ⟩
    refine ⟨H, hH.prop, fun Q hclique => ?_⟩
    obtain ⟨M, hQM, hM⟩ := (Set.toFinite {Q | H.IsClique Q}).exists_le_maximal hclique
    exact (hQ M hM).subset hQM

theorem one_le_hypertreeWidth [Finite V] [Nonempty V] (hE : ∀ v, ∃ e ∈ E, v ∈ e) :
    1 ≤ hypertreeWidth E := by
  by_contra hlt
  obtain ⟨H, -, hQ⟩ := hasCliqueBound_univ.mp
    ((hypertreeWidth_le_iff hE).mp (Nat.lt_one_iff.mp (Nat.lt_of_not_le hlt)).le)
  obtain ⟨v⟩ := ‹Nonempty V›
  exact not_isCovered_zero (Set.mem_singleton v) (hQ {v} (Set.pairwise_singleton v _))

/-- The decomposition into a single bag. -/
theorem IsCovered.hypertreeWidth_le [Finite V] (hE : ∀ v, ∃ e ∈ E, v ∈ e)
    (h : IsCovered E k Set.univ) : hypertreeWidth E ≤ k := by
  rw [hypertreeWidth_le_iff hE, hasCliqueBound_univ]
  exact ⟨⊤, isTriangulation_top _, fun Q _ => h.subset (Set.subset_univ Q)⟩

/-! ## Traces -/

/-- The intersections with the range of an embedding that have two vertices. -/
def trace (E : Set (Set V)) (f : W ↪ V) : Set (Set W) :=
  {t | t.Nontrivial ∧ ∃ e ∈ E, t = Set.preimage f e}

theorem primal_trace {f : W ↪ V} : primal (trace E f) = (primal E).comap f := by
  ext u v
  constructor
  · rintro ⟨huv, _, ⟨-, e, he, rfl⟩, hu, hv⟩
    exact ⟨fun h => huv (f.injective h), e, he, hu, hv⟩
  · rintro ⟨huv, e, he, hu, hv⟩
    have hne : u ≠ v := fun h => huv (congrArg f h)
    exact ⟨hne, _, ⟨⟨u, hu, v, hv, hne⟩, e, he, rfl⟩, hu, hv⟩

/-- The dropped intersections are not missed: where a cover uses one for a vertex, another
trace with that vertex does. -/
theorem isCovered_trace_iff {f : W ↪ V} {Q : Set W} (hW : ∀ w, ∃ t ∈ trace E f, w ∈ t) :
    IsCovered (trace E f) k Q ↔ IsCovered E k (f '' Q) := by
  classical
  constructor
  · rintro ⟨F, hF, hcard, hQ⟩
    have horigin : ∀ t : Set W, ∃ e : Set V, t ∈ trace E f → e ∈ E ∧ t = Set.preimage f e := by
      intro t
      by_cases ht : t ∈ trace E f
      · obtain ⟨e, he, heq⟩ := ht.2
        exact ⟨e, fun _ => ⟨he, heq⟩⟩
      · exact ⟨∅, fun h => absurd h ht⟩
    choose o ho using horigin
    refine ⟨F.image o, ?_, Finset.card_image_le.trans hcard, ?_⟩
    · intro e he
      obtain ⟨t, ht, rfl⟩ := Finset.mem_image.mp he
      exact (ho t (hF t ht)).1
    · rintro _ ⟨w, hw, rfl⟩
      obtain ⟨t, ht, hwt⟩ := hQ w hw
      refine ⟨o t, Finset.mem_image_of_mem o ht, ?_⟩
      rw [(ho t (hF t ht)).2] at hwt
      exact hwt
  · rintro ⟨F, hF, hcard, hQ⟩
    have htrace : ∀ e : Set V, ∃ t : Set W, e ∈ E → (Set.preimage f e).Nonempty →
        t ∈ trace E f ∧ Set.preimage f e ⊆ t := by
      intro e
      rcases (Set.preimage f e).eq_empty_or_nonempty with hempty | ⟨w, hw⟩
      · exact ⟨∅, fun _ h => absurd h (Set.not_nonempty_iff_eq_empty.mpr hempty)⟩
      rcases Set.subsingleton_or_nontrivial (s := Set.preimage f e) with hsub | hnt
      · obtain ⟨t, ht, hwt⟩ := hW w
        exact ⟨t, fun _ _ => ⟨ht, fun u hu => hsub hw hu ▸ hwt⟩⟩
      · exact ⟨_, fun he _ => ⟨⟨hnt, e, he, rfl⟩, subset_rfl⟩⟩
    choose t ht using htrace
    refine ⟨(F.filter fun e => (Set.preimage f e).Nonempty).image t, ?_, ?_, ?_⟩
    · intro d hd
      obtain ⟨e, he, rfl⟩ := Finset.mem_image.mp hd
      obtain ⟨heF, hne⟩ := Finset.mem_filter.mp he
      exact (ht e (hF e heF) hne).1
    · exact Finset.card_image_le.trans ((Finset.card_filter_le _ _).trans hcard)
    · intro w hw
      obtain ⟨e, he, hwe⟩ := hQ _ ⟨w, hw, rfl⟩
      have hne : (Set.preimage f e).Nonempty := ⟨w, hwe⟩
      exact ⟨t e, Finset.mem_image_of_mem t (Finset.mem_filter.mpr ⟨he, hne⟩),
        (ht e (hF e he) hne).2 hwe⟩

theorem hypertreeWidth_trace_le_iff [Finite W] {f : W ↪ V}
    (hW : ∀ w, ∃ t ∈ trace E f, w ∈ t) :
    hypertreeWidth (trace E f) ≤ k ↔
      (primal E).HasCliqueBound (Set.range f) (IsCovered E k) := by
  rw [hypertreeWidth_le_iff hW, hasCliqueBound_range_iff, primal_trace]
  have hcov : IsCovered (trace E f) k = fun Q => IsCovered E k (f '' Q) :=
    funext fun Q => propext (isCovered_trace_iff hW)
  rw [hcov]

/-! ## Families without a clique separator -/

/-- When no clique separates the primal graph, one set is not needed to cover all
vertices.  A set with a vertex of its own is the closed neighbourhood of that vertex, and
such a neighbourhood is everything. -/
theorem isCovered_pred_of_isInseparable [Finite V] (hE : ∀ v, ∃ e ∈ E, v ∈ e)
    (hsep : (primal E).IsInseparable Set.univ) (h2 : 2 ≤ E.ncard) :
    IsCovered E (E.ncard - 1) Set.univ := by
  classical
  have huniv : ∀ e ∈ E, (∃ v ∈ e, ∀ d ∈ E, v ∈ d → d = e) → e = Set.univ := by
    rintro e he ⟨v, hv, hown⟩
    have hnbr : ∀ u, (primal E).Adj v u → u ∈ e := by
      rintro u ⟨-, d, hd, hvd, hud⟩
      rwa [← hown d hd hvd]
    have hclique : (primal E).IsClique ((primal E).neighborSet v ∩ Set.univ) :=
      fun a ha b hb hab => ⟨hab, e, he, hnbr a ha.1, hnbr b hb.1⟩
    rw [Set.eq_univ_iff_forall]
    intro u
    by_cases huv : u = v
    · rwa [huv]
    · exact hnbr u (hsep.adj_of_simplicial trivial hclique trivial huv)
  obtain ⟨d, hd, e, he, hde⟩ := (Set.one_lt_ncard (Set.toFinite E)).mp h2
  have hshared : ∃ e ∈ E, ∀ v ∈ e, ∃ d ∈ E, v ∈ d ∧ d ≠ e := by
    by_contra hno
    have hown : ∀ e ∈ E, ∃ v ∈ e, ∀ d ∈ E, v ∈ d → d = e := by
      intro e he
      by_contra hne
      refine hno ⟨e, he, fun v hv => ?_⟩
      by_contra hv'
      exact hne ⟨v, hv, fun d hd hvd => by_contra fun hde => hv' ⟨d, hd, hvd, hde⟩⟩
    exact hde ((huniv d hd (hown d hd)).trans (huniv e he (hown e he)).symm)
  obtain ⟨e, he, hshare⟩ := hshared
  refine ⟨(Set.toFinite E).toFinset.erase e, ?_, ?_, fun v _ => ?_⟩
  · intro d hd
    exact (Set.Finite.mem_toFinset _).mp (Finset.mem_of_mem_erase hd)
  · rw [Finset.card_erase_of_mem ((Set.Finite.mem_toFinset _).mpr he),
      Set.ncard_eq_toFinset_card E]
  · obtain ⟨d, hd, hvd⟩ := hE v
    by_cases hde : d = e
    · obtain ⟨c, hc, hvc, hce⟩ := hshare v (hde ▸ hvd)
      exact ⟨c, Finset.mem_erase.mpr ⟨hce, (Set.Finite.mem_toFinset _).mpr hc⟩, hvc⟩
    · exact ⟨d, Finset.mem_erase.mpr ⟨hde, (Set.Finite.mem_toFinset _).mpr hd⟩, hvd⟩

end SimpleGraph
