import Triangulator.GraphTheory.Reduction

/-!
# Decompositions by clique separators

Components behind a clique are cut off one after the other, each together with
the clique, until a connected rest is left.  The pieces of such a decomposition
are reduced separately.
-/

namespace SimpleGraph

variable {V : Type*} {G P : SimpleGraph V} {A C R S : Set V} {L L' : List (Set V)}
  {b : ℕ} {u v : V}

/-- The vertex set `R` is cut into the pieces of the list. -/
inductive IsCliqueDecomposition (G : SimpleGraph V) : Set V → List (Set V) → Prop
  | rest {R : Set V} (hne : R.Nonempty) (hconn : G.IsConnectedSet R) :
      IsCliqueDecomposition G R [R]
  | split {R C S : Set V} {L : List (Set V)} (hC : C ⊆ R) (hne : C.Nonempty)
      (hS : S ⊆ R \ C) (hclique : G.IsClique S)
      (hclosed : ∀ c ∈ C, ∀ v ∈ R, G.Adj c v → v ∈ C ∪ S) (hproper : ∃ v ∈ R, v ∉ C ∪ S)
      (hL : IsCliqueDecomposition G (R \ C) L) :
      IsCliqueDecomposition G R ((C ∪ S) :: L)

namespace IsCliqueDecomposition

theorem ne_nil (h : G.IsCliqueDecomposition R L) : L ≠ [] := by
  cases h <;> exact List.cons_ne_nil _ _

theorem subset (h : G.IsCliqueDecomposition R L) : ∀ A ∈ L, A ⊆ R := by
  induction h with
  | rest _ _ =>
      intro A hA
      rw [List.mem_singleton] at hA
      exact hA.subset
  | split hC _ hS _ _ _ _ ih =>
      intro A hA
      rcases List.mem_cons.mp hA with rfl | hA
      · exact Set.union_subset hC (hS.trans Set.sdiff_subset)
      · exact (ih A hA).trans Set.sdiff_subset

/-- In a decomposition into several pieces every piece leaves out a vertex. -/
theorem exists_notMem (h : G.IsCliqueDecomposition R L) (hL : L.length ≠ 1) :
    ∀ A ∈ L, ∃ v ∈ R, v ∉ A := by
  cases h with
  | rest _ _ => exact absurd rfl hL
  | split hC hne _ _ _ hproper hrest =>
      intro A hA
      rcases List.mem_cons.mp hA with rfl | hA
      · exact hproper
      · obtain ⟨c, hc⟩ := hne
        exact ⟨c, hC hc, fun hcA => (hrest.subset A hA hcA).2 hc⟩

/-- The rest is everything when there is only one piece. -/
theorem eq_of_length_one (h : G.IsCliqueDecomposition R L) (hL : L.length = 1) :
    L = [R] ∧ R.Nonempty ∧ G.IsConnectedSet R := by
  cases h with
  | rest hne hconn => exact ⟨rfl, hne, hconn⟩
  | split _ _ _ _ _ _ hrest =>
      have hnil := List.length_eq_zero_iff.mp (Nat.succ_injective hL)
      exact absurd hnil hrest.ne_nil

theorem within_within (hAR : A ⊆ R) : (P.within R).within A = P.within A := by
  ext u v
  rw [within_adj, within_adj, within_adj]
  constructor
  · intro h
    exact ⟨h.1.1, h.2⟩
  · intro h
    exact ⟨⟨h.1, hAR h.2.1, hAR h.2.2⟩, h.2⟩

/-- The pieces are reduced separately; an entry of `T` holds a piece, its fill edges and
its parts. -/
theorem completes [Finite V] (h : P.IsCliqueDecomposition R L)
    (T : List (Set V × List (V × V) × List (SimpleGraph V))) (hT : T.map Prod.fst = L)
    (hred : ∀ t ∈ T, (P.within t.1).Completes b t.2.1 t.2.2) :
    (P.within R).Completes b (T.flatMap fun t => t.2.1) (T.flatMap fun t => t.2.2) := by
  induction h generalizing T with
  | rest _ _ =>
      obtain ⟨t, T', rfl, rfl, hT'⟩ := List.map_eq_cons_iff.mp hT
      rw [List.map_eq_nil_iff] at hT'
      subst hT'
      simpa using hred t (List.mem_singleton_self t)
  | @split R C S L hC _ hS hclique hclosed _ _ ih =>
      obtain ⟨t, T', rfl, ht, hT'⟩ := List.map_eq_cons_iff.mp hT
      have hhead := hred t List.mem_cons_self
      have htail := ih T' hT' fun t' ht' => hred t' (List.mem_cons_of_mem t ht')
      rw [List.flatMap_cons, List.flatMap_cons]
      have hCS : C ∪ S ⊆ R := Set.union_subset hC (hS.trans Set.sdiff_subset)
      have hside : (P.within R).within Cᶜ = P.within (R \ C) := by
        ext u v
        rw [within_adj, within_adj, within_adj]
        constructor
        · intro h
          exact ⟨h.1.1, ⟨h.1.2.1, h.2.1⟩, h.1.2.2, h.2.2⟩
        · intro h
          exact ⟨⟨h.1, h.2.1.1, h.2.2.1⟩, h.2.1.2, h.2.2.2⟩
      apply Completes.glue (A := C ∪ S) (B := Cᶜ)
      · intro v
        exact (em (v ∈ C)).imp Or.inl id
      · -- The two sides meet in the clique.
        rintro u ⟨hu, huC⟩ v ⟨hv, hvC⟩ huv
        have huS := hu.resolve_left huC
        have hvS := hv.resolve_left hvC
        exact ⟨hclique huS hvS huv, (hS huS).1, (hS hvS).1⟩
      · intro a _ haC c _ hcA hadj
        have ha : a ∈ C := Set.notMem_compl_iff.mp haC
        exact hcA (hclosed a ha c hadj.2.2 hadj.1)
      · rw [within_within hCS, ← ht]
        exact hhead
      · rw [hside]
        exact htail

/-- The image of a decomposition. -/
theorem map {W : Type*} {f : V ↪ W} (h : G.IsCliqueDecomposition R L) :
    (G.map f).IsCliqueDecomposition (f '' R) (L.map fun A => f '' A) := by
  induction h with
  | @rest R hne hconn =>
      apply IsCliqueDecomposition.rest (hne.image f)
      rintro _ ⟨u, hu, rfl⟩ _ ⟨v, hv, rfl⟩
      exact (hconn u hu v hv).lift f fun a b h => ⟨map_adj_apply.mpr h.1, b, h.2, rfl⟩
  | @split R C S L hC hne hS hclique hclosed hproper _ ih =>
      rw [List.map_cons, Set.image_union]
      apply IsCliqueDecomposition.split (Set.image_mono hC) (hne.image f)
      · rw [← Set.image_sdiff f.injective]
        exact Set.image_mono hS
      · rintro _ ⟨u, hu, rfl⟩ _ ⟨v, hv, rfl⟩ huv
        exact map_adj_apply.mpr (hclique hu hv fun h => huv (congrArg f h))
      · rintro _ ⟨c, hc, rfl⟩ _ ⟨v, hv, rfl⟩ hcv
        rw [← Set.image_union]
        exact ⟨v, hclosed c hc v hv (map_adj_apply.mp hcv), rfl⟩
      · obtain ⟨v, hv, hvn⟩ := hproper
        refine ⟨f v, ⟨v, hv, rfl⟩, ?_⟩
        rw [← Set.image_union, f.injective.mem_set_image]
        exact hvn
      · rwa [← Set.image_sdiff f.injective]

end IsCliqueDecomposition

/-! ## Graphs without clique separators -/

/-- No clique separates two vertices of `A` in the graph inside `A`. -/
def IsInseparable (G : SimpleGraph V) (A : Set V) : Prop :=
  ∀ S, G.IsClique S → ∀ u ∈ A, u ∉ S → ∀ v ∈ A, v ∉ S → G.ReachIn (A \ S) u v

/-- In an inseparable graph a vertex whose neighbours form a clique sees all others. -/
theorem IsInseparable.adj_of_simplicial {x : V} (h : G.IsInseparable A)
    (hx : x ∈ A) (hclique : G.IsClique (G.neighborSet x ∩ A)) (hv : v ∈ A) (hvx : v ≠ x) :
    G.Adj x v := by
  by_contra hna
  have hreach := h _ hclique x hx (fun hmem => G.loopless.irrefl x hmem.1) v hv
    fun hmem => hna hmem.1
  -- The first step leads to a neighbour, which the clique contains.
  obtain ⟨a, rfl, c, -, hcA, hac⟩ := hreach.exists_exit (A := {x}) rfl hvx
  exact hcA.2 ⟨hac, hcA.1⟩

theorem IsInseparable.comap {W : Type*} {f : W ↪ V} (h : G.IsInseparable (Set.range f)) :
    (G.comap f).IsInseparable Set.univ := by
  intro S hS u _ hu v _ hv
  have hclique : G.IsClique (f '' S) := by
    rintro _ ⟨a, ha, rfl⟩ _ ⟨b, hb, rfl⟩ hab
    exact hS ha hb fun h => hab (congrArg f h)
  have hnot : ∀ w, w ∉ S → f w ∉ f '' S := fun w hw hmem =>
    hw ((f.injective.mem_set_image).mp hmem)
  have key : ∀ x, G.ReachIn (Set.range f \ f '' S) (f u) x → ∀ w, f w = x →
      (G.comap f).ReachIn (Set.univ \ S) u w := by
    intro x hx
    induction hx with
    | refl =>
        intro w hw
        rw [f.injective hw]
        exact ReachIn.refl _
    | @tail b c hub hstep ih =>
        rintro w rfl
        obtain ⟨a, rfl⟩ : b ∈ Set.range f := (ReachIn.mem hub ⟨⟨u, rfl⟩, hnot u hu⟩).1
        have hwS : w ∉ S := fun hw => hstep.2.2 ⟨w, hw, rfl⟩
        exact (ih a rfl).tail hstep.1 ⟨trivial, hwS⟩
  exact key _ (h _ hclique _ ⟨u, rfl⟩ (hnot u hu) _ ⟨v, rfl⟩ (hnot v hv)) v rfl

end SimpleGraph
