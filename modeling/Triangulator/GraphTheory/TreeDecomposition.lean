import Triangulator.GraphTheory.MinimalTriangulation
import Mathlib.Combinatorics.SimpleGraph.Acyclic

/-!
# Tree decompositions

A tree decomposition of a family of vertex sets has a tree and a bag of vertices for
each of its nodes.  Every set of the family lies in a bag, and the nodes whose bags
contain a vertex are connected.  The graph that joins the vertices with a common bag
is chordal and each of its cliques lies in a bag; conversely, a chordal graph has a
tree decomposition into cliques.
-/

namespace SimpleGraph

variable {V ι : Type*} {T : SimpleGraph ι} {H : SimpleGraph V} {bag : ι → Set V}
  {A K : Set V} {i l p : ι} {u v : V}

/-! ## Leaves -/

/-- The vertex `l` has `p` as its only neighbour. -/
structure IsLeaf (T : SimpleGraph ι) (l p : ι) : Prop where
  adj : T.Adj l p
  eq : ∀ j, T.Adj l j → j = p

theorem IsTree.exists_isLeaf [Finite ι] [Nontrivial ι] (hT : T.IsTree) :
    ∃ l p, T.IsLeaf l p ∧ (T.induce {l}ᶜ).IsTree := by
  classical
  have := Fintype.ofFinite ι
  obtain ⟨l, hdeg⟩ := hT.exists_vert_degree_one_of_nontrivial
  obtain ⟨p, hadj, heq⟩ := degree_eq_one_iff_existsUnique_adj.mp hdeg
  exact ⟨l, p, ⟨hadj, heq⟩, hT.connected.induce_compl_singleton_of_degree_eq_one hdeg,
    hT.isAcyclic.induce _⟩

theorem IsLeaf.isSimplicialIn (h : T.IsLeaf l p) (X : Set ι) : T.IsSimplicialIn X l := by
  intro i hi j hj hij
  exact absurd ((h.eq i hi.1).trans (h.eq j hj.1).symm) hij

theorem IsConnectedSet.induce {B X : Set ι} (hX : T.IsConnectedSet X) (hXB : X ⊆ B) :
    (T.induce B).IsConnectedSet (Set.preimage Subtype.val X) := by
  intro i hi j hj
  have key : ∀ w, T.ReachIn X i w → ∀ hw : w ∈ B,
      (T.induce B).ReachIn (Set.preimage Subtype.val X) i ⟨w, hw⟩ := by
    intro w hw
    induction hw with
    | refl => exact fun _ => ReachIn.refl _
    | @tail b c hib hstep ih =>
        intro hc
        have hbX : b ∈ X := ReachIn.mem hib hi
        exact (ih (hXB hbX)).tail hstep.1 hstep.2
  exact key j (hX i hi j hj) j.2

theorem IsClique.isChordal_within (hK : H.IsClique K) : (H.within K).IsChordal := by
  apply (isChordal_top.within K).congr
  ext u v
  rw [within_adj, within_adj, top_adj]
  constructor
  · rintro ⟨huv, hu, hv⟩
    exact ⟨hK hu hv huv, hu, hv⟩
  · rintro ⟨huv, hu, hv⟩
    exact ⟨huv.ne, hu, hv⟩

/-! ## Trees of bags -/

/-- The nodes of a tree whose bags contain a given vertex are connected. -/
structure IsTreeOfBags (T : SimpleGraph ι) (bag : ι → Set V) : Prop where
  isTree : T.IsTree
  connected : ∀ v, T.IsConnectedSet {i | v ∈ bag i}

/-- The graph that joins the vertices with a common bag. -/
def bagGraph (bag : ι → Set V) : SimpleGraph V where
  Adj u v := u ≠ v ∧ ∃ i, u ∈ bag i ∧ v ∈ bag i
  symm := ⟨fun _ _ h => ⟨h.1.symm, h.2.imp fun _ hi => hi.symm⟩⟩
  loopless := ⟨fun _ h => h.1 rfl⟩

@[simp] theorem bagGraph_adj :
    (bagGraph bag).Adj u v ↔ u ≠ v ∧ ∃ i, u ∈ bag i ∧ v ∈ bag i :=
  Iff.rfl

theorem isClique_bag (i : ι) : (bagGraph bag).IsClique (bag i) :=
  fun _ hu _ hv huv => ⟨huv, i, hu, hv⟩

namespace IsTreeOfBags

/-- A vertex in the bag of a leaf and in another bag is in the bag next to the leaf. -/
theorem mem_of_isLeaf (h : IsTreeOfBags T bag) (hl : T.IsLeaf l p) (hv : v ∈ bag l)
    (hi : v ∈ bag i) (hil : i ≠ l) : v ∈ bag p := by
  obtain ⟨a, rfl, b, -, hb, hab⟩ := (h.connected v l hv i hi).exists_exit
    (A := {l}) rfl hil
  obtain rfl := hl.eq b hab
  exact hb

theorem induce (h : IsTreeOfBags T bag) (hl : T.IsLeaf l p) (hT : (T.induce {l}ᶜ).IsTree) :
    IsTreeOfBags (T.induce {l}ᶜ) fun i => bag i where
  isTree := hT
  connected := by
    intro v
    have hdiff := (h.connected v).diff_simplicial (hl.isSimplicialIn _)
    have hind := hdiff.induce (B := {l}ᶜ) fun i hi => hi.2
    have hset : Set.preimage Subtype.val ({i | v ∈ bag i} \ {l}) =
        {i : ↥({l}ᶜ : Set ι) | v ∈ bag i} := by
      ext i
      exact and_iff_left i.2
    rwa [hset] at hind

/-- Away from the vertices that only the bag of a leaf contains, the other bags join the
same vertices. -/
theorem bagGraph_induce (h : IsTreeOfBags T bag) (hl : T.IsLeaf l p) :
    bagGraph (fun i : ↥({l}ᶜ : Set ι) => bag i) =
      (bagGraph bag).within {v | v ∈ bag l → v ∈ bag p} := by
  have hpl : p ≠ l := hl.adj.ne'
  ext u v
  rw [within_adj, bagGraph_adj, bagGraph_adj]
  constructor
  · rintro ⟨huv, i, hu, hv⟩
    exact ⟨⟨huv, i, hu, hv⟩, fun hul => h.mem_of_isLeaf hl hul hu i.2,
      fun hvl => h.mem_of_isLeaf hl hvl hv i.2⟩
  · rintro ⟨⟨huv, i, hu, hv⟩, hup, hvp⟩
    by_cases hil : i = l
    · subst hil
      exact ⟨huv, ⟨p, hpl⟩, hup hu, hvp hv⟩
    · exact ⟨huv, ⟨i, hil⟩, hu, hv⟩

/-- The step of the induction on the tree: the bag of the leaf is glued to the graph of the
other bags. -/
theorem isChordal_of_leaf (h : IsTreeOfBags T bag) (hl : T.IsLeaf l p)
    (hrest : (bagGraph fun i : ↥({l}ᶜ : Set ι) => bag i).IsChordal) :
    (bagGraph bag).IsChordal := by
  rw [h.bagGraph_induce hl] at hrest
  have hAB : ∀ v, v ∈ bag l ∨ v ∈ {v | v ∈ bag l → v ∈ bag p} := by
    intro v
    by_cases hv : v ∈ bag l
    · exact Or.inl hv
    · exact Or.inr fun hvl => absurd hvl hv
  apply isChordal_of_glue hAB ((isClique_bag l).subset Set.inter_subset_left) ?_
    (isClique_bag l).isChordal_within hrest
  rintro a hal hap b - hbl ⟨-, i, hai, hbi⟩
  by_cases hil : i = l
  · subst hil
    exact hbl hbi
  · exact hap fun _ => h.mem_of_isLeaf hl hal hai hil

theorem isChordal [Finite ι] (h : IsTreeOfBags T bag) : (bagGraph bag).IsChordal := by
  induction hcard : Nat.card ι using Nat.strong_induction_on generalizing ι with
  | _ m ih =>
      rcases subsingleton_or_nontrivial ι with hsub | hnt
      · obtain ⟨i⟩ := h.isTree.connected.nonempty
        have hwithin : (bagGraph bag).within (bag i) = bagGraph bag := by
          ext u v
          rw [within_adj, and_iff_left_iff_imp]
          rintro ⟨-, j, hu, hv⟩
          rw [Subsingleton.elim i j]
          exact ⟨hu, hv⟩
        exact (isClique_bag i).isChordal_within.congr hwithin
      · obtain ⟨l, p, hl, hT⟩ := h.isTree.exists_isLeaf
        have hlt : Nat.card ↥({l}ᶜ : Set ι) < m := by
          rw [← hcard]
          exact Finite.card_subtype_lt (x := l) fun hl => hl rfl
        exact h.isChordal_of_leaf hl (ih _ hlt (h.induce hl hT) rfl)

/-- Every clique of covered vertices lies in a bag. -/
theorem exists_subset [Finite ι] (h : IsTreeOfBags T bag) (hK : (bagGraph bag).IsClique K)
    (hcov : ∀ v ∈ K, ∃ i, v ∈ bag i) : ∃ i, K ⊆ bag i := by
  induction hcard : Nat.card ι using Nat.strong_induction_on generalizing ι with
  | _ m ih =>
      rcases subsingleton_or_nontrivial ι with hsub | hnt
      · obtain ⟨i⟩ := h.isTree.connected.nonempty
        refine ⟨i, fun v hv => ?_⟩
        obtain ⟨j, hj⟩ := hcov v hv
        rwa [Subsingleton.elim i j]
      obtain ⟨l, p, hl, hT⟩ := h.isTree.exists_isLeaf
      by_cases hpriv : ∃ v ∈ K, v ∈ bag l ∧ v ∉ bag p
      · -- a vertex that only the leaf contains is adjacent to the rest of the clique
        obtain ⟨v, hv, hvl, hvp⟩ := hpriv
        refine ⟨l, fun u hu => ?_⟩
        by_cases huv : v = u
        · rwa [← huv]
        obtain ⟨-, i, hvi, hui⟩ := hK hv hu huv
        by_cases hil : i = l
        · rwa [← hil]
        · exact absurd (h.mem_of_isLeaf hl hvl hvi hil) hvp
      · have hmem : ∀ v ∈ K, v ∈ bag l → v ∈ bag p := fun v hv hvl => by
          by_contra hvp
          exact hpriv ⟨v, hv, hvl, hvp⟩
        have hclique : (bagGraph fun i : ↥({l}ᶜ : Set ι) => bag i).IsClique K := by
          rw [h.bagGraph_induce hl]
          exact fun u hu v hv huv => ⟨hK hu hv huv, hmem u hu, hmem v hv⟩
        have hlt : Nat.card ↥({l}ᶜ : Set ι) < m := by
          rw [← hcard]
          exact Finite.card_subtype_lt (x := l) fun hl => hl rfl
        have hcov' : ∀ v ∈ K, ∃ i : ↥({l}ᶜ : Set ι), v ∈ bag i := by
          intro v hv
          obtain ⟨i, hi⟩ := hcov v hv
          by_cases hil : i = l
          · subst hil
            exact ⟨⟨p, hl.adj.ne'⟩, hmem v hv hi⟩
          · exact ⟨⟨i, hil⟩, hi⟩
        obtain ⟨i, hi⟩ := ih _ hlt (h.induce hl hT) hclique hcov' rfl
        exact ⟨i, hi⟩

end IsTreeOfBags

/-! ## Adding a leaf -/

/-- The graph with a new leaf `none` next to `p`. -/
def addLeaf (T : SimpleGraph ι) (p : ι) : SimpleGraph (Option ι) where
  Adj
    | some i, some j => T.Adj i j
    | some i, none => i = p
    | none, some j => j = p
    | none, none => False
  symm := by
    constructor
    rintro (_ | i) (_ | j) h
    · exact h
    · exact h
    · exact h
    · exact SimpleGraph.Adj.symm h
  loopless := by
    constructor
    rintro (_ | i) h
    · exact h
    · exact T.irrefl h

@[simp] theorem addLeaf_adj_some {j : ι} :
    (T.addLeaf p).Adj (some i) (some j) ↔ T.Adj i j :=
  Iff.rfl

@[simp] theorem addLeaf_adj_none {j : ι} : (T.addLeaf p).Adj none (some j) ↔ j = p :=
  Iff.rfl

theorem ReachIn.addLeaf {X : Set ι} {Y : Set (Option ι)} {j : ι} (h : T.ReachIn X i j)
    (hXY : ∀ i ∈ X, some i ∈ Y) : (T.addLeaf p).ReachIn Y (some i) (some j) := by
  induction h with
  | refl => exact ReachIn.refl _
  | tail _ hstep ih => exact ih.tail (addLeaf_adj_some.mpr hstep.1) (hXY _ hstep.2)

theorem addLeaf_edgeSet :
    (T.addLeaf p).edgeSet = insert s(none, some p) (Sym2.map some '' T.edgeSet) := by
  ext e
  rw [Set.mem_insert_iff]
  constructor
  · induction e with
    | _ x y =>
        intro h
        change (T.addLeaf p).Adj x y at h
        rcases x with _ | i <;> rcases y with _ | j
        · exact absurd h (T.addLeaf p).irrefl
        · obtain rfl := addLeaf_adj_none.mp h
          exact Or.inl rfl
        · obtain rfl := addLeaf_adj_none.mp h.symm
          exact Or.inl Sym2.eq_swap
        · exact Or.inr ⟨s(i, j), h, rfl⟩
  · rintro (rfl | ⟨e, he, rfl⟩)
    · exact (addLeaf_adj_none (T := T)).mpr rfl
    · induction e with
      | _ i j => exact (addLeaf_adj_some (p := p)).mpr he

theorem IsTree.addLeaf [Finite ι] (hT : T.IsTree) (p : ι) : (T.addLeaf p).IsTree := by
  obtain ⟨hconn, hcard⟩ := isTree_iff_connected_and_card.mp hT
  rw [isTree_iff_connected_and_card]
  constructor
  · rw [connected_iff_exists_forall_reachable]
    refine ⟨some p, ?_⟩
    rintro (_ | i)
    · exact (addLeaf_adj_none.mpr rfl).symm.reachable
    · exact (hconn p i).map ⟨some, fun h => addLeaf_adj_some.mpr h⟩
  · have hnone : s(none, some p) ∉ Sym2.map some '' T.edgeSet := by
      rintro ⟨e, -, he⟩
      induction e with
      | _ i j => simp at he
    have hinj : Function.Injective (Sym2.map (some : ι → Option ι)) :=
      Sym2.map.injective (Option.some_injective ι)
    rw [addLeaf_edgeSet, Nat.card_coe_set_eq, Set.ncard_insert_of_notMem hnone,
      Set.ncard_image_of_injective _ hinj, ← Nat.card_coe_set_eq, hcard, Finite.card_option]

/-- A new leaf may contain vertices of its neighbour and one new vertex. -/
theorem IsTreeOfBags.addLeaf [Finite ι] (h : IsTreeOfBags T bag) (hK : K ⊆ bag p)
    (hv : ∀ i, v ∉ bag i) :
    IsTreeOfBags (T.addLeaf p) fun o => o.elim (insert v K) bag where
  isTree := h.isTree.addLeaf p
  connected := by
    intro u
    by_cases huv : u = v
    · subst huv
      rintro (_ | i) hi (_ | j) hj
      · exact ReachIn.refl _
      · exact absurd hj (hv j)
      · exact absurd hi (hv i)
      · exact absurd hi (hv i)
    have hmem : ∀ i, u ∈ bag i → ∀ j, u ∈ bag j →
        (T.addLeaf p).ReachIn {o | u ∈ o.elim (insert v K) bag} (some i) (some j) :=
      fun i hi j hj => (h.connected u i hi j hj).addLeaf fun _ hk => hk
    by_cases hu : u ∈ K
    · apply isConnectedSet_of_root (u := some p) (hK hu)
      rintro (_ | i) hi
      · exact ReachIn.of_adj (addLeaf_adj_none.mpr rfl).symm hi
      · exact hmem p (hK hu) i hi
    · have hnone : u ∉ insert v K := by
        rw [Set.mem_insert_iff]
        exact fun h => h.elim huv hu
      rintro (_ | i) hi (_ | j) hj
      · exact absurd hi hnone
      · exact absurd hi hnone
      · exact absurd hj hnone
      · exact hmem i hi j hj

/-- A chordal graph has a tree of cliques that covers a given set of vertices. -/
theorem IsChordal.exists_isTreeOfBags [Finite V] (hH : H.IsChordal) (A : Set V) :
    ∃ (ι : Type) (_ : Finite ι) (T : SimpleGraph ι) (bag : ι → Set V), IsTreeOfBags T bag ∧
      (∀ i, bag i ⊆ A ∧ H.IsClique (bag i)) ∧ (∀ v ∈ A, ∃ i, v ∈ bag i) ∧
      H.within A ≤ bagGraph bag := by
  induction hcard : A.ncard generalizing A with
  | zero =>
      obtain rfl := (Set.ncard_eq_zero (Set.toFinite A)).mp hcard
      exact ⟨Unit, inferInstance, ⊥, fun _ => ∅, ⟨IsTree.of_subsingleton, fun _ _ h => h.elim⟩,
        by simp, by simp, fun u v huv => absurd huv.2.1 (Set.notMem_empty u)⟩
  | succ m ih =>
      have hne : A.Nonempty := Set.nonempty_of_ncard_ne_zero (by omega)
      obtain ⟨s, hs, hsimp⟩ := hH.exists_simplicial hne
      obtain ⟨ι, hι, T, bag, htree, hbag, hcov, hle⟩ := ih (A \ {s})
        (by rw [Set.ncard_sdiff_singleton_of_mem hs, hcard, Nat.add_sub_cancel])
      have hN : H.neighborSet s ∩ A ⊆ A \ {s} := fun u hu => ⟨hu.2, fun h => by
        rw [Set.mem_singleton_iff] at h
        subst h
        exact H.irrefl hu.1⟩
      have hclique : (bagGraph bag).IsClique (H.neighborSet s ∩ A) := fun u hu w hw huw =>
        hle ⟨hsimp hu hw huw, hN hu, hN hw⟩
      obtain ⟨p, hp⟩ := htree.exists_subset hclique fun v hv => hcov v (hN hv)
      refine ⟨Option ι, inferInstance, T.addLeaf p, _,
        htree.addLeaf hp fun i hi => ((hbag i).1 hi).2 rfl, ?_, ?_, ?_⟩
      · rintro (_ | i)
        · refine ⟨Set.insert_subset hs Set.inter_subset_right, ?_⟩
          exact hsimp.insert fun u hu _ => hu.1
        · exact ⟨(hbag i).1.trans Set.sdiff_subset, (hbag i).2⟩
      · intro v hv
        by_cases hvs : v = s
        · exact ⟨none, Or.inl hvs⟩
        · obtain ⟨i, hi⟩ := hcov v ⟨hv, hvs⟩
          exact ⟨some i, hi⟩
      · rintro u v ⟨huv, hu, hv⟩
        refine ⟨huv.ne, ?_⟩
        by_cases hus : u = s
        · subst hus
          exact ⟨none, Or.inl rfl, Or.inr ⟨huv, hv⟩⟩
        by_cases hvs : v = s
        · subst hvs
          exact ⟨none, Or.inr ⟨huv.symm, hu⟩, Or.inl rfl⟩
        obtain ⟨-, i, hi⟩ := hle ⟨huv, ⟨hu, hus⟩, hv, hvs⟩
        exact ⟨some i, hi⟩

/-! ## Tree decompositions -/

/-- A tree decomposition of the family `E` of vertex sets. -/
structure TreeDecomposition (E : Set (Set V)) where
  Node : Type
  finite : Finite Node
  tree : SimpleGraph Node
  bag : Node → Set V
  isTreeOfBags : IsTreeOfBags tree bag
  vertex : ∀ v, ∃ i, v ∈ bag i
  edge : ∀ e ∈ E, ∃ i, e ⊆ bag i

/-- The graph that joins the vertices with a common set in `E`. -/
def primal (E : Set (Set V)) : SimpleGraph V where
  Adj u v := u ≠ v ∧ ∃ e ∈ E, u ∈ e ∧ v ∈ e
  symm := ⟨fun _ _ h => ⟨h.1.symm, h.2.imp fun _ he => ⟨he.1, he.2.symm⟩⟩⟩
  loopless := ⟨fun _ h => h.1 rfl⟩

/-- The bags of the tree decompositions are the cliques of the triangulations. -/
theorem exists_treeDecomposition_iff [Finite V] {E : Set (Set V)} {P : Set V → Prop}
    (hP : ∀ Q Q', P Q' → Q ⊆ Q' → P Q) :
    (∃ D : TreeDecomposition E, ∀ i, P (D.bag i)) ↔
      ∃ H, (primal E).IsTriangulation H ∧ ∀ Q, H.IsClique Q → P Q := by
  constructor
  · rintro ⟨D, hD⟩
    have := D.finite
    refine ⟨bagGraph D.bag, ⟨?_, D.isTreeOfBags.isChordal⟩, fun Q hQ => ?_⟩
    · rintro u v ⟨huv, e, he, hu, hv⟩
      obtain ⟨i, hi⟩ := D.edge e he
      exact ⟨huv, i, hi hu, hi hv⟩
    · obtain ⟨i, hi⟩ := D.isTreeOfBags.exists_subset hQ fun v _ => D.vertex v
      exact hP Q _ (hD i) hi
  · rintro ⟨H, hH, hcliques⟩
    obtain ⟨ι, hι, T, bag, htree, hbag, hcov, hle⟩ := hH.chordal.exists_isTreeOfBags Set.univ
    refine ⟨⟨ι, hι, T, bag, htree, fun v => hcov v trivial, fun e he => ?_⟩,
      fun i => hcliques _ (hbag i).2⟩
    have hclique : (bagGraph bag).IsClique e := fun u hu v hv huv =>
      hle ⟨hH.le ⟨huv, e, he, hu, hv⟩, trivial, trivial⟩
    exact htree.exists_subset hclique fun v _ => hcov v trivial

end SimpleGraph
