import Triangulator.GraphTheory.Completion

/-!
# Width-preserving reductions

A reduction replaces a graph by a lower bound, some fill edges and a list of
smaller graphs.  Whatever completions of the smaller graphs are chosen, they
complete the graph together with the fill edges, and the width of the result is
the maximum of the bound and the widths of the parts.
-/

namespace SimpleGraph

variable {V : Type*} {P P' Q : SimpleGraph V} {A B : Set V} {F F' f : List (V × V)}
  {I I' : List (SimpleGraph V)} {e : V × V} {b b' k : ℕ} {u v x : V}

/-- Every part of `I` has been given a completion. -/
structure IsSelection (I : List (SimpleGraph V)) (S : List (SimpleGraph V × List (V × V))) :
    Prop where
  parts : S.map Prod.fst = I
  completion : ∀ s ∈ S, s.1.IsCompletion s.2

/-- The fill edges and the completions of the parts complete the graph, without an edge
missing from the completions of the parts and without a clique larger than the bound
and these completions allow. -/
structure Completes (P : SimpleGraph V) (b : ℕ) (F : List (V × V))
    (I : List (SimpleGraph V)) : Prop where
  completion : ∀ S, IsSelection I S → P.IsCompletion (F ++ S.flatMap Prod.snd)
  le : ∀ S, IsSelection I S → ∀ s ∈ S, s.1.addFill s.2 ≤ P.addFill (F ++ S.flatMap Prod.snd)
  cliqueNum_le : ∀ k S, IsSelection I S → (∀ s ∈ S, (s.1.addFill s.2).cliqueNum ≤ k + 1) →
    b ≤ k → (P.addFill (F ++ S.flatMap Prod.snd)).cliqueNum ≤ k + 1

/-- A reduction whose bound and whose parts do not exceed the treewidth. -/
structure IsReduction (P : SimpleGraph V) (b : ℕ) (F : List (V × V))
    (I : List (SimpleGraph V)) : Prop extends P.Completes b F I where
  bound_le : b ≤ P.treewidth
  part_le : ∀ Q ∈ I, Q.treewidth ≤ P.treewidth

namespace IsSelection

variable {S : List (SimpleGraph V × List (V × V))}

theorem of_append (h : IsSelection (I ++ I') S) :
    ∃ T T', S = T ++ T' ∧ IsSelection I T ∧ IsSelection I' T' := by
  obtain ⟨T, T', rfl, hT, hT'⟩ := List.map_eq_append_iff.mp h.parts
  exact ⟨T, T', rfl, ⟨hT, fun s hs => h.completion s (List.mem_append_left _ hs)⟩,
    ⟨hT', fun s hs => h.completion s (List.mem_append_right _ hs)⟩⟩

theorem append {S' : List (SimpleGraph V × List (V × V))} (h : IsSelection I S)
    (h' : IsSelection I' S') : IsSelection (I ++ I') (S ++ S') where
  parts := by rw [List.map_append, h.parts, h'.parts]
  completion := by
    intro s hs
    rcases List.mem_append.mp hs with hs | hs
    · exact h.completion s hs
    · exact h'.completion s hs

theorem singleton (h : Q.IsCompletion f) : IsSelection [Q] [(Q, f)] where
  parts := rfl
  completion := by
    intro s hs
    rw [List.mem_singleton] at hs
    exact hs ▸ h

theorem eq_nil (h : IsSelection [] S) : S = [] :=
  List.map_eq_nil_iff.mp h.parts

theorem eq_singleton (h : IsSelection [Q] S) : ∃ f, S = [(Q, f)] ∧ Q.IsCompletion f := by
  obtain ⟨s, T, rfl, rfl, hT⟩ := List.map_eq_cons_iff.mp h.parts
  rw [List.map_eq_nil_iff] at hT
  subst hT
  exact ⟨s.2, rfl, h.completion s (List.mem_singleton_self s)⟩

end IsSelection

/-- Parts can be completed at their own treewidths. -/
theorem exists_isSelection [Finite V] (I : List (SimpleGraph V)) :
    ∃ S, IsSelection I S ∧ ∀ s ∈ S, (s.1.addFill s.2).cliqueNum ≤ s.1.treewidth + 1 := by
  induction I with
  | nil => exact ⟨[], ⟨rfl, by simp⟩, by simp⟩
  | cons Q I ih =>
    obtain ⟨S, hS, hw⟩ := ih
    obtain ⟨f, hf, hk⟩ := exists_isCompletion Q
    refine ⟨(Q, f) :: S, (IsSelection.singleton hf).append hS, ?_⟩
    intro s hs
    rcases List.mem_cons.mp hs with rfl | hs
    · exact hk
    · exact hw s hs

theorem neighborSet_addFill_of_adj (hu : P.Adj x u) (hv : P.Adj x v) :
    (P.addFill [(u, v)]).neighborSet x = P.neighborSet x := by
  ext t
  rw [mem_neighborSet, mem_neighborSet, addFill_adj]
  refine ⟨fun h => h.resolve_right ?_, Or.inl⟩
  rintro ⟨-, hmem⟩
  have heq : s(x, t) = s(u, v) := by simpa using hmem
  rcases Sym2.eq_iff.mp heq with ⟨hxu, -⟩ | ⟨hxv, -⟩
  · exact hu.ne hxu
  · exact hv.ne hxv

namespace Completes

theorem raise (h : P.Completes b F I) (hb : b ≤ b') : P.Completes b' F I where
  completion := h.completion
  le := h.le
  cliqueNum_le := fun k S hS hk hbk => h.cliqueNum_le k S hS hk (hb.trans hbk)

/-- The graph is complete. -/
theorem leaf (h : P.IsCompletion F) (hb : (P.addFill F).cliqueNum ≤ b + 1) :
    P.Completes b F [] where
  completion := by
    intro S hS
    simpa [hS.eq_nil] using h
  le := by
    intro S hS
    simp [hS.eq_nil]
  cliqueNum_le := by
    intro k S hS _ hbk
    simpa [hS.eq_nil] using hb.trans (Nat.add_le_add_right hbk 1)

/-- The graph is left to be solved. -/
theorem part : P.Completes b [] [P] where
  completion := by
    intro S hS
    obtain ⟨f, rfl, hf⟩ := hS.eq_singleton
    simpa using hf
  le := by
    intro S hS
    obtain ⟨f, rfl, -⟩ := hS.eq_singleton
    simp
  cliqueNum_le := by
    intro k S hS hk _
    obtain ⟨f, rfl, -⟩ := hS.eq_singleton
    simpa using hk

/-- A part with a known completion of small width needs not be solved. -/
theorem drop (h : P.Completes b F (I ++ Q :: I')) (hf : Q.IsCompletion f)
    (hb : (Q.addFill f).cliqueNum ≤ b + 1) : P.Completes b (F ++ f) (I ++ I') := by
  -- A choice for the other parts is a choice for all parts with `f` put in.
  have hput : ∀ S, IsSelection (I ++ I') S → ∃ T, IsSelection (I ++ Q :: I') T ∧
      (∀ s, s ∈ T ↔ s ∈ S ∨ s = (Q, f)) ∧
      (F ++ T.flatMap Prod.snd).Perm (F ++ f ++ S.flatMap Prod.snd) := by
    intro S hS
    obtain ⟨T, T', rfl, hT, hT'⟩ := hS.of_append
    refine ⟨T ++ ([(Q, f)] ++ T'), hT.append ((IsSelection.singleton hf).append hT'), ?_, ?_⟩
    · intro s
      rw [List.mem_append, List.mem_append, List.mem_append, List.mem_singleton]
      tauto
    · rw [List.flatMap_append, List.flatMap_append, List.flatMap_append, List.append_assoc]
      refine List.Perm.append_left F ?_
      have hsingle : [(Q, f)].flatMap Prod.snd = f := by simp
      rw [hsingle, ← List.append_assoc, ← List.append_assoc]
      exact List.Perm.append_right _ List.perm_append_comm
  constructor
  · intro S hS
    obtain ⟨T, hT, -, hperm⟩ := hput S hS
    exact (h.completion T hT).perm hperm
  · intro S hS s hs
    obtain ⟨T, hT, hmem, hperm⟩ := hput S hS
    have hle := h.le T hT s ((hmem s).mpr (Or.inl hs))
    rwa [addFill_perm hperm] at hle
  · intro k S hS hk hbk
    obtain ⟨T, hT, hmem, hperm⟩ := hput S hS
    rw [← addFill_perm hperm]
    apply h.cliqueNum_le k T hT _ hbk
    intro s hs
    rcases (hmem s).mp hs with hs | rfl
    · exact hk s hs
    · exact hb.trans (Nat.add_le_add_right hbk 1)

/-- An edge is added before the reduction goes on. -/
theorem addEdge (h : (P.addFill [e]).Completes b F I) (hne : e.1 ≠ e.2)
    (hna : ¬P.Adj e.1 e.2) (he : e.1 ∈ P.support ∧ e.2 ∈ P.support) :
    P.Completes b (e :: F) I := by
  have hfill : ∀ l, P.addFill (e :: l) = (P.addFill [e]).addFill l :=
    fun l => addFill_append (F := [e])
  have hsupp : ∀ x ∈ [e], x.1 ∈ P.support ∧ x.2 ∈ P.support := by
    intro x hx
    rw [List.mem_singleton] at hx
    exact hx ▸ he
  have hone : P.IsFill [e] := by
    constructor
    · intro p hp
      rw [List.mem_singleton] at hp
      exact hp ▸ ⟨hne, hna⟩
    · exact List.nodup_singleton _
  constructor
  · intro S hS
    have hcomp := h.completion S hS
    refine ⟨hone.append hcomp.isFill, ?_, ?_⟩
    · intro x hx
      rcases List.mem_cons.mp hx with rfl | hx
      · exact he
      · exact (hcomp.support x hx).imp (fun hs => support_addFill hsupp hs)
          fun hs => support_addFill hsupp hs
    · rw [List.cons_append, hfill]
      exact hcomp.chordal
  · intro S hS s hs
    rw [List.cons_append, hfill]
    exact h.le S hS s hs
  · intro k S hS hk hbk
    rw [List.cons_append, hfill]
    exact h.cliqueNum_le k S hS hk hbk

/-- The two sides of a clique separator are reduced separately. -/
theorem glue [Finite V] (hAB : ∀ v, v ∈ A ∨ v ∈ B) (hclique : P.IsClique (A ∩ B))
    (hcross : ∀ a ∈ A, a ∉ B → ∀ b ∈ B, b ∉ A → ¬P.Adj a b)
    (h : (P.within A).Completes b F I) (h' : (P.within B).Completes b F' I') :
    P.Completes b (F ++ F') (I ++ I') := by
  have hperm : ∀ T T' : List (SimpleGraph V × List (V × V)),
      ((F ++ T.flatMap Prod.snd) ++ (F' ++ T'.flatMap Prod.snd)).Perm
        (F ++ F' ++ (T ++ T').flatMap Prod.snd) := by
    intro T T'
    rw [List.flatMap_append, List.append_assoc, List.append_assoc]
    refine List.Perm.append_left F ?_
    rw [← List.append_assoc, ← List.append_assoc]
    exact List.Perm.append_right _ List.perm_append_comm
  have hBA : P.IsClique (B ∩ A) := Set.inter_comm A B ▸ hclique
  constructor
  · intro S hS
    obtain ⟨T, T', rfl, hT, hT'⟩ := hS.of_append
    exact (IsCompletion.glue hAB hclique hcross (h.completion T hT)
      (h'.completion T' hT')).perm (hperm T T')
  · intro S hS s hs
    obtain ⟨T, T', rfl, hT, hT'⟩ := hS.of_append
    rw [← addFill_perm (hperm T T')]
    have hF := h.completion T hT
    have hF' := h'.completion T' hT'
    rcases List.mem_append.mp hs with hs | hs
    · refine (h.le T hT s hs).trans ?_
      rw [← within_addFill_append hclique hF hF']
      exact within_le A
    · refine (h'.le T' hT' s hs).trans ?_
      rw [← within_addFill_append hBA hF' hF, ← addFill_perm List.perm_append_comm]
      exact within_le B
  · intro k S hS hk hbk
    obtain ⟨T, T', rfl, hT, hT'⟩ := hS.of_append
    rw [← addFill_perm (hperm T T')]
    apply cliqueNum_glue_le hAB hclique hcross (h.completion T hT) (h'.completion T' hT')
    · exact h.cliqueNum_le k T hT (fun s hs => hk s (List.mem_append_left _ hs)) hbk
    · exact h'.cliqueNum_le k T' hT' (fun s hs => hk s (List.mem_append_right _ hs)) hbk

/-- A vertex whose neighbours form a clique is left out. -/
theorem simplicial [Finite V] (hx : P.IsSimplicialIn {x}ᶜ x)
    (hdeg : (P.neighborSet x).ncard ≤ b) (h : (P.within {x}ᶜ).Completes b F I) :
    P.Completes b F I := by
  -- No fill edge ends in the vertex left out.
  have hnot : ∀ S, IsSelection I S → ∀ v, s(x, v) ∉ (F ++ S.flatMap Prod.snd).map
      fun p => s(p.1, p.2) := by
    intro S hS v hmem
    have hcomp := h.completion S hS
    rcases mem_edges_iff.mp hmem with he | he
    · exact (hcomp.mem_within he).1 rfl
    · exact (hcomp.mem_within he).2 rfl
  have hnbr : ∀ S, IsSelection I S → ∀ v,
      (P.addFill (F ++ S.flatMap Prod.snd)).Adj x v ↔ P.Adj x v := by
    intro S hS v
    rw [addFill_adj]
    exact ⟨fun hv => hv.resolve_right fun hv => hnot S hS v hv.2, Or.inl⟩
  have hwithin : ∀ S, IsSelection I S →
      (P.addFill (F ++ S.flatMap Prod.snd)).within {x}ᶜ =
        (P.within {x}ᶜ).addFill (F ++ S.flatMap Prod.snd) := by
    intro S hS
    ext u v
    rw [within_adj, addFill_adj, addFill_adj, within_adj]
    constructor
    · rintro ⟨hP | hF, huv⟩
      · exact Or.inl ⟨hP, huv⟩
      · exact Or.inr hF
    · rintro (hP | hF)
      · exact ⟨Or.inl hP.1, hP.2⟩
      · refine ⟨Or.inr hF, fun hu => hnot S hS v ?_, fun hv => hnot S hS u ?_⟩
        · have hux : u = x := hu
          exact hux ▸ hF.2
        · have hvx : v = x := hv
          exact Sym2.eq_swap ▸ hvx ▸ hF.2
  constructor
  · intro S hS
    have hcomp := h.completion S hS
    refine ⟨⟨?_, hcomp.isFill.nodup⟩, ?_, ?_⟩
    · intro p hp
      have hne := hcomp.isFill.nonEdge p hp
      exact ⟨hne.1, fun hadj => hne.2 ⟨hadj, hcomp.mem_within hp⟩⟩
    · intro p hp
      exact (hcomp.support p hp).imp (fun hs => support_mono (within_le _) hs)
        fun hs => support_mono (within_le _) hs
    · apply isChordal_of_simplicial (x := x)
      · have hset : (P.addFill (F ++ S.flatMap Prod.snd)).neighborSet x = P.neighborSet x :=
          Set.ext (hnbr S hS)
        rw [IsSimplicialIn, hset]
        exact hx.mono_graph le_addFill
      · rw [hwithin S hS]
        exact hcomp.chordal
  · intro S hS s hs
    refine (h.le S hS s hs).trans ?_
    rw [← hwithin S hS]
    exact within_le _
  · intro k S hS hk hbk
    apply cliqueNum_le_of_neighborSet (x := x)
    · have hset : (P.addFill (F ++ S.flatMap Prod.snd)).neighborSet x = P.neighborSet x :=
        Set.ext (hnbr S hS)
      rw [hset]
      exact hdeg.trans hbk
    · rw [hwithin S hS]
      exact h.cliqueNum_le k S hS hk hbk

/-- A vertex with a single neighbour is left out. -/
theorem degree_one [Finite V] (hx : P.neighborSet x = {u}) (hb : 1 ≤ b)
    (h : (P.within {x}ᶜ).Completes b F I) : P.Completes b F I := by
  apply h.simplicial
  · rw [IsSimplicialIn, hx]
    exact (Set.pairwise_singleton u _).mono Set.inter_subset_left
  · rw [hx, Set.ncard_singleton]
    exact hb

/-- A vertex with two neighbours is left out after these have been joined. -/
theorem degree_two [Finite V] (hx : P.neighborSet x = {u, v}) (huv : u ≠ v) (hb : 2 ≤ b)
    (h : ((P.addFill [(u, v)]).within {x}ᶜ).Completes b F I) :
    (P.addFill [(u, v)]).Completes b F I := by
  have hu : P.Adj x u := by
    rw [← mem_neighborSet, hx]
    exact Or.inl rfl
  have hv : P.Adj x v := by
    rw [← mem_neighborSet, hx]
    exact Or.inr rfl
  apply h.simplicial
  · rw [IsSimplicialIn, neighborSet_addFill_of_adj hu hv, hx]
    intro a ha b hb hab
    have hadj : (P.addFill [(u, v)]).Adj u v :=
      addFill_adj.mpr (Or.inr ⟨huv, by simp⟩)
    rcases ha.1 with rfl | rfl
    · rcases hb.1 with rfl | rfl
      · exact absurd rfl hab
      · exact hadj
    · rcases hb.1 with rfl | rfl
      · exact hadj.symm
      · exact absurd rfl hab
  · rw [neighborSet_addFill_of_adj hu hv, hx, Set.ncard_pair huv]
    exact hb

end Completes

/-! ## Treewidth across the steps -/

/-- Leaving out a vertex and joining a pair of its neighbours is part of a
contraction. -/
theorem treewidth_within_addFill_le [Finite V] (hu : P.Adj x u) (hv : P.Adj x v) :
    ((P.addFill [(u, v)]).within {x}ᶜ).treewidth ≤ P.treewidth := by
  refine le_trans (treewidth_mono ?_) (treewidth_merge_le hu)
  intro s t h
  obtain ⟨hadj, hs, ht⟩ := h
  rcases addFill_adj.mp hadj with hP | ⟨hne, hmem⟩
  · exact ⟨hP.ne, hs, ht, Or.inl hP⟩
  · have heq : s(s, t) = s(u, v) := by simpa using hmem
    rcases Sym2.eq_iff.mp heq with ⟨rfl, rfl⟩ | ⟨rfl, rfl⟩
    · exact ⟨hne, hs, ht, Or.inr (Or.inl ⟨rfl, hv⟩)⟩
    · exact ⟨hne, hs, ht, Or.inr (Or.inr ⟨rfl, hv⟩)⟩

/-- The last missing pair among the neighbours of a vertex may be joined when its two
ends are connected outside. -/
theorem treewidth_addFill_le [Finite V] {D : Set V} (hu : P.Adj x u) (hv : P.Adj x v)
    (huv : u ≠ v)
    (hone : ∀ a ∈ P.neighborSet x, ∀ b ∈ P.neighborSet x, a ≠ b → s(a, b) ≠ s(u, v) →
      P.Adj a b)
    (hD : P.IsConnectedSet D) (hDx : x ∉ D) (hDN : ∀ d ∈ D, ¬P.Adj x d)
    (huD : ∃ d ∈ D, P.Adj d u) (hvD : ∃ d ∈ D, P.Adj d v) :
    (P.addFill [(u, v)]).treewidth ≤ P.treewidth := by
  have hmiss : ∀ a b, P.Adj x a → P.Adj x b → a ≠ b → s(a, b) = s(u, v) ∨ P.Adj a b := by
    intro a b ha hb hab
    by_cases heq : s(a, b) = s(u, v)
    · exact Or.inl heq
    · exact Or.inr (hone a ha b hb hab heq)
  -- The closed neighbourhood is a clique but for one pair.
  have hclique : ∀ w, w = u ∨ w = v → P.IsClique (insert x (P.neighborSet x) \ {w}) := by
    intro w hw a ha b hb hab
    have haw : a ≠ w := ha.2
    have hbw : b ≠ w := hb.2
    rcases ha.1 with rfl | hxa
    · rcases hb.1 with rfl | hxb
      · exact absurd rfl hab
      · exact hxb
    · rcases hb.1 with rfl | hxb
      · exact SimpleGraph.Adj.symm hxa
      · rcases hmiss a b hxa hxb hab with heq | h
        · rcases Sym2.eq_iff.mp heq with ⟨rfl, rfl⟩ | ⟨rfl, rfl⟩
          · rcases hw with rfl | rfl
            · exact absurd rfl haw
            · exact absurd rfl hbw
          · rcases hw with rfl | rfl
            · exact absurd rfl hbw
            · exact absurd rfl haw
        · exact h
  have hDK : ∀ d ∈ D, d ∉ insert x (P.neighborSet x) := by
    intro d hd hmem
    rcases hmem with rfl | h
    · exact hDx hd
    · exact hDN d hd h
  have hvK : v ∈ insert x (P.neighborSet x) := Or.inr hv
  have hdeg := ncard_le_of_joined hvK huv
    (hclique v (Or.inr rfl)) (hclique u (Or.inl rfl)) hD hDK huD hvD
  have hxN : x ∉ P.neighborSet x := P.loopless.irrefl x
  rw [Set.ncard_insert_of_notMem hxN (Set.toFinite _)] at hdeg
  -- The fill edge does not meet `x`, so its neighbours are now a clique.
  have hnbr := neighborSet_addFill_of_adj hu hv
  have hadj : ∀ t, (P.addFill [(u, v)]).Adj x t ↔ P.Adj x t := fun t => Set.ext_iff.mp hnbr t
  apply treewidth_le_of_simplicial (x := x)
  · intro a ha b hb hab
    rcases hmiss a b ((hadj a).mp ha.1) ((hadj b).mp hb.1) hab with heq | h
    · exact addFill_adj.mpr (Or.inr ⟨hab, by simpa using heq⟩)
    · exact le_addFill h
  · rw [hnbr]
    exact Nat.le_of_succ_le_succ hdeg
  · exact treewidth_within_addFill_le hu hv

/-! ## What a reduction says about the graph -/

namespace IsReduction

/-- The treewidth is the maximum of the bound and of the treewidths of the parts. -/
theorem treewidth_le_iff [Finite V] (h : P.IsReduction b F I) :
    P.treewidth ≤ k ↔ b ≤ k ∧ ∀ Q ∈ I, Q.treewidth ≤ k := by
  constructor
  · intro hk
    exact ⟨h.bound_le.trans hk, fun Q hQ => (h.part_le Q hQ).trans hk⟩
  · rintro ⟨hb, hI⟩
    obtain ⟨S, hS, hw⟩ := exists_isSelection I
    apply (h.completion S hS).isTriangulation.treewidth_le
    apply h.cliqueNum_le k S hS _ hb
    intro s hs
    refine (hw s hs).trans (Nat.add_le_add_right (hI s.1 ?_) 1)
    rw [← hS.parts]
    exact List.mem_map_of_mem hs

/-- The width of the combined triangulation is the maximum of the bound and of the
widths of the completed parts. -/
theorem cliqueNum_le_iff [Finite V] {S : List (SimpleGraph V × List (V × V))}
    (h : P.IsReduction b F I) (hS : IsSelection I S) :
    (P.addFill (F ++ S.flatMap Prod.snd)).cliqueNum ≤ k + 1 ↔
      b ≤ k ∧ ∀ s ∈ S, (s.1.addFill s.2).cliqueNum ≤ k + 1 := by
  constructor
  · intro hk
    have htri := (h.completion S hS).isTriangulation
    exact ⟨h.bound_le.trans (htri.treewidth_le hk),
      fun s hs => (cliqueNum_mono_graph (h.le S hS s hs)).trans hk⟩
  · intro hk
    exact h.cliqueNum_le k S hS hk.2 hk.1

end IsReduction

end SimpleGraph
