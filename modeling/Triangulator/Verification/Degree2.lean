import Triangulator.GraphTheory.Reduction
import Triangulator.Model.TreewidthPreprocessor
import Triangulator.Verification.GraphBuild

/-!
# Elimination of vertices of degree at most two

Every round of `GreedyDegree2` leaves out a vertex of degree at most two, after its
two neighbours have been joined.  What completes the new graph completes the old one
as soon as the bound on the width is at least two.
-/

namespace Triangulator

open SimpleGraph

variable {n N : ℕ} {graph graph₀ graph₁ : Graph n} {φ : Fin n ↪ Fin N}
  {d2 : List (Fin n)} {fill fill₀ : List (Fin n × Fin n)} {x nb nb1 nb2 : Fin n}

/-- The fill edges in the numbering of the surrounding graph. -/
def embedEdges (φ : Fin n ↪ Fin N) (F : List (Fin n × Fin n)) : List (Fin N × Fin N) :=
  F.map (Prod.map φ φ)

/-- The graph has been reduced by degree-two steps that added the edges `fill`. -/
structure Degree2Steps (φ : Fin n ↪ Fin N) (graph₀ : Graph n)
    (fill : List (Fin n × Fin n)) (graph : Graph n) : Prop where
  valid : graph.Valid
  vertexMap : graph.vertexMap = graph₀.vertexMap
  completes : ∀ b F I, 2 ≤ b → (graph.toSimple.map φ).Completes b F I →
    (graph₀.toSimple.map φ).Completes b (embedEdges φ fill ++ F) I
  treewidth_le : (graph.toSimple.map φ).treewidth ≤ (graph₀.toSimple.map φ).treewidth
  support : graph.toSimple.support ⊆ graph₀.toSimple.support
  support_ne : fill ≠ [] → graph.toSimple.support ≠ graph₀.toSimple.support

theorem degree2Steps_refl (hg : graph.Valid) : Degree2Steps φ graph [] graph where
  valid := hg
  vertexMap := rfl
  completes := fun _ _ _ _ h => h
  treewidth_le := le_rfl
  support := subset_rfl
  support_ne := fun h => absurd rfl h

/-- A vertex with one neighbour loses its edge. -/
theorem Degree2Steps.one (h : Degree2Steps φ graph₀ fill graph)
    (hx : graph.adjList x = [nb]) :
    ∃ graph₁, graph.removeEdge x nb = some graph₁ ∧ Degree2Steps φ graph₀ fill graph₁ ∧
      graph₁.toSimple = graph.toSimple.within {x}ᶜ := by
  have hnbr : graph.toSimple.neighborSet x = {nb} := by
    ext v
    rw [mem_neighborSet, ← h.valid.mem_adjList_iff, hx, List.mem_singleton]
    exact Iff.rfl
  have hadj : graph.toSimple.Adj x nb := by
    rw [← mem_neighborSet, hnbr]
    exact rfl
  obtain ⟨graph₁, hrun, hrem⟩ := removeEdge_spec h.valid hadj
  have hwithin : graph₁.toSimple = graph.toSimple.within {x}ᶜ := by
    ext a b
    rw [hrem.adj_iff, within_adj]
    refine and_congr_right fun hab => ?_
    have hends : ∀ v, graph.toSimple.Adj x v → v = nb := by
      intro v hv
      rw [← mem_neighborSet, hnbr] at hv
      exact hv
    constructor
    · intro hne
      constructor
      · rintro rfl
        exact hne (by rw [hends b hab])
      · rintro rfl
        exact hne (by rw [hends a hab.symm, Sym2.eq_swap])
    · rintro ⟨ha, hb⟩ heq
      rcases Sym2.eq_iff.mp heq with ⟨hax, -⟩ | ⟨-, hbx⟩
      · exact ha hax
      · exact hb hbx
  refine ⟨graph₁, hrun, ?_, hwithin⟩
  have hle : graph₁.toSimple ≤ graph.toSimple := by
    rw [hwithin]
    exact within_le _
  refine ⟨hrem.valid, hrem.vertexMap.trans h.vertexMap, ?_, ?_, ?_, ?_⟩
  · intro b F I hb hF
    apply h.completes b F I hb
    apply Completes.degree_one (x := φ x) (u := φ nb) _ (le_trans one_le_two hb)
    · rw [← map_within_compl, ← hwithin]
      exact hF
    · rw [map_neighborSet, hnbr, Set.image_singleton]
  · exact (treewidth_mono (map_monotone φ hle)).trans h.treewidth_le
  · exact (support_mono hle).trans h.support
  · intro hfill heq
    apply h.support_ne hfill
    exact Set.Subset.antisymm h.support (heq ▸ support_mono hle)

/-- A vertex with two neighbours loses its edges after these have been joined. -/
theorem Degree2Steps.two (h : Degree2Steps φ graph₀ fill graph)
    (hx : graph.adjList x = [nb1, nb2]) :
    ∃ graph₁ graph₂ graph₃, graph.removeEdge x nb1 = some graph₁ ∧
      graph₁.removeEdge x nb2 = some graph₂ ∧ graph₂.addEdge nb1 nb2 = some graph₃ ∧
      graph₂.hasEdge nb1 nb2 = graph.adjMat nb1 nb2 ∧ graph₃.m + 1 ≤ graph.m ∧
      graph₃.toSimple = (graph.toSimple.addFill [(nb1, nb2)]).within {x}ᶜ ∧
      (graph.adjMat nb1 nb2 = true → graph₃ = graph₂) ∧
      Degree2Steps φ graph₀
        (if graph.adjMat nb1 nb2 then fill else fill ++ [(nb1, nb2)]) graph₃ := by
  have hg := h.valid
  have hnd := hg.nodup_adjList x
  rw [hx] at hnd
  have hne : nb1 ≠ nb2 := by simpa using hnd
  have hnbr : graph.toSimple.neighborSet x = {nb1, nb2} := by
    ext v
    rw [mem_neighborSet, ← hg.mem_adjList_iff, hx]
    simp
  have hadj1 : graph.toSimple.Adj x nb1 := by
    rw [← mem_neighborSet, hnbr]
    exact Or.inl rfl
  have hadj2 : graph.toSimple.Adj x nb2 := by
    rw [← mem_neighborSet, hnbr]
    exact Or.inr rfl
  obtain ⟨graph₁, hrun1, hrem1⟩ := removeEdge_spec hg hadj1
  have hadj2' : graph₁.toSimple.Adj x nb2 := by
    rw [hrem1.adj_iff]
    refine ⟨hadj2, fun heq => ?_⟩
    rcases Sym2.eq_iff.mp heq with ⟨-, h2⟩ | ⟨h1, -⟩
    · exact hne h2.symm
    · exact hadj1.ne h1
  obtain ⟨graph₂, hrun2, hrem2⟩ := removeEdge_spec hrem1.valid hadj2'
  obtain ⟨graph₃, hrun3, hadd⟩ := addEdge_spec hrem2.valid hne
  have hwithin₂ : graph₂.toSimple = graph.toSimple.within {x}ᶜ := by
    ext a b
    rw [hrem2.adj_iff, hrem1.adj_iff, within_adj, and_assoc]
    refine and_congr_right fun hab => ?_
    have hends : ∀ v, graph.toSimple.Adj x v → v = nb1 ∨ v = nb2 := by
      intro v hv
      rw [← mem_neighborSet, hnbr] at hv
      exact hv
    constructor
    · rintro ⟨h1, h2⟩
      constructor
      · rintro rfl
        rcases hends b hab with rfl | rfl
        · exact h1 rfl
        · exact h2 rfl
      · rintro rfl
        rcases hends a hab.symm with rfl | rfl
        · exact h1 Sym2.eq_swap
        · exact h2 Sym2.eq_swap
    · rintro ⟨ha, hb⟩
      constructor
      · intro heq
        rcases Sym2.eq_iff.mp heq with ⟨hax, -⟩ | ⟨-, hbx⟩
        · exact ha hax
        · exact hb hbx
      · intro heq
        rcases Sym2.eq_iff.mp heq with ⟨hax, -⟩ | ⟨-, hbx⟩
        · exact ha hax
        · exact hb hbx
  have hx1 : nb1 ∈ ({x}ᶜ : Set (Fin n)) := hadj1.ne'
  have hx2 : nb2 ∈ ({x}ᶜ : Set (Fin n)) := hadj2.ne'
  have hwithin₃ : graph₃.toSimple = (graph.toSimple.addFill [(nb1, nb2)]).within {x}ᶜ := by
    ext a b
    rw [hadd.toSimple, hwithin₂, addFill_adj, within_adj, within_adj, addFill_adj]
    constructor
    · rintro (hab | ⟨hab, hmem⟩)
      · exact ⟨Or.inl hab.1, hab.2⟩
      · refine ⟨Or.inr ⟨hab, hmem⟩, ?_⟩
        have heq : s(a, b) = s(nb1, nb2) := by simpa using hmem
        rcases Sym2.eq_iff.mp heq with ⟨rfl, rfl⟩ | ⟨rfl, rfl⟩
        · exact ⟨hx1, hx2⟩
        · exact ⟨hx2, hx1⟩
    · rintro ⟨hab | hab, hin⟩
      · exact Or.inl ⟨hab, hin⟩
      · exact Or.inr hab
  have hhas : graph₂.hasEdge nb1 nb2 = graph.adjMat nb1 nb2 := by
    rw [Graph.hasEdge, Bool.eq_iff_iff, ← hrem2.valid.adj_iff, ← hg.adj_iff, hwithin₂,
      within_adj]
    exact and_iff_left ⟨hx1, hx2⟩
  have hm : graph₃.m + 1 ≤ graph.m := by
    have hm1 := hrem1.m_eq
    have hm2 := hrem2.m_eq
    have hm3 := addEdge_m_le hrun3
    omega
  have hsame : graph.adjMat nb1 nb2 = true → graph₃ = graph₂ := by
    intro hmat
    have hmat2 : graph₂.adjMat nb1 nb2 = true := hhas.trans hmat
    rw [Graph.addEdge, if_pos hmat2] at hrun3
    exact (Option.some.inj hrun3).symm
  -- The vertex loses its edges, and its neighbours have had edges before.
  have hsupp : graph₃.toSimple.support ⊆ graph.toSimple.support := by
    rw [hwithin₃]
    refine (support_mono (within_le _)).trans (support_addFill ?_)
    intro e he
    rw [List.mem_singleton] at he
    subst he
    exact ⟨⟨x, hadj1.symm⟩, x, hadj2.symm⟩
  have hsuppne : graph₃.toSimple.support ≠ graph₀.toSimple.support := by
    intro heq
    have hxs : x ∈ graph₃.toSimple.support := heq ▸ h.support ⟨nb1, hadj1⟩
    obtain ⟨w, hw⟩ := (mem_support _).mp hxs
    rw [hwithin₃, within_adj] at hw
    exact hw.2.1 rfl
  have hmap : graph₃.toSimple.map φ =
      ((graph.toSimple.map φ).addFill [(φ nb1, φ nb2)]).within {φ x}ᶜ := by
    rw [hwithin₃, map_within_compl, map_addFill]
    rfl
  have hadjφ1 : (graph.toSimple.map φ).Adj (φ x) (φ nb1) := map_adj_apply.mpr hadj1
  have hadjφ2 : (graph.toSimple.map φ).Adj (φ x) (φ nb2) := map_adj_apply.mpr hadj2
  refine ⟨graph₁, graph₂, graph₃, hrun1, hrun2, hrun3, hhas, hm, hwithin₃, hsame, hadd.valid,
    hadd.vertexMap.trans (hrem2.vertexMap.trans (hrem1.vertexMap.trans h.vertexMap)),
    ?_, ?_, hsupp.trans h.support, fun _ => hsuppne⟩
  · intro b F I hb hF
    rw [hmap] at hF
    have hstep := Completes.degree_two (P := graph.toSimple.map φ) (by
      rw [map_neighborSet, hnbr, Set.image_pair]) (fun heq => hne (φ.injective heq)) hb hF
    by_cases hmat : graph.adjMat nb1 nb2 = true
    · rw [if_pos hmat]
      apply h.completes b F I hb
      have hadjnb : (graph.toSimple.map φ).Adj (φ nb1) (φ nb2) :=
        map_adj_apply.mpr (hg.adj_iff.mpr hmat)
      rwa [addFill_of_adj _ hadjnb] at hstep
    · rw [if_neg hmat, embedEdges, List.map_append, List.append_assoc]
      apply h.completes b _ I hb
      refine hstep.addEdge (e := (φ nb1, φ nb2)) (fun heq => hne (φ.injective heq)) ?_ ?_
      · intro hadjnb
        exact hmat (hg.adj_iff.mp (map_adj_apply.mp hadjnb))
      · exact ⟨⟨φ x, hadjφ1.symm⟩, φ x, hadjφ2.symm⟩
  · rw [hmap]
    exact (treewidth_within_addFill_le hadjφ1 hadjφ2).trans h.treewidth_le

/-! ## The loop over the queue -/

theorem length_adjList_le_of_le (hg : graph.Valid) (hg₁ : graph₁.Valid)
    (h : graph₁.toSimple ≤ graph.toSimple) (v : Fin n) :
    (graph₁.adjList v).length ≤ (graph.adjList v).length := by
  rw [hg.length_adjList, hg₁.length_adjList]
  exact Set.ncard_le_ncard (fun u hu => h hu) (Set.toFinite _)

/-- Joining the two neighbours of a vertex that is left out raises no degree. -/
theorem length_adjList_le_of_two (hg : graph.Valid) (hg₁ : graph₁.Valid)
    (hx : graph.adjList x = [nb1, nb2])
    (h : graph₁.toSimple = (graph.toSimple.addFill [(nb1, nb2)]).within {x}ᶜ) (v : Fin n) :
    (graph₁.adjList v).length ≤ (graph.adjList v).length := by
  rw [hg.length_adjList, hg₁.length_adjList]
  have hadj : ∀ u, u = nb1 ∨ u = nb2 → graph.toSimple.Adj u x := by
    intro u hu
    apply SimpleGraph.Adj.symm
    rw [← hg.mem_adjList_iff, hx]
    simpa using hu
  -- The one new neighbour of an end takes the place of `x`.
  have hnew : ∀ u, graph₁.toSimple.Adj v u →
      graph.toSimple.Adj v u ∧ u ≠ x ∨ (v = nb1 ∧ u = nb2) ∨ (v = nb2 ∧ u = nb1) := by
    intro u hu
    rw [h, within_adj, addFill_adj] at hu
    rcases hu.1 with hold | ⟨-, hmem⟩
    · exact Or.inl ⟨hold, hu.2.2⟩
    · have heq : s(v, u) = s(nb1, nb2) := by simpa using hmem
      exact Or.inr (Sym2.eq_iff.mp heq)
  by_cases hv : v = nb1 ∨ v = nb2
  · obtain ⟨w, hw⟩ : ∃ w, ∀ u, (v = nb1 ∧ u = nb2) ∨ (v = nb2 ∧ u = nb1) → nb1 ≠ nb2 → u = w := by
      rcases hv with rfl | rfl
      · exact ⟨nb2, fun u hu hne => hu.elim And.right fun h => absurd h.1 hne⟩
      · exact ⟨nb1, fun u hu hne => hu.elim (fun h => absurd h.1.symm hne) And.right⟩
    have hnd := hg.nodup_adjList x
    rw [hx] at hnd
    have hne : nb1 ≠ nb2 := by simpa using hnd
    have hsub : graph₁.toSimple.neighborSet v ⊆
        insert w (graph.toSimple.neighborSet v \ {x}) := by
      intro u hu
      rcases hnew u hu with hold | hpair
      · exact Or.inr hold
      · exact Or.inl (hw u hpair hne)
    apply (Set.ncard_le_ncard hsub (Set.toFinite _)).trans
    apply (Set.ncard_insert_le _ _).trans
    have hxv : x ∈ graph.toSimple.neighborSet v := hadj v hv
    rw [Set.ncard_sdiff_singleton_add_one hxv (Set.toFinite _)]
  · apply Set.ncard_le_ncard _ (Set.toFinite _)
    intro u hu
    rcases hnew u hu with hold | hpair
    · exact hold.1
    · exact absurd (hpair.imp And.left And.left) hv

/-- The new edges of the graph, the vertices pushed and the edges added, by the degree of
the vertex. -/
inductive Degree2Shape (graph : Graph n) (x : Fin n) (graph₁ : Graph n) :
    List (Fin n) → List (Fin n × Fin n) → Prop
  | isolated (hx : graph.adjList x = []) (heq : graph₁ = graph) : Degree2Shape graph x graph₁ [] []
  | one {nb : Fin n} (hx : graph.adjList x = [nb])
      (heq : graph₁.toSimple = graph.toSimple.within {x}ᶜ) : Degree2Shape graph x graph₁ [] []
  | two {nb1 nb2 : Fin n} (hx : graph.adjList x = [nb1, nb2])
      (heq : graph₁.toSimple = (graph.toSimple.addFill [(nb1, nb2)]).within {x}ᶜ) :
      Degree2Shape graph x graph₁
        ([nb1, nb2].filter fun nb => decide ((graph₁.adjList nb).length ≤ 2))
        (if graph.adjMat nb1 nb2 then [] else [(nb1, nb2)])

/-- What a round does with a vertex of degree at most two. -/
structure Degree2Round (graph : Graph n) (x : Fin n) (graph₁ : Graph n)
    (pushed : List (Fin n)) (added : List (Fin n × Fin n)) : Prop where
  shape : Degree2Shape graph x graph₁ pushed added
  run : ∀ fuel d2 fill, degree2Loop (fuel + 1) (x :: d2) graph fill =
    degree2Loop fuel (d2 ++ pushed) graph₁ (fill ++ added)
  steps : ∀ {N : ℕ} {φ : Fin n ↪ Fin N} {graph₀ fill},
    Degree2Steps φ graph₀ fill graph → Degree2Steps φ graph₀ (fill ++ added) graph₁
  degree_le : ∀ v, (graph₁.adjList v).length ≤ (graph.adjList v).length
  pushed_le : ∀ v ∈ pushed, (graph₁.adjList v).length ≤ 2
  measure_le : pushed.length + 2 * graph₁.m ≤ 2 * graph.m

/-- A round returns. -/
theorem exists_degree2Round (hg : graph.Valid) (hlen : (graph.adjList x).length ≤ 2) :
    ∃ graph₁ pushed added, Degree2Round graph x graph₁ pushed added := by
  have hrefl : Degree2Steps (Function.Embedding.refl (Fin n)) graph [] graph :=
    degree2Steps_refl hg
  match hx : graph.adjList x with
  | [] =>
      refine ⟨graph, [], [], .isolated hx rfl, ?_, ?_, fun _ => le_rfl, by simp, by simp⟩
      · intro fuel d2 fill
        rw [degree2Loop, hx, List.append_nil, List.append_nil]
      · intro N φ graph₀ fill h
        rwa [List.append_nil]
  | [nb] =>
      obtain ⟨graph₁, hrem, h₁, heq⟩ := hrefl.one hx
      refine ⟨graph₁, [], [], .one hx heq, ?_, ?_, ?_, by simp, ?_⟩
      · intro fuel d2 fill
        rw [degree2Loop, hx, List.append_nil, List.append_nil]
        dsimp only
        rw [hrem]
        rfl
      · intro N φ graph₀ fill h
        obtain ⟨graph₂, hrem₂, h₂, -⟩ := h.one hx
        rw [hrem] at hrem₂
        rw [List.append_nil, Option.some.inj hrem₂]
        exact h₂
      · apply length_adjList_le_of_le hg h₁.valid
        rw [heq]
        exact within_le _
      · have hadj : graph.toSimple.Adj x nb := by
          rw [← hg.mem_adjList_iff, hx]
          exact List.mem_singleton_self nb
        obtain ⟨graph₂, hrem₂, hspec⟩ := removeEdge_spec hg hadj
        rw [hrem] at hrem₂
        have hm := hspec.m_eq
        rw [← Option.some.inj hrem₂] at hm
        rw [List.length_nil]
        omega
  | [nb1, nb2] =>
      obtain ⟨graph₁, graph₂, graph₃, hrem1, hrem2, hadd, hhas, hm, heq, hsame, h₃⟩ :=
        hrefl.two hx
      refine ⟨graph₃, _, _, .two hx heq, ?_, ?_, ?_, ?_, ?_⟩
      · intro fuel d2 fill
        rw [degree2Loop, hx]
        dsimp only
        rw [hrem1, Option.bind_eq_bind, Option.bind_some, hrem2, Option.bind_eq_bind,
          Option.bind_some, hhas]
        by_cases hmat : graph.adjMat nb1 nb2 = true
        · rw [if_pos hmat, if_pos hmat, hsame hmat, List.append_nil]
          rfl
        · rw [if_neg hmat, if_neg hmat, hadd]
          rfl
      · intro N φ graph₀ fill h
        obtain ⟨graph₁', graph₂', graph₃', hrem1', hrem2', hadd', -, -, -, -, h₃'⟩ := h.two hx
        obtain rfl := Option.some.inj (hrem1.symm.trans hrem1')
        obtain rfl := Option.some.inj (hrem2.symm.trans hrem2')
        obtain rfl := Option.some.inj (hadd.symm.trans hadd')
        by_cases hmat : graph.adjMat nb1 nb2 = true
        · rw [if_pos hmat] at h₃' ⊢
          rwa [List.append_nil]
        · rwa [if_neg hmat] at h₃' ⊢
      · exact length_adjList_le_of_two hg h₃.valid hx heq
      · intro v hv
        exact of_decide_eq_true (List.mem_filter.mp hv).2
      · have hfilter := List.length_filter_le
          (fun nb => decide ((graph₃.adjList nb).length ≤ 2)) [nb1, nb2]
        rw [List.length_cons, List.length_singleton] at hfilter
        omega
  | _ :: _ :: _ :: _ =>
      rw [hx] at hlen
      simp at hlen

/-- The rounds of `GreedyDegree2`. -/
theorem degree2Loop_spec (fuel : ℕ) (h : Degree2Steps φ graph₀ fill graph)
    (hd2 : ∀ x ∈ d2, (graph.adjList x).length ≤ 2) (hfuel : d2.length + 2 * graph.m ≤ fuel) :
    ∃ graph' fill', degree2Loop fuel d2 graph fill = some (graph', fill') ∧
      Degree2Steps φ graph₀ fill' graph' ∧ (fill ≠ [] → fill' ≠ []) ∧
      ∀ x rest nb1 nb2, d2 = x :: rest → graph.adjList x = [nb1, nb2] →
        graph.adjMat nb1 nb2 = false → fill' ≠ [] := by
  induction fuel generalizing d2 graph fill with
  | zero =>
      have hnil : d2 = [] := List.length_eq_zero_iff.mp (by omega)
      subst hnil
      exact ⟨graph, fill, rfl, h, id, by simp⟩
  | succ fuel ih =>
      cases d2 with
      | nil => exact ⟨graph, fill, by rw [degree2Loop], h, id, by simp⟩
      | cons x d2 =>
          rw [List.length_cons] at hfuel
          obtain ⟨graph₁, pushed, added, hround⟩ :=
            exists_degree2Round h.valid (hd2 x List.mem_cons_self)
          have hqueue : ∀ y ∈ d2 ++ pushed, (graph₁.adjList y).length ≤ 2 := by
            intro y hy
            rcases List.mem_append.mp hy with hy | hy
            · exact (hround.degree_le y).trans (hd2 y (List.mem_cons_of_mem x hy))
            · exact hround.pushed_le y hy
          have hfuel₁ : (d2 ++ pushed).length + 2 * graph₁.m ≤ fuel := by
            have hm := hround.measure_le
            rw [List.length_append]
            omega
          obtain ⟨graph', fill', hrun, hsteps, hne, -⟩ := ih (hround.steps h) hqueue hfuel₁
          refine ⟨graph', fill', (hround.run fuel d2 fill).trans hrun, hsteps, ?_, ?_⟩
          · intro hfill
            exact hne (List.append_ne_nil_of_left_ne_nil hfill _)
          · intro y rest b1 b2 hcons hy hmat
            obtain ⟨rfl, -⟩ := List.cons.inj hcons
            apply hne
            apply List.append_ne_nil_of_right_ne_nil
            cases hround.shape with
            | isolated hx heq =>
                rw [hx] at hy
                cases hy
            | one hx heq =>
                rw [hx] at hy
                cases hy
            | two hx heq =>
                rw [hx, List.cons.injEq, List.cons.injEq] at hy
                rw [← hy.1, ← hy.2.1] at hmat
                rw [if_neg (by rw [hmat]; exact Bool.false_ne_true)]
                exact List.cons_ne_nil _ _

theorem degree2Queue_spec (hdeg : ∀ v, 1 < (graph.adjList v).length) :
    ∃ d2, degree2Queue graph = some d2 ∧
      ∀ v, v ∈ d2 ↔ (graph.adjList v).length = 2 := by
  have hfold : ∀ l d2 : List (Fin n), ∃ d2', l.foldlM (fun d2 i =>
      if 1 < (graph.adjList i).length then
        some (if (graph.adjList i).length = 2 then d2 ++ [i] else d2)
      else none) d2 = some d2' ∧
      ∀ v, v ∈ d2' ↔ v ∈ d2 ∨ v ∈ l ∧ (graph.adjList v).length = 2 := by
    intro l
    induction l with
    | nil => exact fun d2 => ⟨d2, rfl, by simp⟩
    | cons i l ih =>
        intro d2
        obtain ⟨d2', hrun, hmem⟩ := ih (if (graph.adjList i).length = 2 then d2 ++ [i] else d2)
        refine ⟨d2', ?_, ?_⟩
        · rw [List.foldlM_cons, if_pos (hdeg i)]
          exact hrun
        · intro v
          rw [hmem]
          by_cases hi : (graph.adjList i).length = 2
          · rw [if_pos hi, List.mem_append, List.mem_singleton, List.mem_cons]
            constructor
            · rintro ((h | rfl) | h)
              · exact Or.inl h
              · exact Or.inr ⟨Or.inl rfl, hi⟩
              · exact Or.inr ⟨Or.inr h.1, h.2⟩
            · rintro (h | ⟨rfl | h, h2⟩)
              · exact Or.inl (Or.inl h)
              · exact Or.inl (Or.inr rfl)
              · exact Or.inr ⟨h, h2⟩
          · rw [if_neg hi, List.mem_cons]
            constructor
            · rintro (h | h)
              · exact Or.inl h
              · exact Or.inr ⟨Or.inr h.1, h.2⟩
            · rintro (h | ⟨rfl | h, h2⟩)
              · exact Or.inl h
              · exact absurd h2 hi
              · exact Or.inr ⟨h, h2⟩
  obtain ⟨d2, hrun, hmem⟩ := hfold (List.finRange n) []
  refine ⟨d2, hrun, ?_⟩
  intro v
  rw [hmem]
  simp

/-- `GreedyDegree2` on a graph of minimum degree two in which no two neighbours of a
vertex of degree two are adjacent. -/
theorem greedyDegree2_spec (φ : Fin n ↪ Fin N) (hg : graph.Valid)
    (hdeg : ∀ v, 1 < (graph.adjList v).length)
    (hnadj : ∀ x nb1 nb2, graph.adjList x = [nb1, nb2] → graph.adjMat nb1 nb2 = false) :
    ∃ graph' fill, greedyDegree2 graph = some (graph', fill) ∧
      Degree2Steps φ graph fill graph' ∧
      (fill = [] → graph' = graph ∧ ∀ v, 2 < (graph.adjList v).length) := by
  obtain ⟨d2, hqueue, hmem⟩ := degree2Queue_spec hdeg
  have hrun : ∀ r, degree2Loop (d2.length + 2 * graph.m) d2 graph [] = some r →
      greedyDegree2 graph = some r := by
    intro r hr
    rw [greedyDegree2, hqueue, Option.bind_eq_bind, Option.bind_some]
    exact hr
  cases hd2 : d2 with
  | nil =>
      subst hd2
      refine ⟨graph, [], hrun _ ?_, degree2Steps_refl hg, fun _ => ⟨rfl, fun v => ?_⟩⟩
      · cases h : 0 + 2 * graph.m <;> simp [degree2Loop]
      · have hne : (graph.adjList v).length ≠ 2 := fun h => by
          have hv := (hmem v).mpr h
          exact absurd hv List.not_mem_nil
        have hv := hdeg v
        omega
  | cons x rest =>
      -- The first vertex of the queue yields a fill edge.
      have hx : (graph.adjList x).length = 2 := by
        rw [← hmem, hd2]
        exact List.mem_cons_self
      obtain ⟨nb1, nb2, hx⟩ := List.length_eq_two.mp hx
      obtain ⟨graph', fill, hloop, hsteps, -, hne⟩ := degree2Loop_spec (φ := φ)
        (d2.length + 2 * graph.m) (degree2Steps_refl hg)
        (fun v hv => ((hmem v).mp hv).le) le_rfl
      refine ⟨graph', fill, hrun _ hloop, hsteps, ?_⟩
      intro hnil
      exact absurd hnil (hne x rest nb1 nb2 hd2 hx (hnadj x nb1 nb2 hx))

end Triangulator
