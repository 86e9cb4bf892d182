import Triangulator.GraphTheory.MinimalTriangulation

/-!
# Vertices joined by a path through a set

Two vertices are joined through a set when they are adjacent or both attached to a
connected part of the set.  Potential maximal cliques are described by the pairs that
are joined outside them.
-/

namespace SimpleGraph

variable {V : Type*} {G : SimpleGraph V} {S X Y : Set V} {u v x y : V}

/-- The vertices are adjacent or attached to one connected set inside `X`. -/
def JoinedBy (G : SimpleGraph V) (X : Set V) (u v : V) : Prop :=
  G.Adj u v ∨ ∃ C ⊆ X, G.IsConnectedSet C ∧ (∃ c ∈ C, G.Adj u c) ∧ ∃ c ∈ C, G.Adj v c

namespace JoinedBy

theorem symm (h : G.JoinedBy X u v) : G.JoinedBy X v u := by
  rcases h with h | ⟨C, hCX, hC, hu, hv⟩
  · exact Or.inl h.symm
  · exact Or.inr ⟨C, hCX, hC, hv, hu⟩

theorem mono (hXY : X ⊆ Y) (h : G.JoinedBy X u v) : G.JoinedBy Y u v := by
  rcases h with h | ⟨C, hCX, hC, huv⟩
  · exact Or.inl h
  · exact Or.inr ⟨C, hCX.trans hXY, hC, huv⟩

/-- A connected set with a neighbour of both ends, one end inside the set. -/
theorem exists_connected (h : G.JoinedBy X u v) :
    ∃ C ⊆ insert v X, G.IsConnectedSet C ∧ v ∈ C ∧ ∃ c ∈ C, G.Adj u c := by
  rcases h with h | ⟨C, hCX, hC, ⟨a, haC, hua⟩, ⟨b, hbC, hvb⟩⟩
  · exact ⟨{v}, by simp, isConnectedSet_singleton v, rfl, v, rfl, h⟩
  · exact ⟨{v} ∪ C, Set.insert_subset_insert hCX,
      (isConnectedSet_singleton v).union hC rfl hbC (Or.inr hvb), Or.inl rfl,
      a, Or.inr haC, hua⟩

/-- Two paths that meet in a vertex. -/
theorem trans (hux : G.JoinedBy X u x) (hxv : G.JoinedBy X x v) :
    G.JoinedBy (insert x X) u v := by
  obtain ⟨C, hCX, hC, hxC, hu⟩ := hux.exists_connected
  obtain ⟨D, hDX, hD, hxD, hv⟩ := hxv.symm.exists_connected
  obtain ⟨c, hcC, huc⟩ := hu
  obtain ⟨d, hdD, hvd⟩ := hv
  exact Or.inr ⟨C ∪ D, Set.union_subset hCX hDX, hC.union hD hxC hxD (Or.inl rfl),
    ⟨c, Or.inl hcC, huc⟩, d, Or.inr hdD, hvd⟩

end JoinedBy

/-- Joined vertices, described by a search from one of them. -/
theorem joinedBy_iff_reachIn :
    G.JoinedBy X u v ↔ ∃ y, G.ReachIn X u y ∧ G.Adj y v := by
  constructor
  · rintro (h | ⟨C, hCX, hC, ⟨a, haC, hua⟩, ⟨b, hbC, hvb⟩⟩)
    · exact ⟨u, ReachIn.refl u, h⟩
    · have hab := (hC a haC b hbC).mono_right hCX
      exact ⟨b, ReachIn.head hua (hCX haC) hab, hvb.symm⟩
  · rintro ⟨y, huy, hyv⟩
    rcases Relation.ReflTransGen.cases_head huy with rfl | ⟨a, ⟨hua, haX⟩, hay⟩
    · exact Or.inl hyv
    · have hyX : y ∈ X := ReachIn.mem hay haX
      have hcomp := isComponent_componentOf (G := G) (S := Xᶜ) (v := a) (fun h => h haX)
      refine Or.inr ⟨G.componentOf Xᶜ a, ?_, hcomp.connected, ?_, ?_⟩
      · intro w hw
        exact not_not.mp (hcomp.notMem w hw)
      · exact ⟨a, mem_componentOf_self, hua⟩
      · have hya : G.ReachIn Xᶜᶜ a y := by rwa [compl_compl]
        exact ⟨y, hya, hyv.symm⟩

/-- A vertex outside `S` is joined to the vertices of `S` next to its component. -/
theorem joinedBy_compl_iff (hx : x ∉ S) (hy : y ∈ S) :
    G.JoinedBy Sᶜ x y ↔ y ∈ G.nbhd (G.componentOf S x) := by
  have hcomp := isComponent_componentOf (G := G) hx
  rw [joinedBy_iff_reachIn]
  constructor
  · rintro ⟨z, hxz, hzy⟩
    exact ⟨fun hmem => hcomp.notMem y hmem hy, z, hxz, hzy⟩
  · rintro ⟨-, z, hxz, hzy⟩
    exact ⟨z, hxz, hzy⟩

/-- A potential maximal clique is a set whose vertices are joined outside it, and to all
of which no vertex outside is joined. -/
theorem isPmc_iff_joinedBy :
    G.IsPmc S ↔ (∀ x, x ∉ S → ∃ y ∈ S, ¬G.JoinedBy Sᶜ x y) ∧
      ∀ u ∈ S, ∀ v ∈ S, u ≠ v → G.JoinedBy Sᶜ u v := by
  constructor
  · intro h
    constructor
    · intro x hx
      have hcomp := isComponent_componentOf (G := G) hx
      by_contra hall
      push Not at hall
      apply h.no_full _ hcomp
      apply hcomp.nbhd_subset.antisymm
      intro y hy
      exact (joinedBy_compl_iff hx hy).mp (hall y hy)
    · intro u hu v hv huv
      rcases h.cliquish u hu v hv huv with hadj | ⟨D, hD, ⟨-, a, ha, hau⟩, ⟨-, b, hb, hbv⟩⟩
      · exact Or.inl hadj
      · exact Or.inr ⟨D, hD.notMem, hD.connected, ⟨a, ha, hau.symm⟩, b, hb, hbv.symm⟩
  · rintro ⟨hfull, hclique⟩
    constructor
    · intro D hD heq
      obtain ⟨x, hx⟩ := hD.nonempty
      obtain ⟨y, hy, hno⟩ := hfull x (hD.notMem x hx)
      rw [joinedBy_compl_iff (hD.notMem x hx) hy, ← hD.eq_componentOf hx, heq] at hno
      exact hno hy
    · intro u hu v hv huv
      rcases hclique u hu v hv huv with hadj | ⟨C, hC, hconn, ⟨a, ha, hua⟩, ⟨b, hb, hvb⟩⟩
      · exact Or.inl hadj
      · have hcomp := isComponent_componentOf (G := G) (hC ha)
        have hsub := hconn.subset_componentOf hC ha
        exact Or.inr ⟨_, hcomp, ⟨fun hmem => hcomp.notMem u hmem hu, a, hsub ha, hua.symm⟩,
          fun hmem => hcomp.notMem v hmem hv, b, hsub hb, hvb.symm⟩

end SimpleGraph
