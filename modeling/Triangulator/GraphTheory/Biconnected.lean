import Triangulator.GraphTheory.Completion
import Triangulator.GraphTheory.CliqueDecomposition

/-!
# Graphs without cut vertices

No vertex separates the vertices that have edges.  The property survives the removal of a
vertex of degree two whose neighbours get joined, and a vertex of degree one occurs only
in the graph with a single edge.
-/

namespace SimpleGraph

variable {V : Type*} {G : SimpleGraph V} {u v w x : V}

/-- No vertex separates two vertices that have edges. -/
def IsBiconnected (G : SimpleGraph V) : Prop :=
  ∀ w, ∀ u ∈ G.support, u ≠ w → ∀ v ∈ G.support, v ≠ w → G.ReachIn {w}ᶜ u v

theorem IsInseparable.isBiconnected (h : G.IsInseparable Set.univ) : G.IsBiconnected := by
  intro w u _ huw v _ hvw
  have hclique : G.IsClique {w} := Set.pairwise_singleton w _
  rw [Set.compl_eq_univ_sdiff]
  exact h {w} hclique u trivial huw v trivial hvw

namespace IsBiconnected

/-- The edge of a vertex of degree one is the only edge. -/
theorem eq_bot_of_degree_one (hG : G.IsBiconnected) (hx : G.neighborSet x = {u}) :
    G.within {x}ᶜ = ⊥ := by
  have hxu : G.Adj x u := by
    rw [← mem_neighborSet, hx]
    exact rfl
  have hends : ∀ a ∈ G.support, a ≠ x → a = u := by
    intro a ha hax
    by_contra hau
    obtain ⟨b, rfl, c, -, hc, hbc⟩ :=
      (hG u x ⟨u, hxu⟩ hxu.ne a ha hau).exists_exit (A := {x}) rfl hax
    rw [← mem_neighborSet, hx] at hbc
    exact hc hbc
  rw [eq_bot_iff]
  intro a b hab
  obtain ⟨hadj, ha, hb⟩ := within_adj.mp hab
  exact hadj.ne ((hends a ⟨b, hadj⟩ ha).trans (hends b ⟨a, hadj.symm⟩ hb).symm)

/-- A walk through a vertex of degree two passes between its joined neighbours instead. -/
theorem reachIn_join (hx : G.neighborSet x = {u, v}) {s t : V} (hs : s ≠ x)
    (h : G.ReachIn {w}ᶜ s t) :
    (t ≠ x → ((G.addFill [(u, v)]).within {x}ᶜ).ReachIn {w}ᶜ s t) ∧
    (t = x → ∃ y ∈ G.neighborSet x,
      ((G.addFill [(u, v)]).within {x}ᶜ).ReachIn {w}ᶜ s y) := by
  induction h with
  | refl => exact ⟨fun _ => ReachIn.refl s, fun heq => absurd heq hs⟩
  | @tail b c _ hstep ih =>
      constructor
      · intro hc
        by_cases hb : b = x
        · -- The walk leaves `x` for a neighbour, which the earlier one is joined to.
          obtain ⟨y, hy, hreach⟩ := ih.2 hb
          have hcx : c ∈ G.neighborSet x := hb ▸ hstep.1
          by_cases hyc : y = c
          · exact hyc ▸ hreach
          · have hyx : y ≠ x := fun heq => G.loopless.irrefl x (heq ▸ hy)
            apply hreach.tail _ hstep.2
            refine within_adj.mpr ⟨addFill_adj.mpr (Or.inr ⟨hyc, ?_⟩), hyx, hc⟩
            rw [hx] at hy hcx
            rcases hy with rfl | rfl
            · rcases hcx with rfl | rfl
              · exact absurd rfl hyc
              · simp
            · rcases hcx with rfl | rfl
              · simp
              · exact absurd rfl hyc
        · exact (ih.1 hb).tail (within_adj.mpr ⟨le_addFill hstep.1, hb, hc⟩) hstep.2
      · rintro rfl
        exact ⟨b, hstep.1.symm, ih.1 hstep.1.ne⟩

/-- A vertex of degree two is left out after its neighbours have been joined. -/
theorem join (hG : G.IsBiconnected) (hx : G.neighborSet x = {u, v}) :
    ((G.addFill [(u, v)]).within {x}ᶜ).IsBiconnected := by
  have hu : G.Adj x u := by
    rw [← mem_neighborSet, hx]
    exact Or.inl rfl
  have hv : G.Adj x v := by
    rw [← mem_neighborSet, hx]
    exact Or.inr rfl
  have hsupp : ((G.addFill [(u, v)]).within {x}ᶜ).support ⊆ G.support := by
    refine (support_mono (within_le _)).trans (support_addFill ?_)
    intro e he
    rw [List.mem_singleton] at he
    subst he
    exact ⟨⟨x, hu.symm⟩, x, hv.symm⟩
  have hne : ∀ a ∈ ((G.addFill [(u, v)]).within {x}ᶜ).support, a ≠ x := by
    rintro a ⟨b, hab⟩
    exact (within_adj.mp hab).2.1
  intro w s hs hsw t ht htw
  have hreach := hG w s (hsupp hs) hsw t (hsupp ht) htw
  exact (reachIn_join hx (hne s hs) hreach).1 (hne t ht)

end IsBiconnected

end SimpleGraph
