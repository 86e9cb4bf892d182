import Triangulator.GraphTheory.Chordal

/-!
# Fill edges

A list of pairs of distinct nonadjacent vertices, each unordered pair at most
once, and the graph with these pairs added.
-/

namespace SimpleGraph

variable {V : Type*} {G H : SimpleGraph V} {F F' : List (V × V)} {u v : V}

/-- The graph with the pairs of `F` added as edges. -/
def addFill (G : SimpleGraph V) (F : List (V × V)) : SimpleGraph V :=
  G ⊔ fromEdgeSet {e | e ∈ F.map fun p => s(p.1, p.2)}

/-- The pairs of `F` are distinct non-edges of `G`. -/
structure IsFill (G : SimpleGraph V) (F : List (V × V)) : Prop where
  nonEdge : ∀ p ∈ F, p.1 ≠ p.2 ∧ ¬G.Adj p.1 p.2
  nodup : (F.map fun p => s(p.1, p.2)).Nodup

theorem addFill_adj :
    (G.addFill F).Adj u v ↔
      G.Adj u v ∨ (u ≠ v ∧ s(u, v) ∈ F.map fun p => s(p.1, p.2)) := by
  rw [addFill, sup_adj, fromEdgeSet_adj, Set.mem_ofPred_eq, and_comm]

theorem le_addFill : G ≤ G.addFill F :=
  le_sup_left

@[simp] theorem addFill_nil : G.addFill [] = G := by
  ext u v
  simp [addFill_adj]

theorem addFill_append : G.addFill (F ++ F') = (G.addFill F).addFill F' := by
  ext u v
  simp only [addFill_adj, List.map_append, List.mem_append]
  tauto

theorem isFill_nil : G.IsFill [] :=
  ⟨by simp, by simp⟩

/-- The pairs of a list that enumerates the new edges of a larger graph. -/
theorem addFill_eq (hle : G ≤ H)
    (hF : ∀ e, e ∈ F.map (fun p => s(p.1, p.2)) ↔ e ∈ H.edgeSet \ G.edgeSet) :
    G.addFill F = H := by
  ext u v
  rw [addFill_adj, hF, Set.mem_sdiff, mem_edgeSet, mem_edgeSet]
  constructor
  · rintro (h | ⟨-, h, -⟩)
    · exact hle h
    · exact h
  · intro h
    by_cases hG : G.Adj u v
    · exact Or.inl hG
    · exact Or.inr ⟨h.ne, h, hG⟩

theorem isFill_of_edgeSet (hnd : (F.map fun p => s(p.1, p.2)).Nodup)
    (hF : ∀ e, e ∈ F.map (fun p => s(p.1, p.2)) ↔ e ∈ H.edgeSet \ G.edgeSet) :
    G.IsFill F := by
  refine ⟨fun p hp => ?_, hnd⟩
  have hmem := (hF s(p.1, p.2)).mp (List.mem_map.mpr ⟨p, hp, rfl⟩)
  exact ⟨H.ne_of_adj hmem.1, hmem.2⟩

end SimpleGraph
