import Triangulator.GraphTheory.BlockRecurrence

/-!
# Maximum cardinality orders

In a maximum cardinality order, read from its end, every vertex has at the time
it is chosen as many chosen neighbours as any vertex not yet chosen.
-/

namespace SimpleGraph

variable {V : Type*} {G : SimpleGraph V} {order pre post : List V} {v x y : V}

/-- The number of neighbours of `v` in the list. -/
noncomputable def degreeIn (G : SimpleGraph V) (l : List V) (v : V) : ℕ :=
  (G.neighborSet v ∩ {w | w ∈ l}).ncard

theorem degreeIn_pos_iff [Finite V] {l : List V} :
    0 < G.degreeIn l v ↔ ∃ w ∈ l, G.Adj v w := by
  rw [degreeIn, Set.ncard_pos (Set.toFinite _)]
  exact ⟨fun ⟨w, hvw, hw⟩ => ⟨w, hw, hvw⟩, fun ⟨w, hw, hvw⟩ => ⟨w, hvw, hw⟩⟩

/-- A list of all vertices in which every vertex has at least as many neighbours
behind it as any vertex in front of it has among these. -/
structure IsMcsOrder (G : SimpleGraph V) (order : List V) : Prop where
  nodup : order.Nodup
  mem : ∀ v, v ∈ order
  maximal : ∀ pre x post, order = pre ++ x :: post → ∀ y ∈ pre,
    G.degreeIn post y ≤ G.degreeIn post x

/-- In a connected graph every vertex but the last has a neighbour behind it. -/
theorem IsMcsOrder.exists_adj [Finite V] (h : G.IsMcsOrder order)
    (hconn : G.IsConnectedSet Set.univ) (hsplit : order = pre ++ x :: post)
    (hne : post ≠ []) : ∃ y ∈ post, G.Adj x y := by
  obtain ⟨z, hz⟩ := List.exists_mem_of_ne_nil post hne
  have hnd := h.nodup
  rw [hsplit, List.nodup_append'] at hnd
  have hxpost : x ∉ post := (List.nodup_cons.mp hnd.2.1).1
  -- Some vertex outside `post` sees `post`, and `x` sees at least as much.
  obtain ⟨a, ha, b, hb, -, hab⟩ := (hconn z trivial x trivial).exists_exit
    (A := {w | w ∈ post}) hz hxpost
  rw [← degreeIn_pos_iff]
  have hbpos : 0 < G.degreeIn post b := degreeIn_pos_iff.mpr ⟨a, ha, hab.symm⟩
  have hbmem := h.mem b
  rw [hsplit, List.mem_append, List.mem_cons] at hbmem
  rcases hbmem with hbpre | rfl | hbpost
  · exact hbpos.trans_le (h.maximal pre x post hsplit b hbpre)
  · exact hbpos
  · exact absurd hbpost hb

end SimpleGraph
