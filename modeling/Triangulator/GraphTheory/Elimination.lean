import Triangulator.GraphTheory.MinimalTriangulation

/-!
# Perfect elimination orders and the elimination game

In a perfect elimination order the neighbours of every vertex that come later
form a clique.  The elimination game makes an arbitrary order perfect: it joins,
vertex after vertex, the later neighbours of the vertex pairwise.
-/

namespace SimpleGraph

variable {V : Type*} {G H : SimpleGraph V} {A : Set V} {order l pre post : List V} {u v x : V}

/-- A list of all vertices in which the neighbours of every vertex behind it form
a clique. -/
structure IsPerfectElimination (G : SimpleGraph V) (order : List V) : Prop where
  nodup : order.Nodup
  mem : ∀ v, v ∈ order
  simplicial : ∀ pre x post, order = pre ++ x :: post →
    G.IsSimplicialIn {y | y ∈ post} x

/-- A simplicial vertex may be added to a chordal part of the graph. -/
theorem isChordal_insert_simplicial (hA : (G.within A).IsChordal)
    (hx : G.IsSimplicialIn A x) : (G.within (insert x A)).IsChordal := by
  rw [isChordal_iff_no_hole]
  intro k f hf
  have h4 := hf.four_le
  by_cases hfx : ∃ r < k, f r = x
  · -- The two neighbours of `x` on the hole would be adjacent.
    obtain ⟨r, hr, rfl⟩ := hfx
    have hrot := hf.rotate hr
    have hzero : f (if r + 0 < k then r + 0 else r + 0 - k) = f r := by
      rw [if_pos (by omega), Nat.add_zero]
    have hmemA : ∀ t, 0 < t → t < k →
        f (if r + t < k then r + t else r + t - k) ∈ A := by
      intro t ht0 htk
      have hin := hrot.of_within.1 t htk
      apply hin.resolve_left
      intro heq
      have := hrot.inj t htk 0 (by omega) (heq.trans hzero.symm)
      omega
    have hnext := hrot.adj_succ (t := 0) (by omega)
    have hlast := hrot.adj_last
    simp only [hzero] at hnext hlast
    have hne : f (if r + (0 + 1) < k then r + (0 + 1) else r + (0 + 1) - k) ≠
        f (if r + (k - 1) < k then r + (k - 1) else r + (k - 1) - k) := by
      intro heq
      have := hrot.inj (0 + 1) (by omega) (k - 1) (by omega) heq
      omega
    have hadj := hx ⟨hnext.1, hmemA (0 + 1) (by omega) (by omega)⟩
      ⟨hlast.1, hmemA (k - 1) (by omega) (by omega)⟩ hne
    have hchord := (hrot.adj_iff (0 + 1) (k - 1) (by omega) (by omega)).mp
      ⟨hadj, hnext.2.2, hlast.2.2⟩
    omega
  · push Not at hfx
    have hmem : ∀ t < k, f t ∈ A := fun t ht =>
      (hf.of_within.1 t ht).resolve_left (hfx t ht)
    exact (hf.of_within.2.within hmem).not_isChordal hA

/-- A graph with a perfect elimination order is chordal. -/
theorem IsPerfectElimination.isChordal (h : G.IsPerfectElimination order) :
    G.IsChordal := by
  have hsuffix : ∀ l pre, order = pre ++ l → (G.within {y | y ∈ l}).IsChordal := by
    intro l
    induction l with
    | nil =>
        intro pre _
        rw [isChordal_iff_no_hole]
        intro k f hf
        exact List.not_mem_nil
          (hf.of_within.1 0 (by have := hf.four_le; omega))
    | cons x l ih =>
        intro pre hsplit
        have hl := ih (pre ++ [x]) (by rw [hsplit, List.append_assoc, List.singleton_append])
        have hset : {y | y ∈ x :: l} = insert x {y | y ∈ l} := by
          ext y
          simp
        rw [hset]
        exact isChordal_insert_simplicial hl (h.simplicial pre x l hsplit)
  apply (hsuffix order [] rfl).congr
  ext u v
  simp [h.mem]

/-! ## The elimination game -/

/-- Every vertex of the list in turn has its neighbours behind it joined
pairwise. -/
def eliminationGraph : SimpleGraph V → List V → SimpleGraph V
  | G, [] => G
  | G, x :: l => eliminationGraph (G ⊔ completeOn (G.neighborSet x ∩ {y | y ∈ l})) l

theorem le_eliminationGraph : G ≤ G.eliminationGraph l := by
  induction l generalizing G with
  | nil => exact le_rfl
  | cons x l ih => exact le_sup_left.trans ih

/-- The game stays inside every supergraph in which the list is perfect. -/
theorem eliminationGraph_le (hGH : G ≤ H)
    (hH : ∀ pre x post, l = pre ++ x :: post → H.IsSimplicialIn {y | y ∈ post} x) :
    G.eliminationGraph l ≤ H := by
  induction l generalizing G with
  | nil => exact hGH
  | cons x l ih =>
      apply ih
      · apply sup_le hGH
        rw [completeOn_le_iff]
        apply (hH [] x l rfl).subset
        exact Set.inter_subset_inter_left _ fun v hv => hGH hv
      · intro pre y post hsplit
        exact hH (x :: pre) y post (by rw [hsplit, List.cons_append])

/-- The game adds no edge at a vertex outside the list. -/
theorem eliminationGraph_adj_of_notMem (hu : u ∉ l) :
    (G.eliminationGraph l).Adj u v ↔ G.Adj u v := by
  induction l generalizing G with
  | nil => exact Iff.rfl
  | cons x l ih =>
      rw [List.mem_cons, not_or] at hu
      rw [eliminationGraph, ih hu.2, sup_adj, completeOn_adj]
      constructor
      · rintro (h | ⟨-, hul, -⟩)
        · exact h
        · exact absurd hul.2 hu.2
      · exact Or.inl

theorem simplicial_eliminationGraph (hnd : l.Nodup) (hsplit : l = pre ++ x :: post) :
    (G.eliminationGraph l).IsSimplicialIn {y | y ∈ post} x := by
  induction pre generalizing G l with
  | nil =>
      subst hsplit
      have hx : x ∉ post := (List.nodup_cons.mp hnd).1
      have hN : ∀ v, (G.eliminationGraph (x :: post)).Adj x v ↔ G.Adj x v := by
        intro v
        rw [eliminationGraph, eliminationGraph_adj_of_notMem hx, sup_adj, completeOn_adj]
        constructor
        · rintro (h | ⟨-, hxx, -⟩)
          · exact h
          · exact absurd hxx.1 (G.loopless.irrefl x)
        · exact Or.inl
      intro u hu v hv huv
      have hle : G ⊔ completeOn (G.neighborSet x ∩ {y | y ∈ post}) ≤
          G.eliminationGraph (x :: post) := le_eliminationGraph
      exact hle (Or.inr ⟨huv, ⟨(hN u).mp hu.1, hu.2⟩, (hN v).mp hv.1, hv.2⟩)
  | cons a pre ih =>
      subst hsplit
      exact ih (l := pre ++ x :: post) (List.nodup_cons.mp hnd).2 rfl

/-- The order of the game is a perfect elimination order of its result. -/
theorem isPerfectElimination_eliminationGraph (hnd : order.Nodup)
    (hmem : ∀ v, v ∈ order) : (G.eliminationGraph order).IsPerfectElimination order where
  nodup := hnd
  mem := hmem
  simplicial := fun _ _ _ hsplit => simplicial_eliminationGraph hnd hsplit

/-- The game on a perfect elimination order of a minimal triangulation finds this
triangulation. -/
theorem IsMinimalTriangulation.eliminationGraph_eq (h : G.IsMinimalTriangulation H)
    (horder : H.IsPerfectElimination order) : G.eliminationGraph order = H := by
  apply h.eq_of_le
  · exact ⟨le_eliminationGraph,
      (isPerfectElimination_eliminationGraph horder.nodup horder.mem).isChordal⟩
  · exact eliminationGraph_le h.le horder.simplicial

end SimpleGraph
