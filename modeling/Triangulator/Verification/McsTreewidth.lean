import Triangulator.GraphTheory.ChordalOrder
import Triangulator.GraphTheory.Treewidth
import Triangulator.Verification.GraphUpdate
import Triangulator.Verification.McsOrder

/-!
# The treewidth of a chordal graph

On a chordal graph the later neighbours of every vertex of the search order form a
clique, so no assertion fails, and the largest number of later neighbours is the
treewidth.
-/

namespace Triangulator

open SimpleGraph

variable {n : ℕ} {g : Graph n}

/-! ## The position of a vertex in an order -/

namespace Mcs

theorem foldl_update_zipIdx (perm : List (Fin n)) (hnd : perm.Nodup) (k : ℕ)
    (f : Fin n → ℕ) (v : Fin n) :
    (perm.zipIdx k).foldl (fun ret p => Function.update ret p.1 p.2) f v =
      if v ∈ perm then k + perm.idxOf v else f v := by
  induction perm generalizing k f with
  | nil => simp
  | cons a perm ih =>
      rw [List.nodup_cons] at hnd
      rw [List.zipIdx_cons, List.foldl_cons, ih hnd.2]
      by_cases hva : v = a
      · subst hva
        simp [hnd.1]
      · by_cases hv : v ∈ perm
        · rw [if_pos hv, if_pos (by simp [hv]), List.idxOf_cons_ne _ (Ne.symm hva)]
          omega
        · rw [if_neg hv, if_neg (by simp [hva, hv]), Function.update_of_ne hva]

/-- `PermInverse` returns positions. -/
theorem permInverse_eq {perm : List (Fin n)} (hnd : perm.Nodup) {v : Fin n}
    (hv : v ∈ perm) : permInverse perm v = perm.idxOf v := by
  rw [permInverse, foldl_update_zipIdx perm hnd, if_pos hv, Nat.zero_add]

/-- The vertices with a smaller position are those in front. -/
theorem permInverse_lt_iff {pre post : List (Fin n)} {x v : Fin n}
    (hnd : (pre ++ x :: post).Nodup) (hv : v ∈ pre ++ x :: post) :
    permInverse (pre ++ x :: post) v < permInverse (pre ++ x :: post) x ↔ v ∈ pre := by
  have hx : x ∉ pre := fun h => (List.nodup_append'.mp hnd).2.2 h (by simp)
  rw [permInverse_eq hnd hv, permInverse_eq hnd (by simp),
    List.idxOf_append_of_notMem hx, List.idxOf_cons_self, Nat.add_zero]
  by_cases hpre : v ∈ pre
  · rw [List.idxOf_append_of_mem hpre]
    exact iff_of_true (List.idxOf_lt_length_of_mem hpre) hpre
  · rw [List.idxOf_append_of_notMem hpre]
    exact iff_of_false (by omega) hpre

/-- The vertices with a larger position are those behind. -/
theorem lt_permInverse_iff {pre post : List (Fin n)} {x v : Fin n}
    (hnd : (pre ++ x :: post).Nodup) (hv : v ∈ pre ++ x :: post) :
    permInverse (pre ++ x :: post) x < permInverse (pre ++ x :: post) v ↔ v ∈ post := by
  by_cases hpost : v ∈ post
  · obtain ⟨r, s, rfl⟩ := List.append_of_mem hpost
    have hsplit : pre ++ x :: (r ++ v :: s) = (pre ++ x :: r) ++ v :: s := by simp
    rw [hsplit] at hnd hv ⊢
    rw [permInverse_lt_iff hnd (by simp)]
    exact iff_of_true (by simp) hpost
  · apply iff_of_false _ hpost
    have hmem := hv
    rw [List.mem_append, List.mem_cons] at hmem
    rcases hmem with hpre | rfl | hmem
    · exact Nat.lt_asymm ((permInverse_lt_iff hnd hv).mpr hpre)
    · exact Nat.lt_irrefl _
    · exact absurd hmem hpost

theorem permInverse_self {pre post : List (Fin n)} {x : Fin n}
    (hnd : (pre ++ x :: post).Nodup) : permInverse (pre ++ x :: post) x = pre.length := by
  have hx : x ∉ pre := fun h => (List.nodup_append'.mp hnd).2.2 h (by simp)
  rw [permInverse_eq hnd (by simp), List.idxOf_append_of_notMem hx, List.idxOf_cons_self,
    Nat.add_zero]

end Mcs

/-! ## The clique test -/

theorem Graph.Valid.isClique_iff (hg : g.Valid) {l : List (Fin n)} (hnd : l.Nodup) :
    g.isClique l = true ↔ g.toSimple.IsClique (vset l) := by
  induction l with
  | nil => simp [Graph.isClique, vset]
  | cons v l ih =>
      rw [List.nodup_cons] at hnd
      rw [Graph.isClique, Bool.and_eq_true, List.all_eq_true, ih hnd.2]
      have hset : vset (v :: l) = insert v (vset l) := by
        ext w
        simp
      rw [hset, isClique_insert_of_notMem (by simpa using hnd.1)]
      constructor
      · intro h
        exact ⟨h.2, fun u hu => hg.adj_iff.mpr (h.1 u hu)⟩
      · intro h
        exact ⟨fun u hu => hg.adj_iff.mp (h.2 u hu), h.1⟩

/-! ## The largest number of later neighbours -/

namespace Mcs

/-- The later neighbours that the code collects. -/
theorem vset_laterNeighbors (hg : g.Valid) {pre post : List (Fin n)} {x : Fin n}
    (hnd : (pre ++ x :: post).Nodup) (hall : ∀ v, v ∈ pre ++ x :: post) :
    vset ((g.adjList x).filter fun nx =>
        decide (pre.length < permInverse (pre ++ x :: post) nx)) =
      g.toSimple.neighborSet x ∩ {w | w ∈ post} := by
  ext v
  rw [mem_vset, List.mem_filter, hg.mem_adjList_iff, decide_eq_true_eq,
    ← permInverse_self hnd, lt_permInverse_iff hnd (hall v)]
  exact Iff.rfl

theorem treewidth_fold (hg : g.Valid) {order : List (Fin n)}
    (horder : g.toSimple.IsPerfectElimination order) (rest pre : List (Fin n)) (tw : ℤ)
    (hsplit : order = pre ++ rest) :
    ∃ t, (rest.zipIdx pre.length).foldlM
        (fun tw p =>
          let clq := (g.adjList p.1).filter fun nx => decide (p.2 < permInverse order nx)
          if g.isClique clq then some (max tw (clq.length : ℤ)) else none) tw = some t ∧
      tw ≤ t ∧ ∀ k : ℕ, t ≤ k ↔ tw ≤ k ∧
        ∀ p x q, rest = p ++ x :: q → g.toSimple.degreeIn q x ≤ k := by
  induction rest generalizing pre tw with
  | nil =>
      refine ⟨tw, rfl, le_rfl, ?_⟩
      intro k
      simp
  | cons x rest ih =>
      have hnd : (pre ++ x :: rest).Nodup := hsplit ▸ horder.nodup
      have hall : ∀ v, v ∈ pre ++ x :: rest := fun v => hsplit ▸ horder.mem v
      have hset := vset_laterNeighbors hg hnd hall
      have hndf : ((g.adjList x).filter fun nx =>
          decide (pre.length < permInverse (pre ++ x :: rest) nx)).Nodup :=
        (hg.nodup_adjList x).filter _
      have hclique : g.isClique ((g.adjList x).filter fun nx =>
          decide (pre.length < permInverse (pre ++ x :: rest) nx)) = true := by
        rw [hg.isClique_iff hndf, hset]
        exact horder.simplicial pre x rest hsplit
      have hlen : ((g.adjList x).filter fun nx =>
          decide (pre.length < permInverse (pre ++ x :: rest) nx)).length =
          g.toSimple.degreeIn rest x := by
        rw [← ncard_vset hndf, hset]
        rfl
      have hrest : order = (pre ++ [x]) ++ rest := by
        rw [hsplit, List.append_assoc, List.singleton_append]
      obtain ⟨t, hrun, hle, hiff⟩ := ih (pre ++ [x])
        (max tw (g.toSimple.degreeIn rest x : ℤ)) hrest
      refine ⟨t, ?_, (le_max_left _ _).trans hle, ?_⟩
      · rw [List.zipIdx_cons, List.foldlM_cons]
        simp only [hsplit] at hrun ⊢
        rw [hclique, if_pos rfl, hlen]
        simpa using hrun
      · intro k
        rw [hiff k, max_le_iff, and_assoc]
        refine and_congr_right fun _ => ?_
        constructor
        · rintro ⟨hx, htail⟩ p y q hpq
          cases p with
          | nil =>
              obtain ⟨rfl, rfl⟩ := List.cons.inj hpq
              exact_mod_cast hx
          | cons a p => exact htail p y q (List.cons.inj hpq).2
        · intro h
          refine ⟨by exact_mod_cast h [] x rest rfl, fun p y q hpq => ?_⟩
          exact h (x :: p) y q (by rw [hpq, List.cons_append])

/-- `Treewidth` of a chordal graph. -/
theorem treewidth_spec (hg : g.Valid) (hchordal : g.toSimple.IsChordal) :
    Mcs.treewidth g = some (g.toSimple.treewidth : ℤ) := by
  rw [hchordal.treewidth_eq]
  by_cases hm : g.m = 0
  · rw [Mcs.treewidth, if_pos hm, hg.m_eq_zero_iff.mp hm]
    have hle : (⊥ : SimpleGraph (Fin n)).cliqueNum ≤ 1 := by
      rw [SimpleGraph.cliqueNum_le_iff]
      intro Q hQ
      rw [Set.ncard_le_one (Set.toFinite _)]
      intro a ha b hb
      by_contra hab
      exact hQ ha hb hab
    rw [Nat.sub_eq_zero_of_le hle]
    rfl
  · obtain ⟨order, hrun, hmcs⟩ := mcs_spec hg
    have horder := hmcs.isPerfectElimination hchordal
    obtain ⟨t, hfold, hnonneg, hiff⟩ := treewidth_fold hg horder order [] 0 rfl
    rw [Mcs.treewidth, if_neg hm, hrun]
    have ht : ((t.toNat : ℕ) : ℤ) = t := Int.toNat_of_nonneg hnonneg
    have hk : ∀ k : ℕ, t ≤ k ↔ g.toSimple.cliqueNum ≤ k + 1 := by
      intro k
      rw [hiff k, horder.cliqueNum_le_iff]
      exact and_iff_right (Int.natCast_nonneg k)
    have heq : t.toNat = g.toSimple.cliqueNum - 1 := by
      apply le_antisymm
      · have hle := (hk (g.toSimple.cliqueNum - 1)).mpr (Nat.sub_le_iff_le_add.mp le_rfl)
        omega
      · rw [Nat.sub_le_iff_le_add]
        exact (hk t.toNat).mp ht.ge
    rw [← heq, ht]
    exact hfold

/-- When no clique test fails, the later neighbours of every vertex form a clique. -/
theorem simplicial_of_fold (hg : g.Valid) {order : List (Fin n)} (hnd : order.Nodup)
    (hmem : ∀ v, v ∈ order) (rest pre : List (Fin n)) (tw t : ℤ) (hsplit : order = pre ++ rest)
    (hrun : (rest.zipIdx pre.length).foldlM
      (fun tw p =>
        let clq := (g.adjList p.1).filter fun nx => decide (p.2 < permInverse order nx)
        if g.isClique clq then some (max tw (clq.length : ℤ)) else none) tw = some t) :
    ∀ p x q, rest = p ++ x :: q → g.toSimple.IsSimplicialIn {y | y ∈ q} x := by
  induction rest generalizing pre tw with
  | nil =>
      intro p x q hpq
      exact absurd hpq (by simp)
  | cons y rest ih =>
      have hnd' : (pre ++ y :: rest).Nodup := hsplit ▸ hnd
      have hall : ∀ v, v ∈ pre ++ y :: rest := fun v => hsplit ▸ hmem v
      have hndf : ((g.adjList y).filter fun nx =>
          decide (pre.length < permInverse (pre ++ y :: rest) nx)).Nodup :=
        (hg.nodup_adjList y).filter _
      rw [List.zipIdx_cons, List.foldlM_cons, Option.bind_eq_bind, Option.bind_eq_some_iff] at hrun
      obtain ⟨tw', hstep, hrest⟩ := hrun
      dsimp only at hstep
      split at hstep
      · rename_i hclique
        have hsimp : g.toSimple.IsSimplicialIn {w | w ∈ rest} y := by
          rw [hsplit, hg.isClique_iff hndf, vset_laterNeighbors hg hnd' hall] at hclique
          exact hclique
        have hnext : order = (pre ++ [y]) ++ rest := by
          rw [hsplit, List.append_assoc, List.singleton_append]
        have hlen : (pre ++ [y]).length = pre.length + 1 := by simp
        have htail := ih (pre ++ [y]) tw' hnext (hlen ▸ hrest)
        intro p x q hpq
        cases p with
        | nil =>
            obtain ⟨rfl, rfl⟩ := List.cons.inj hpq
            exact hsimp
        | cons a p => exact htail p x q (List.cons.inj hpq).2
      · cases hstep

/-- `Mcs` recognises chordal graphs; the clique tests of `Treewidth` succeed exactly on
these, and then it returns the clique number minus one. -/
theorem mcs_recognises (hg : g.Valid) :
    (∃ order, mcs g = some order ∧
      (g.toSimple.IsPerfectElimination order ↔ g.toSimple.IsChordal)) ∧
    ((∃ u v, g.toSimple.Adj u v) →
      ((∃ t, Mcs.treewidth g = some t) ↔ g.toSimple.IsChordal) ∧
      (g.toSimple.IsChordal → Mcs.treewidth g = some ((g.toSimple.cliqueNum : ℤ) - 1))) := by
  obtain ⟨order, hrun, hmcs⟩ := mcs_spec hg
  refine ⟨⟨order, hrun, fun h => h.isChordal, hmcs.isPerfectElimination⟩, ?_⟩
  rintro ⟨u, v, huv⟩
  have hm : g.m ≠ 0 := by
    intro h0
    rw [hg.m_eq_zero_iff.mp h0] at huv
    exact huv
  have : Nonempty (Fin n) := ⟨u⟩
  refine ⟨⟨?_, fun h => ⟨_, treewidth_spec hg h⟩⟩, ?_⟩
  · rintro ⟨t, ht⟩
    rw [Mcs.treewidth, if_neg hm, hrun, Option.bind_eq_bind, Option.bind_some] at ht
    have hsimp := simplicial_of_fold hg hmcs.nodup hmcs.mem order [] 0 t rfl ht
    have hperfect : g.toSimple.IsPerfectElimination order := ⟨hmcs.nodup, hmcs.mem, hsimp⟩
    exact hperfect.isChordal
  · intro h
    rw [treewidth_spec hg h, h.cliqueNum_eq, Nat.cast_add, Nat.cast_one, add_sub_cancel_right]

/-- Two triangles with a common edge. -/
def twoTriangles : Option (Graph 8) :=
  (Graph.empty 8).addEdges [(0, 1), (1, 2), (0, 2), (1, 3), (2, 3)]

theorem mcs_recognises_twoTriangles :
    ∃ g, twoTriangles = some g ∧
      (∃ order, mcs g = some order ∧
        (g.toSimple.IsPerfectElimination order ↔ g.toSimple.IsChordal)) ∧
      ((∃ u v, g.toSimple.Adj u v) →
        ((∃ t, Mcs.treewidth g = some t) ↔ g.toSimple.IsChordal) ∧
        (g.toSimple.IsChordal → Mcs.treewidth g = some ((g.toSimple.cliqueNum : ℤ) - 1))) := by
  obtain ⟨g, hadd, h⟩ := addEdges_spec (Graph.valid_empty 8)
    [(0, 1), (1, 2), (0, 2), (1, 3), (2, 3)] (by decide)
  exact ⟨g, hadd, mcs_recognises h.valid⟩

end Mcs

end Triangulator
