import Triangulator.GraphTheory.Reduction
import Triangulator.Model.TreewidthPreprocessor
import Triangulator.Verification.GraphBuild

/-!
# Completing a neighbourhood with one missing edge

`NeighborClique` joins the only two nonadjacent neighbours of some vertex.
-/

namespace Triangulator

open SimpleGraph

variable {n : ℕ} {graph : Graph n} {x : Fin n} {p : Fin n × Fin n}

theorem mem_of_mem_pairs {α : Type*} {l : List α} {p : α × α} (hp : p ∈ pairs l) :
    p.1 ∈ l ∧ p.2 ∈ l := by
  induction l with
  | nil => exact absurd hp List.not_mem_nil
  | cons u l ih =>
      rw [pairs, List.mem_append, List.mem_map] at hp
      rcases hp with ⟨v, hv, rfl⟩ | hp
      · exact ⟨List.mem_cons_self, List.mem_cons_of_mem u hv⟩
      · exact (ih hp).imp (List.mem_cons_of_mem u) (List.mem_cons_of_mem u)

theorem ne_of_mem_pairs {α : Type*} {l : List α} (hnd : l.Nodup) {p : α × α}
    (hp : p ∈ pairs l) : p.1 ≠ p.2 := by
  induction l with
  | nil => exact absurd hp List.not_mem_nil
  | cons u l ih =>
      rw [List.nodup_cons] at hnd
      rw [pairs, List.mem_append, List.mem_map] at hp
      rcases hp with ⟨v, hv, rfl⟩ | hp
      · intro heq
        have huv : u = v := heq
        exact hnd.1 (huv ▸ hv)
      · exact ih hnd.2 hp

theorem mem_pairs_or {α : Type*} {l : List α} {a b : α} (ha : a ∈ l) (hb : b ∈ l)
    (hab : a ≠ b) : (a, b) ∈ pairs l ∨ (b, a) ∈ pairs l := by
  induction l with
  | nil => exact absurd ha List.not_mem_nil
  | cons u l ih =>
      rw [pairs, List.mem_append, List.mem_append, List.mem_map, List.mem_map]
      rcases List.mem_cons.mp ha with rfl | hal
      · rcases List.mem_cons.mp hb with rfl | hbl
        · exact absurd rfl hab
        · exact Or.inl (Or.inl ⟨b, hbl, rfl⟩)
      · rcases List.mem_cons.mp hb with rfl | hbl
        · exact Or.inr (Or.inl ⟨a, hal, rfl⟩)
        · exact (ih hal hbl).imp Or.inr Or.inr

/-- After the first missing edge the scan continues only over edges. -/
theorem scanPairs_some {ps : List (Fin n × Fin n)} {r : Option (Fin n × Fin n)}
    (h : scanPairs graph ps (some p) = some r) :
    r = some p ∧ ∀ q ∈ ps, graph.hasEdge q.1 q.2 = true := by
  induction ps with
  | nil =>
      rw [scanPairs, Option.some.injEq] at h
      exact ⟨h.symm, by simp⟩
  | cons q ps ih =>
      rw [scanPairs] at h
      by_cases hq : graph.hasEdge q.1 q.2 = true
      · rw [if_pos hq] at h
        obtain ⟨hr, hall⟩ := ih h
        refine ⟨hr, ?_⟩
        intro q' hq'
        rcases List.mem_cons.mp hq' with rfl | hq'
        · exact hq
        · exact hall q' hq'
      · rw [if_neg hq] at h
        cases h

/-- The scan ends without a missing edge or with the only one. -/
theorem scanPairs_none {ps : List (Fin n × Fin n)} {r : Option (Fin n × Fin n)}
    (h : scanPairs graph ps none = some r) :
    (r = none ∧ ∀ q ∈ ps, graph.hasEdge q.1 q.2 = true) ∨
    ∃ p ∈ ps, r = some p ∧ graph.hasEdge p.1 p.2 = false ∧
      ∀ q ∈ ps, q = p ∨ graph.hasEdge q.1 q.2 = true := by
  induction ps with
  | nil =>
      rw [scanPairs, Option.some.injEq] at h
      exact Or.inl ⟨h.symm, by simp⟩
  | cons q ps ih =>
      rw [scanPairs] at h
      by_cases hq : graph.hasEdge q.1 q.2 = true
      · rw [if_pos hq] at h
        rcases ih h with ⟨hr, hall⟩ | ⟨p, hp, hr, hmiss, hall⟩
        · left
          refine ⟨hr, ?_⟩
          intro q' hq'
          rcases List.mem_cons.mp hq' with rfl | hq'
          · exact hq
          · exact hall q' hq'
        · right
          refine ⟨p, List.mem_cons_of_mem q hp, hr, hmiss, ?_⟩
          intro q' hq'
          rcases List.mem_cons.mp hq' with rfl | hq'
          · exact Or.inr hq
          · exact hall q' hq'
      · rw [if_neg hq] at h
        obtain ⟨hr, hall⟩ := scanPairs_some h
        right
        refine ⟨q, List.mem_cons_self, hr, by simpa using hq, ?_⟩
        intro q' hq'
        rcases List.mem_cons.mp hq' with rfl | hq'
        · exact Or.inl rfl
        · exact Or.inr (hall q' hq')

/-- A list without repetitions has every unordered pair once. -/
theorem nodup_pairs {α : Type*} {l : List α} (hnd : l.Nodup) :
    ((pairs l).map fun p => s(p.1, p.2)).Nodup := by
  induction l with
  | nil => exact List.nodup_nil
  | cons u l ih =>
      rw [List.nodup_cons] at hnd
      rw [pairs, List.map_append, List.map_map]
      apply List.Nodup.append _ (ih hnd.2)
      · intro e he he'
        obtain ⟨v, -, rfl⟩ := List.mem_map.mp he
        obtain ⟨p, hp, heq⟩ := List.mem_map.mp he'
        obtain ⟨h1, h2⟩ := mem_of_mem_pairs hp
        rcases Sym2.eq_iff.mp heq with ⟨hu, -⟩ | ⟨-, hu⟩
        · rw [hu] at h1
          exact hnd.1 h1
        · rw [hu] at h2
          exact hnd.1 h2
      · apply hnd.2.map
        intro v w hvw
        exact Sym2.congr_right.mp hvw

theorem scanPairs_of_edges {ps : List (Fin n × Fin n)} (fo : Option (Fin n × Fin n))
    (h : ∀ q ∈ ps, graph.hasEdge q.1 q.2 = true) : scanPairs graph ps fo = some fo := by
  induction ps with
  | nil => rw [scanPairs]
  | cons q ps ih =>
      rw [scanPairs.eq_def]
      dsimp only
      rw [if_pos (h q List.mem_cons_self)]
      exact ih fun q' hq' => h q' (List.mem_cons_of_mem q hq')

/-- The scan ends when at most one pair is missing. -/
theorem exists_scanPairs {ps : List (Fin n × Fin n)} {e : Sym2 (Fin n)}
    (hnd : (ps.map fun q => s(q.1, q.2)).Nodup)
    (h : ∀ q ∈ ps, graph.hasEdge q.1 q.2 = true ∨ s(q.1, q.2) = e) :
    ∃ r, scanPairs graph ps none = some r := by
  induction ps with
  | nil => exact ⟨none, rfl⟩
  | cons q ps ih =>
      rw [List.map_cons, List.nodup_cons] at hnd
      rw [scanPairs]
      by_cases hq : graph.hasEdge q.1 q.2 = true
      · rw [if_pos hq]
        exact ih hnd.2 fun q' hq' => h q' (List.mem_cons_of_mem q hq')
      · -- The pair `q` is the missing one, so all later pairs are edges.
        rw [if_neg hq]
        have hqe : s(q.1, q.2) = e := (h q List.mem_cons_self).resolve_left hq
        refine ⟨_, scanPairs_of_edges (some q) fun q' hq' => ?_⟩
        apply (h q' (List.mem_cons_of_mem q hq')).resolve_right
        intro hqe'
        apply hnd.1
        rw [hqe, ← hqe']
        exact List.mem_map_of_mem hq'

/-- The pair `u`, `v` is the only missing edge among the neighbours of `x`. -/
structure IsOnlyMissing (G : SimpleGraph (Fin n)) (x u v : Fin n) : Prop where
  left : G.Adj x u
  right : G.Adj x v
  ne : u ≠ v
  not_adj : ¬G.Adj u v
  adj : ∀ a ∈ G.neighborSet x, ∀ b ∈ G.neighborSet x, a ≠ b → s(a, b) ≠ s(u, v) → G.Adj a b

/-- A vertex with exactly one missing edge among its neighbours is not passed over. -/
theorem IsOnlyMissing.exists_scanPairs (hg : graph.Valid) {u v : Fin n}
    (hmiss : IsOnlyMissing graph.toSimple x u v) :
    ∃ r, scanPairs graph (pairs (graph.adjList x)) none = some r := by
  apply Triangulator.exists_scanPairs (e := s(u, v)) (nodup_pairs (hg.nodup_adjList x))
  intro q hq
  obtain ⟨h1, h2⟩ := mem_of_mem_pairs hq
  by_cases heq : s(q.1, q.2) = s(u, v)
  · exact Or.inr heq
  · left
    exact hg.adj_iff.mp (hmiss.adj _ (hg.mem_adjList_iff.mp h1) _ (hg.mem_adjList_iff.mp h2)
      (ne_of_mem_pairs (hg.nodup_adjList x) hq) heq)

/-- `NeighborClique` on a graph of minimum degree three in which no neighbourhood is a
clique. -/
theorem neighborClique_spec (hg : graph.Valid) (hdeg : ∀ v, 2 < (graph.adjList v).length)
    (hne : ∀ v, ¬graph.toSimple.IsClique (graph.toSimple.neighborSet v)) :
    (neighborClique graph = some none ∧ ∀ x u v, ¬IsOnlyMissing graph.toSimple x u v) ∨
    ∃ graph' x u v, neighborClique graph = some (some (graph', (u, v))) ∧
      EdgesAdded graph [(u, v)] graph' ∧ IsOnlyMissing graph.toSimple x u v := by
  have hloop : ∀ l : List (Fin n), (neighborCliqueLoop graph l = some none ∧
      ∀ x ∈ l, ∀ u v, ¬IsOnlyMissing graph.toSimple x u v) ∨
      ∃ graph' x u v, neighborCliqueLoop graph l = some (some (graph', (u, v))) ∧
        EdgesAdded graph [(u, v)] graph' ∧ IsOnlyMissing graph.toSimple x u v := by
    intro l
    induction l with
    | nil => exact Or.inl ⟨rfl, by simp⟩
    | cons x l ih =>
        rw [neighborCliqueLoop, if_pos (hdeg x)]
        cases hscan : scanPairs graph (pairs (graph.adjList x)) none with
        | none =>
            refine ih.imp_left fun hrest => ⟨hrest.1, ?_⟩
            intro y hy u v hmiss
            rcases List.mem_cons.mp hy with rfl | hy
            · obtain ⟨r, hr⟩ := hmiss.exists_scanPairs hg
              rw [hscan] at hr
              cases hr
            · exact hrest.2 y hy u v hmiss
        | some r =>
            rcases scanPairs_none hscan with ⟨hr, hall⟩ | ⟨⟨u, v⟩, hp, hr, hmiss, hall⟩
            · -- A neighbourhood without a missing edge is a clique.
              exfalso
              apply hne x
              intro a ha b hb hab
              have hal : a ∈ graph.adjList x := hg.mem_adjList_iff.mpr ha
              have hbl : b ∈ graph.adjList x := hg.mem_adjList_iff.mpr hb
              rcases mem_pairs_or hal hbl hab with hmem | hmem
              · exact hg.adj_iff.mpr (hall _ hmem)
              · exact (hg.adj_iff.mpr (hall _ hmem)).symm
            · right
              subst hr
              have huv : u ≠ v := ne_of_mem_pairs (hg.nodup_adjList x) hp
              obtain ⟨hu, hv⟩ := mem_of_mem_pairs hp
              obtain ⟨graph', hadd, hspec⟩ := addEdge_spec hg huv
              refine ⟨graph', x, u, v, ?_, hspec, ?_⟩
              · dsimp only at hmiss ⊢
                rw [if_neg (by rw [hmiss]; exact Bool.false_ne_true), hadd]
                rfl
              · refine ⟨hg.mem_adjList_iff.mp hu, hg.mem_adjList_iff.mp hv, huv, ?_, ?_⟩
                · intro hadj
                  have htrue : graph.hasEdge u v = true := hg.adj_iff.mp hadj
                  rw [hmiss] at htrue
                  exact Bool.false_ne_true htrue
                · intro a ha b hb hab hne'
                  have hal : a ∈ graph.adjList x := hg.mem_adjList_iff.mpr ha
                  have hbl : b ∈ graph.adjList x := hg.mem_adjList_iff.mpr hb
                  rcases mem_pairs_or hal hbl hab with hmem | hmem
                  · rcases hall _ hmem with heq | hedge
                    · rw [Prod.mk.injEq] at heq
                      exact absurd (by rw [heq.1, heq.2]) hne'
                    · exact hg.adj_iff.mpr hedge
                  · rcases hall _ hmem with heq | hedge
                    · rw [Prod.mk.injEq] at heq
                      exact absurd (by rw [heq.1, heq.2, Sym2.eq_swap]) hne'
                    · exact (hg.adj_iff.mpr hedge).symm
  exact (hloop (List.finRange n)).imp_left fun h => ⟨h.1, fun x => h.2 x (List.mem_finRange x)⟩

end Triangulator
