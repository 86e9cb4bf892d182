import Triangulator.GraphTheory.Fill
import Triangulator.Verification.Components

/-!
# Updates of the graph class

Adding and removing edges keeps the three views of the edges in agreement, and
the constructors build graphs in which they agree.
-/

namespace Triangulator

open SimpleGraph

variable {n : ℕ} {g g' : Graph n} {u v : Fin n}

theorem StaticSet.init_values (values : List ℕ) :
    (StaticSet.init values).values = sortAndDedup values :=
  rfl

theorem sortAndDedup_range (n : ℕ) : sortAndDedup (List.range n) = List.range n := by
  have hsorted : (List.range n).Pairwise (· < ·) := List.pairwise_lt_range
  refine eq_of_vset_eq (sortAndDedup_sorted _) hsorted ?_
  ext x
  simp [mem_sortAndDedup]

/-- `Edges` lists every edge from its smaller end. -/
theorem Graph.Valid.mem_edges (hg : g.Valid) {p : Fin n × Fin n} :
    p ∈ g.edges ↔ g.toSimple.Adj p.1 p.2 ∧ p.1 < p.2 := by
  simp only [Graph.edges, List.mem_flatMap, List.mem_finRange, true_and, List.mem_map,
    List.mem_filter, decide_eq_true_iff]
  constructor
  · rintro ⟨i, a, ⟨ha, hlt⟩, rfl⟩
    exact ⟨hg.mem_adjList_iff.mp ha, hlt⟩
  · rintro ⟨hadj, hlt⟩
    exact ⟨p.1, p.2, ⟨hg.mem_adjList_iff.mpr hadj, hlt⟩, rfl⟩

/-- The sum of the degrees is twice the number of edges, so an empty counter
means that there are no edges. -/
theorem Graph.Valid.m_eq_zero_iff (hg : g.Valid) : g.m = 0 ↔ g.toSimple = ⊥ := by
  have hm := hg.m_eq
  constructor
  · intro h0
    rw [h0, Nat.mul_zero, Finset.sum_eq_zero_iff] at hm
    refine eq_bot_iff.mpr fun a b hab => ?_
    have hmem := hg.mem_adjList_iff.mpr hab
    rw [List.length_eq_zero_iff.mp (hm a (Finset.mem_univ a))] at hmem
    cases hmem
  · intro hbot
    have hempty : ∀ a, g.adjList a = [] := by
      intro a
      rw [List.eq_nil_iff_forall_not_mem]
      intro b hb
      rw [hg.mem_adjList_iff, hbot] at hb
      exact hb
    simp only [hempty, List.length_nil, Finset.sum_const_zero] at hm
    omega

theorem Graph.valid_empty (n : ℕ) : (Graph.empty n).Valid where
  symm := fun _ _ => rfl
  irrefl := fun _ => rfl
  mem_adjList := by simp [Graph.empty]
  nodup_adjList := fun _ => List.nodup_nil
  m_eq := by simp [Graph.empty]
  labels_length := by
    rw [Graph.empty, StaticSet.init_values, sortAndDedup_range, List.length_range]
  labels_sorted := sortAndDedup_sorted _

@[simp] theorem Graph.toSimple_empty (n : ℕ) : (Graph.empty n).toSimple = ⊥ := by
  ext a b
  simp [Graph.toSimple, Graph.empty]

/-! ## Adding edges -/

/-- What adding the edges `F` does to a graph. -/
structure EdgesAdded (g : Graph n) (F : List (Fin n × Fin n)) (g' : Graph n) :
    Prop where
  valid : g'.Valid
  toSimple : g'.toSimple = g.toSimple.addFill F
  vertexMap : g'.vertexMap = g.vertexMap

/-- One new edge lengthens the adjacency lists of its ends by one. -/
theorem sum_addEdge (f : Fin n → ℕ) (huv : v ≠ u) :
    ∑ a, (if a = v then f a + 1 else if a = u then f a + 1 else f a) =
      ∑ a, f a + 2 := by
  have hsplit : ∀ a, (if a = v then f a + 1 else if a = u then f a + 1 else f a) =
      f a + ((if a = v then 1 else 0) + (if a = u then 1 else 0)) := by
    intro a
    by_cases hav : a = v
    · rw [if_pos hav, if_pos hav, if_neg (hav ▸ huv)]
    · rw [if_neg hav, if_neg hav]
      split <;> rfl
  simp only [hsplit, Finset.sum_add_distrib, Finset.sum_ite_eq', Finset.mem_univ,
    if_true]

theorem addFill_of_adj (G : SimpleGraph (Fin n)) (h : G.Adj v u) :
    G.addFill [(v, u)] = G := by
  refine le_antisymm (fun a b hab => ?_) le_addFill
  rcases addFill_adj.mp hab with hG | ⟨-, hmem⟩
  · exact hG
  · have heq : s(a, b) = s(v, u) := by simpa using hmem
    rwa [← mem_edgeSet, heq, mem_edgeSet]

/-- `AddEdge` on two different vertices. -/
theorem addEdge_spec (hg : g.Valid) (huv : v ≠ u) :
    ∃ g', g.addEdge v u = some g' ∧ EdgesAdded g [(v, u)] g' := by
  by_cases hadj : g.adjMat v u = true
  · exact ⟨g, by rw [Graph.addEdge, if_pos hadj], hg,
      (addFill_of_adj _ (hg.adj_iff.mpr hadj)).symm, rfl⟩
  have hnv : u ∉ g.adjList v := fun h => hadj ((hg.mem_adjList v u).mp h)
  have hnu : v ∉ g.adjList u := fun h =>
    hadj (by rw [hg.symm]; exact (hg.mem_adjList u v).mp h)
  refine ⟨_, (if_neg hadj).trans (if_neg huv), ?_, ?_, rfl⟩
  · have hmat : ∀ a b, ((if (a = v ∧ b = u) ∨ (a = u ∧ b = v) then true
        else g.adjMat a b) = true) ↔
        ((a = v ∧ b = u) ∨ (a = u ∧ b = v)) ∨ g.adjMat a b = true := by
      intro a b
      split
      · simp [*]
      · simp [*]
    refine ⟨fun a b => ?_, fun a => ?_, fun a b => ?_, fun a => ?_, ?_,
      hg.labels_length, hg.labels_sorted⟩
    · dsimp only
      rw [Bool.eq_iff_iff, hmat, hmat, hg.symm a b]
      tauto
    · dsimp only
      rw [Bool.eq_false_iff, Ne, hmat, hg.irrefl a]
      rintro ((⟨rfl, h⟩ | ⟨rfl, h⟩) | h)
      · exact huv h
      · exact huv h.symm
      · cases h
    · dsimp only
      rw [hmat, ← hg.mem_adjList]
      by_cases hav : a = v
      · rw [if_pos hav, List.mem_append, List.mem_singleton]
        have : a ≠ u := hav ▸ huv
        tauto
      · rw [if_neg hav]
        by_cases hau : a = u
        · rw [if_pos hau, List.mem_append, List.mem_singleton]
          tauto
        · rw [if_neg hau]
          tauto
    · dsimp only
      split
      · rename_i hav
        subst hav
        exact (hg.nodup_adjList a).append (List.nodup_singleton u)
          (by simpa using hnv)
      · split
        · rename_i hau
          subst hau
          exact (hg.nodup_adjList a).append (List.nodup_singleton v)
            (by simpa using hnu)
        · exact hg.nodup_adjList a
    · dsimp only
      have hlen : ∀ a, (if a = v then g.adjList a ++ [u]
          else if a = u then g.adjList a ++ [v] else g.adjList a).length =
          if a = v then (g.adjList a).length + 1
          else if a = u then (g.adjList a).length + 1
          else (g.adjList a).length := by
        intro a
        split
        · simp
        · split <;> simp
      simp only [hlen]
      rw [sum_addEdge _ huv, hg.m_eq]
      omega
  · ext a b
    rw [addFill_adj, hg.adj_iff, Graph.toSimple, fromRel_adj]
    simp only [List.map_cons, List.map_nil, List.mem_singleton, Sym2.eq_iff]
    have hsymm := hg.symm a b
    by_cases hab : a = b
    · subst hab
      simp [hg.irrefl]
    · constructor
      · rintro ⟨-, h | h⟩
        · split at h
          · exact Or.inr ⟨hab, by assumption⟩
          · exact Or.inl h
        · split at h
          · exact Or.inr ⟨hab, by tauto⟩
          · exact Or.inl (hsymm.trans h)
      · rintro (h | ⟨-, h⟩)
        · exact ⟨hab, Or.inl (by split <;> simp [h])⟩
        · exact ⟨hab, Or.inl (by rw [if_pos h])⟩

/-- `AddEdges` on pairs of different vertices. -/
theorem addEdges_spec (hg : g.Valid) (F : List (Fin n × Fin n))
    (hF : ∀ p ∈ F, p.1 ≠ p.2) :
    ∃ g', g.addEdges F = some g' ∧ EdgesAdded g F g' := by
  induction F generalizing g with
  | nil => exact ⟨g, rfl, hg, addFill_nil.symm, rfl⟩
  | cons p F ih =>
      obtain ⟨g₁, hadd, h₁⟩ := addEdge_spec hg (hF p (by simp))
      obtain ⟨g₂, hadds, h₂⟩ := ih h₁.valid fun q hq => hF q (by simp [hq])
      refine ⟨g₂, ?_, h₂.valid, ?_, h₂.vertexMap.trans h₁.vertexMap⟩
      · rw [Graph.addEdges, List.foldlM_cons, hadd]
        exact hadds
      · rw [h₂.toSimple, h₁.toSimple, ← addFill_append, List.singleton_append]

/-- The cycle on four vertices. -/
def fourCycle : Option (Graph 4) :=
  (Graph.empty 4).addEdges ((List.finRange 4).zip ((List.finRange 4).rotate 1))

theorem exists_fourCycle :
    ∃ g, fourCycle = some g ∧ g.Valid ∧ g.hasEdge 0 2 = false := by
  obtain ⟨g, hadd, h⟩ := addEdges_spec (Graph.valid_empty 4)
    ((List.finRange 4).zip ((List.finRange 4).rotate 1)) (by decide)
  have hno : fourCycle.map (fun g => g.hasEdge 0 2) = some false := by decide
  rw [fourCycle, hadd, Option.map_some, Option.some_inj] at hno
  exact ⟨g, hadd, h.valid, hno⟩

end Triangulator
