import Triangulator.GraphTheory.Reach

/-!
# Chordal graphs

A graph is chordal when it has no induced cycle of length at least four.  The
working form of an induced cycle is `IsHole`, a closed sequence of vertices
indexed by natural numbers.  The two facts used everywhere else are that a
hole cannot straddle a clique separator and that two nonadjacent vertices of a
chordal graph are separated by a clique.
-/

namespace SimpleGraph

variable {V : Type*} {G H : SimpleGraph V} {S A B C X : Set V} {u v w x y : V}

/-- No induced cycle has four or more vertices. -/
def IsChordal (G : SimpleGraph V) : Prop :=
  ∀ k, 4 ≤ k → IsEmpty (cycleGraph k ↪g G)

/-- The vertices `g 0, ..., g (k - 1)` form an induced cycle of length
`k ≥ 4`. -/
structure IsHole (G : SimpleGraph V) (k : ℕ) (g : ℕ → V) : Prop where
  four_le : 4 ≤ k
  inj : ∀ s < k, ∀ t < k, g s = g t → s = t
  adj_iff : ∀ s t, s < t → t < k →
    (G.Adj (g s) (g t) ↔ t = s + 1 ∨ (s = 0 ∧ t + 1 = k))

theorem cycleGraph_adj_iff_of_lt {k : ℕ} {s t : Fin k} (hst : s < t) :
    (cycleGraph k).Adj s t ↔
      (t : ℕ) = s + 1 ∨ ((s : ℕ) = 0 ∧ (t : ℕ) + 1 = k) := by
  have hs : (s : ℕ) < t := hst
  have ht := t.isLt
  rw [cycleGraph_adj', Fin.sub_val_of_le hst.le, Fin.coe_sub_iff_lt.2 hst]
  omega

theorem IsHole.not_isChordal {k : ℕ} {g : ℕ → V} (h : G.IsHole k g) :
    ¬G.IsChordal := by
  intro hG
  refine (hG k h.four_le).false ⟨⟨fun i => g i, ?_⟩, ?_⟩
  · intro i j hij
    exact Fin.ext (h.inj i i.isLt j j.isLt hij)
  · intro i j
    change G.Adj (g i) (g j) ↔ (cycleGraph k).Adj i j
    rcases lt_trichotomy i j with hij | rfl | hij
    · rw [cycleGraph_adj_iff_of_lt hij]
      exact h.adj_iff i j hij j.isLt
    · simp
    · rw [adj_comm, adj_comm (cycleGraph k),
        cycleGraph_adj_iff_of_lt hij]
      exact h.adj_iff j i hij i.isLt

theorem isChordal_iff_no_hole :
    G.IsChordal ↔ ∀ k g, ¬G.IsHole k g := by
  refine ⟨fun hG k g h => h.not_isChordal hG, fun h k hk => ⟨fun f => ?_⟩⟩
  have hpos : 0 < k := by omega
  refine h k (fun i => f ⟨i % k, Nat.mod_lt i hpos⟩) ⟨hk, ?_, ?_⟩
  · intro s hs t ht hst
    have := Fin.mk.inj_iff.mp (f.injective hst)
    rwa [Nat.mod_eq_of_lt hs, Nat.mod_eq_of_lt ht] at this
  · intro s t hst ht
    have hs : s < k := hst.trans ht
    have hlt : (⟨s % k, Nat.mod_lt s hpos⟩ : Fin k) < ⟨t % k, Nat.mod_lt t hpos⟩ := by
      rw [Fin.mk_lt_mk, Nat.mod_eq_of_lt hs, Nat.mod_eq_of_lt ht]
      exact hst
    rw [f.map_adj_iff, cycleGraph_adj_iff_of_lt hlt]
    simp [Nat.mod_eq_of_lt hs, Nat.mod_eq_of_lt ht]

/-- A hole may be read from any of its vertices. -/
theorem IsHole.rotate {k : ℕ} {g : ℕ → V} (h : G.IsHole k g) {r : ℕ}
    (hr : r < k) :
    G.IsHole k fun t => g (if r + t < k then r + t else r + t - k) where
  four_le := h.four_le
  inj := by
    intro s hs t ht hst
    have := h.inj _ (by split <;> omega) _ (by split <;> omega) hst
    split at this <;> split at this <;> omega
  adj_iff := by
    intro s t hst ht
    have h4 := h.four_le
    split <;> split
    · rw [h.adj_iff _ _ (by omega) (by omega)]
      omega
    · rw [adj_comm, h.adj_iff _ _ (by omega) (by omega)]
      omega
    · omega
    · rw [h.adj_iff _ _ (by omega) (by omega)]
      omega

theorem IsHole.adj_succ {k : ℕ} {g : ℕ → V} (h : G.IsHole k g) {t : ℕ}
    (ht : t + 1 < k) : G.Adj (g t) (g (t + 1)) :=
  (h.adj_iff t (t + 1) (by omega) ht).mpr (Or.inl rfl)

theorem IsHole.adj_last {k : ℕ} {g : ℕ → V} (h : G.IsHole k g) :
    G.Adj (g 0) (g (k - 1)) :=
  (h.adj_iff 0 (k - 1) (by have := h.four_le; omega)
    (by have := h.four_le; omega)).mpr
    (Or.inr ⟨rfl, by have := h.four_le; omega⟩)

/-- A hole does not straddle a clique separator: if `A ∪ B` is everything,
`A ∩ B` is a clique and no edge joins `A \ B` to `B \ A`, the hole lies in `A`
or in `B`. -/
theorem IsHole.subset_or_subset {k : ℕ} {g : ℕ → V} (h : G.IsHole k g)
    (hAB : ∀ v, v ∈ A ∨ v ∈ B) (hclique : G.IsClique (A ∩ B))
    (hcross : ∀ a ∈ A, a ∉ B → ∀ b ∈ B, b ∉ A → ¬G.Adj a b) :
    (∀ t < k, g t ∈ A) ∨ (∀ t < k, g t ∈ B) := by
  by_contra hno
  push Not at hno
  obtain ⟨⟨s₀, hs₀, hsA⟩, ⟨r, hr, hrB⟩⟩ := hno
  -- Read the hole from `g r`, a vertex of `A \ B`.
  have h' := h.rotate hr
  set f : ℕ → V := fun t => g (if r + t < k then r + t else r + t - k) with hf
  have hf0 : f 0 ∉ B := by simpa [hf, hr] using hrB
  obtain ⟨s, hs, hfs⟩ : ∃ s, s < k ∧ f s ∉ A := by
    by_cases hrs : r ≤ s₀
    · refine ⟨s₀ - r, by omega, ?_⟩
      have : r + (s₀ - r) < k := by omega
      rw [hf]
      simp only [if_pos this]
      rwa [Nat.add_sub_cancel' hrs]
    · refine ⟨s₀ + k - r, by omega, ?_⟩
      have h1 : ¬r + (s₀ + k - r) < k := by omega
      have h2 : r + (s₀ + k - r) - k = s₀ := by omega
      simpa only [hf, if_neg h1, h2] using hsA
  have h4 := h'.four_le
  have hsB : f s ∈ B := (hAB _).resolve_left hfs
  -- The first vertex in `B` and the last vertex before returning to `A \ B`
  -- are both in `A ∩ B`, on the two sides of `f s`.
  obtain ⟨t₁, ht₁s, ht₁B, ht₁⟩ :
      ∃ t₁ ≤ s, f t₁ ∈ B ∧ ∀ t < t₁, f t ∉ B := by
    classical
    have hex : ∃ t, f t ∈ B := ⟨s, hsB⟩
    exact ⟨Nat.find hex, Nat.find_le hsB, Nat.find_spec hex,
      fun t ht => Nat.find_min hex ht⟩
  have ht₁0 : t₁ ≠ 0 := fun h0 => hf0 (h0 ▸ ht₁B)
  have ht₁A : f t₁ ∈ A := by
    by_contra hA
    have hprev := ht₁ (t₁ - 1) (by omega)
    have hadj := h'.adj_succ (t := t₁ - 1) (by omega)
    rw [Nat.sub_add_cancel (by omega)] at hadj
    exact hcross _ ((hAB _).resolve_right hprev) hprev _ ht₁B hA hadj
  obtain ⟨t₂, hst₂, ht₂k, ht₂B, ht₂⟩ :
      ∃ t₂, s ≤ t₂ ∧ t₂ < k ∧ f t₂ ∈ B ∧ ∀ t, t₂ < t → t < k → f t ∉ B := by
    classical
    have hex : ∃ d, f (k - 1 - d) ∈ B ∧ d ≤ k - 1 - s :=
      ⟨k - 1 - s, by rw [show k - 1 - (k - 1 - s) = s by omega]; exact hsB, le_rfl⟩
    obtain ⟨hB, hd⟩ := Nat.find_spec hex
    refine ⟨k - 1 - Nat.find hex, by omega, by omega, hB, ?_⟩
    intro t ht htk htB
    refine Nat.find_min hex (m := k - 1 - t) ?_ ⟨?_, by omega⟩
    · omega
    · rwa [show k - 1 - (k - 1 - t) = t by omega]
  have ht₂A : f t₂ ∈ A := by
    by_contra hA
    by_cases hlast : t₂ + 1 < k
    · have hnext := ht₂ (t₂ + 1) (by omega) hlast
      exact hcross _ ((hAB _).resolve_right hnext) hnext _ ht₂B hA
        (h'.adj_succ hlast).symm
    · have hadj := h'.adj_last
      rw [show k - 1 = t₂ by omega] at hadj
      exact hcross _ ((hAB _).resolve_right hf0) hf0 _ ht₂B hA hadj
  have hne₁ : t₁ ≠ s := fun he => hfs (he ▸ ht₁A)
  have hne₂ : t₂ ≠ s := fun he => hfs (he ▸ ht₂A)
  have hlt : t₁ < t₂ := by omega
  have hfne : f t₁ ≠ f t₂ := fun he =>
    absurd (h'.inj _ (by omega) _ ht₂k he) (by omega)
  have hadj := hclique ⟨ht₁A, ht₁B⟩ ⟨ht₂A, ht₂B⟩ hfne
  rw [h'.adj_iff _ _ hlt ht₂k] at hadj
  omega

/-- A hole all of whose vertices lie in `A` is a hole of the graph inside
`A`. -/
theorem IsHole.within {k : ℕ} {g : ℕ → V} (h : G.IsHole k g)
    (hA : ∀ t < k, g t ∈ A) : (G.within A).IsHole k g where
  four_le := h.four_le
  inj := h.inj
  adj_iff := fun s t hst ht => by
    rw [within_adj, ← h.adj_iff s t hst ht]
    simp [hA s (hst.trans ht), hA t ht]

/-- The vertices of a hole inside `A` lie in `A`, and it is a hole of the whole
graph. -/
theorem IsHole.of_within {k : ℕ} {g : ℕ → V} (h : (G.within A).IsHole k g) :
    (∀ t < k, g t ∈ A) ∧ G.IsHole k g := by
  have hmem : ∀ t < k, g t ∈ A := by
    intro t ht
    have h4 := h.four_le
    by_cases hlast : t + 1 < k
    · exact (h.adj_succ hlast).2.1
    · have hadj := h.adj_last
      rw [show k - 1 = t by omega] at hadj
      exact hadj.2.2
  refine ⟨hmem, h.four_le, h.inj, fun s t hst ht => ?_⟩
  rw [← h.adj_iff s t hst ht]
  exact ⟨fun hadj => ⟨hadj, hmem s (hst.trans ht), hmem t ht⟩, fun hadj => hadj.1⟩

/-- A subgraph induced on a vertex set of a chordal graph is chordal. -/
theorem IsChordal.within (hG : G.IsChordal) (A : Set V) :
    (G.within A).IsChordal := by
  rw [isChordal_iff_no_hole] at hG ⊢
  exact fun k g h => hG k g h.of_within.2

/-- Two chordal parts glued along a clique form a chordal graph. -/
theorem isChordal_of_glue (hAB : ∀ v, v ∈ A ∨ v ∈ B)
    (hclique : G.IsClique (A ∩ B))
    (hcross : ∀ a ∈ A, a ∉ B → ∀ b ∈ B, b ∉ A → ¬G.Adj a b)
    (hA : (G.within A).IsChordal) (hB : (G.within B).IsChordal) :
    G.IsChordal := by
  rw [isChordal_iff_no_hole] at hA hB ⊢
  intro k g h
  rcases h.subset_or_subset hAB hclique hcross with hmem | hmem
  · exact hA k g (h.within hmem)
  · exact hB k g (h.within hmem)

/-- A graph is chordal when a vertex set `A` and, for each component of the
rest, the component together with its clique neighbourhood are chordal. -/
theorem isChordal_of_star (hA : (G.within A).IsChordal)
    (hC : ∀ C, G.IsComponent A C →
      G.IsClique (G.nbhd C) ∧ (G.within (C ∪ G.nbhd C)).IsChordal) :
    G.IsChordal := by
  rw [isChordal_iff_no_hole]
  intro k g h
  by_cases hmem : ∀ t < k, g t ∈ A
  · exact (h.within hmem).not_isChordal hA
  · push Not at hmem
    obtain ⟨t, ht, htA⟩ := hmem
    have hcomp := isComponent_componentOf (G := G) htA
    set C := G.componentOf A (g t)
    have hinter : (C ∪ G.nbhd C) ∩ Cᶜ ⊆ G.nbhd C := by
      rintro v ⟨hv | hv, hvC⟩
      · exact absurd hv hvC
      · exact hv
    have hcross : ∀ a ∈ C ∪ G.nbhd C, a ∉ Cᶜ → ∀ b ∈ Cᶜ,
        b ∉ C ∪ G.nbhd C → ¬G.Adj a b := by
      intro a _ haB b _ hbA hab
      have haC : a ∈ C := by simpa using haB
      rw [Set.mem_union, not_or] at hbA
      exact hcomp.not_adj haC hbA.1 hbA.2 hab
    have hAB : ∀ v, v ∈ C ∪ G.nbhd C ∨ v ∈ Cᶜ := by
      intro v
      by_cases hv : v ∈ C <;> simp [hv]
    rcases h.subset_or_subset hAB ((hC C hcomp).1.subset hinter) hcross with
      hsub | hsub
    · exact (h.within hsub).not_isChordal (hC C hcomp).2
    · exact hsub t ht mem_componentOf_self

/-- A complete graph from which at most one pair is missing is chordal. -/
theorem isChordal_of_one_missing
    (h : ∀ a ∈ A, ∀ b ∈ A, a ≠ b → s(a, b) ≠ s(x, y) → G.Adj a b) :
    (G.within A).IsChordal := by
  rw [isChordal_iff_no_hole]
  intro k g hg
  have h4 := hg.four_le
  have hmem := hg.of_within.1
  have hmiss : ∀ s t, s < t → t < k → t ≠ s + 1 → ¬(s = 0 ∧ t + 1 = k) →
      s(g s, g t) = s(x, y) := by
    intro s t hst ht h1 h2
    by_contra hne
    have hgne : g s ≠ g t := fun he => hst.ne (hg.inj s (by omega) t ht he)
    have hadj := h _ (hmem s (by omega)) _ (hmem t ht) hgne hne
    have := (hg.adj_iff s t hst ht).mp ⟨hadj, hmem s (by omega), hmem t ht⟩
    omega
  have h02 := hmiss 0 2 (by omega) (by omega) (by omega) (by omega)
  have h13 := hmiss 1 3 (by omega) (by omega) (by omega) (by omega)
  have heq := h02.trans h13.symm
  rw [Sym2.eq_iff] at heq
  rcases heq with ⟨h, -⟩ | ⟨h, -⟩
  · have := hg.inj 0 (by omega) 1 (by omega) h
    omega
  · have := hg.inj 0 (by omega) 3 (by omega) h
    omega


theorem IsChordal.congr (hG : G.IsChordal) (h : G = H) : H.IsChordal :=
  h ▸ hG

end SimpleGraph
