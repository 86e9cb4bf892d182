import Triangulator.GraphTheory.Treewidth
import Triangulator.GraphTheory.Elimination

/-!
# Contracting an edge and eliminating a vertex

The contraction of an edge keeps a graph chordal and does not raise its clique
number, so it does not raise the treewidth of any graph.  A vertex whose
neighbours form a clique can be added back to a triangulation of the rest.
-/

namespace SimpleGraph

variable {V : Type*} {G H : SimpleGraph V} {A Q : Set V} {a b s t u v x y : V} {k : ℕ}

/-! ## Contraction -/

/-- The vertex `a` is merged into `b` and stays behind without edges. -/
def merge (G : SimpleGraph V) (a b : V) : SimpleGraph V where
  Adj s t := s ≠ t ∧ s ≠ a ∧ t ≠ a ∧
    (G.Adj s t ∨ (s = b ∧ G.Adj a t) ∨ (t = b ∧ G.Adj a s))
  symm := ⟨fun _ _ h => by
    obtain ⟨hst, hs, ht, h | h | h⟩ := h
    · exact ⟨hst.symm, ht, hs, Or.inl h.symm⟩
    · exact ⟨hst.symm, ht, hs, Or.inr (Or.inr h)⟩
    · exact ⟨hst.symm, ht, hs, Or.inr (Or.inl h)⟩⟩
  loopless := ⟨fun _ h => h.1 rfl⟩

@[simp] theorem merge_adj :
    (G.merge a b).Adj s t ↔ s ≠ t ∧ s ≠ a ∧ t ≠ a ∧
      (G.Adj s t ∨ (s = b ∧ G.Adj a t) ∨ (t = b ∧ G.Adj a s)) :=
  Iff.rfl

theorem merge_mono (h : G ≤ H) : G.merge a b ≤ H.merge a b := by
  intro s t hst
  obtain ⟨hne, hs, ht, hadj⟩ := hst
  refine ⟨hne, hs, ht, ?_⟩
  rcases hadj with hadj | ⟨hsb, hadj⟩ | ⟨htb, hadj⟩
  · exact Or.inl (h hadj)
  · exact Or.inr (Or.inl ⟨hsb, h hadj⟩)
  · exact Or.inr (Or.inr ⟨htb, h hadj⟩)

/-- A simplicial vertex other than `b` stays simplicial when `a` is merged into `b`,
provided that `a` is still there or its neighbours already see `b`. -/
theorem IsSimplicialIn.merge (hs : G.IsSimplicialIn A s) (hsb : s ≠ b)
    (ha : a ∈ A ∨ ∀ t ∈ A, t ≠ b → G.Adj a t → G.Adj b t) (hsA : s ∈ A) :
    (G.merge a b).IsSimplicialIn A s := by
  -- One of the two neighbours is `b`, the other one is an old neighbour.
  have key : ∀ t ∈ A, t ≠ b → (G.merge a b).Adj s t → b ∈ A → (G.merge a b).Adj s b →
      (G.merge a b).Adj t b := by
    intro t htA htb hst hbA hstb
    obtain ⟨hsb', hsa, hba, hadjb⟩ := hstb
    obtain ⟨hne, -, hta, hadj⟩ := hst
    have hGst : G.Adj s t := by
      rcases hadj with hadj | ⟨h, -⟩ | ⟨h, -⟩
      · exact hadj
      · exact absurd h hsb
      · exact absurd h htb
    refine ⟨htb, hta, hba, ?_⟩
    rcases hadjb with hGsb | ⟨h, -⟩ | ⟨-, hGas⟩
    · exact Or.inl (hs ⟨hGst, htA⟩ ⟨hGsb, hbA⟩ htb)
    · exact absurd h hsb
    · rcases ha with haA | ha
      · exact Or.inr (Or.inr ⟨rfl, hs ⟨hGas.symm, haA⟩ ⟨hGst, htA⟩ hta.symm⟩)
      · have hbs := ha s hsA hsb hGas
        exact Or.inl (hs ⟨hGst, htA⟩ ⟨hbs.symm, hbA⟩ htb)
  intro t ht t' ht' hne
  obtain ⟨hst, htA⟩ := ht
  obtain ⟨hst', htA'⟩ := ht'
  by_cases htb : t = b
  · subst htb
    exact (key t' htA' hne.symm hst' htA hst).symm
  by_cases htb' : t' = b
  · subst htb'
    exact key t htA htb hst htA' hst'
  have hGst : G.Adj s t := by
    rcases hst.2.2.2 with hadj | ⟨h, -⟩ | ⟨h, -⟩
    · exact hadj
    · exact absurd h hsb
    · exact absurd h htb
  have hGst' : G.Adj s t' := by
    rcases hst'.2.2.2 with hadj | ⟨h, -⟩ | ⟨h, -⟩
    · exact hadj
    · exact absurd h hsb
    · exact absurd h htb'
  exact ⟨hne, hst.2.2.1, hst'.2.2.1, Or.inl (hs ⟨hGst, htA⟩ ⟨hGst', htA'⟩ hne)⟩

/-- Merging the two ends of an edge keeps a graph chordal. -/
theorem IsChordal.merge [Finite V] (hG : G.IsChordal) (hab : G.Adj a b) :
    (G.merge a b).IsChordal := by
  -- Simplicial vertices are removed one after the other, `b` last of all.
  have key : ∀ n, ∀ A : Set V, A.ncard = n → b ∈ A →
      (a ∈ A ∨ ∀ t ∈ A, t ≠ b → G.Adj a t → G.Adj b t) →
      ((G.merge a b).within A).IsChordal := by
    intro n
    induction n with
    | zero =>
      intro A hn hb
      rw [Set.ncard_eq_zero (Set.toFinite _)] at hn
      exact absurd (hn ▸ hb) (Set.notMem_empty b)
    | succ n ih =>
      intro A hn hb ha
      by_cases hone : ∃ c ∈ A, c ≠ b
      · obtain ⟨c, hcA, hcb⟩ := hone
        have hK : G.IsClique {b} := by simp
        obtain ⟨s, hsA, hsb, hs⟩ := (hG.hasSimplicialPair A).exists_notMem hK hcA hcb
        have hcard : (A \ {s}).ncard = n := by
          rw [Set.ncard_sdiff_singleton_of_mem hsA, hn]
          rfl
        have hrest := ih (A \ {s}) hcard ⟨hb, fun h => hsb h.symm⟩ (by
          by_cases hsa : s = a
          · right
            subst hsa
            intro t ht htb hst
            exact (hs ⟨hst, ht.1⟩ ⟨hab, hb⟩ htb).symm
          · rcases ha with ha | ha
            · exact Or.inl ⟨ha, fun h => hsa h.symm⟩
            · exact Or.inr fun t ht => ha t ht.1)
        have hins := isChordal_insert_simplicial (x := s) hrest
          ((hs.merge hsb ha hsA).subset (Set.inter_subset_inter_right _ Set.sdiff_subset))
        rwa [Set.insert_sdiff_singleton, Set.insert_eq_of_mem hsA] at hins
      · have hbot : (G.merge a b).within A = ⊥ := by
          ext s t
          simp only [within_adj, bot_adj, iff_false]
          intro h
          have hsb : s = b := by
            by_contra hne
            exact hone ⟨s, h.2.1, hne⟩
          have htb : t = b := by
            by_contra hne
            exact hone ⟨t, h.2.2, hne⟩
          exact h.1.1 (hsb.trans htb.symm)
        rw [hbot, isChordal_iff_no_hole]
        intro k g hg
        exact (hg.adj_last).elim
  have huniv := key _ Set.univ rfl trivial (Or.inl trivial)
  have hwithin : (G.merge a b).within Set.univ = G.merge a b := by
    ext s t
    simp
  exact hwithin ▸ huniv

theorem IsChordal.cliqueNum_merge_le [Finite V] (hG : G.IsChordal) (hab : G.Adj a b) :
    (G.merge a b).cliqueNum ≤ G.cliqueNum := by
  rw [cliqueNum_le_iff]
  intro Q hQ
  have hold : ∀ s t, s ≠ b → t ≠ b → (G.merge a b).Adj s t → G.Adj s t := by
    intro s t hs ht hst
    rcases hst.2.2.2 with h | ⟨h, -⟩ | ⟨h, -⟩
    · exact h
    · exact absurd h hs
    · exact absurd h ht
  by_cases hbQ : b ∈ Q
  · -- The other vertices all see `a` or `b`, so one of the two sees them all.
    have hclique : G.IsClique (Q \ {b}) := by
      intro s hs t ht hst
      exact hold s t hs.2 ht.2 (hQ hs.1 ht.1 hst)
    have haQ : ∀ t ∈ Q, t ≠ b → t ≠ a := by
      intro t ht htb
      exact (hQ ht hbQ htb).2.1
    have hconn : G.IsConnectedSet ({a} ∪ {b}) :=
      (isConnectedSet_singleton a).union (isConnectedSet_singleton b) rfl rfl (Or.inr hab)
    obtain ⟨c, hc, hadj⟩ := hG.exists_adj_clique hconn ⟨a, Or.inl rfl⟩ hclique
      (fun v hv hmem => by
        rcases hv with rfl | rfl
        · exact haQ v hmem.1 hmem.2 rfl
        · exact hmem.2 rfl)
      (fun t ht => by
        rcases (hQ ht.1 hbQ ht.2).2.2.2 with h | ⟨h, -⟩ | ⟨-, h⟩
        · exact ⟨b, Or.inr rfl, h.symm⟩
        · exact absurd h ht.2
        · exact ⟨a, Or.inl rfl, h⟩)
    have hnot : c ∉ Q \ {b} := by
      intro hmem
      rcases hc with rfl | rfl
      · exact haQ c hmem.1 hmem.2 rfl
      · exact hmem.2 rfl
    have hins : G.IsClique (insert c (Q \ {b})) := hclique.insert fun t ht _ => hadj t ht
    have hle := hins.ncard_le_cliqueNum
    rwa [Set.ncard_insert_of_notMem hnot (Set.toFinite _),
      Set.ncard_sdiff_singleton_add_one hbQ (Set.toFinite _)] at hle
  · apply IsClique.ncard_le_cliqueNum
    intro s hs t ht hst
    exact hold s t (fun h => hbQ (h ▸ hs)) (fun h => hbQ (h ▸ ht)) (hQ hs ht hst)

/-- Contracting an edge does not raise the treewidth. -/
theorem treewidth_merge_le [Finite V] (hab : G.Adj a b) :
    (G.merge a b).treewidth ≤ G.treewidth := by
  obtain ⟨H, hH, hk⟩ := treewidth_le_iff.mp (le_refl G.treewidth)
  have habH : H.Adj a b := hH.le hab
  have hT : (G.merge a b).IsTriangulation (H.merge a b) :=
    ⟨merge_mono hH.le, hH.chordal.merge habH⟩
  exact hT.treewidth_le ((hH.chordal.cliqueNum_merge_le habH).trans hk)

/-! ## Simplicial vertices -/

theorem isChordal_of_simplicial (hx : H.IsSimplicialIn {x}ᶜ x)
    (h : (H.within {x}ᶜ).IsChordal) : H.IsChordal := by
  have hins := isChordal_insert_simplicial h hx
  have hwithin : H.within (insert x {x}ᶜ) = H := by
    ext s t
    have hall : ∀ v, v ∈ insert x ({x}ᶜ : Set V) := fun v => em (v = x)
    simp [hall]
  exact hwithin ▸ hins

theorem cliqueNum_le_of_neighborSet [Finite V] (hx : (H.neighborSet x).ncard ≤ k)
    (h : (H.within {x}ᶜ).cliqueNum ≤ k + 1) : H.cliqueNum ≤ k + 1 := by
  rw [cliqueNum_le_iff]
  intro Q hQ
  by_cases hxQ : x ∈ Q
  · have hsub : Q \ {x} ⊆ H.neighborSet x := fun v hv => hQ hxQ hv.1 fun hxv => hv.2 hxv.symm
    have hcard := (Set.ncard_le_ncard hsub (Set.toFinite _)).trans hx
    rw [← Set.ncard_sdiff_singleton_add_one hxQ (Set.toFinite _)]
    exact Nat.add_le_add_right hcard 1
  · refine le_trans (IsClique.ncard_le_cliqueNum ?_) h
    intro s hs t ht hst
    exact ⟨hQ hs ht hst, fun h => hxQ (h ▸ hs), fun h => hxQ (h ▸ ht)⟩

/-- A vertex whose neighbours form a clique is added back to a triangulation of the
rest. -/
theorem treewidth_le_of_simplicial [Finite V] (hx : G.IsSimplicialIn {x}ᶜ x)
    (hdeg : (G.neighborSet x).ncard ≤ k) (h : (G.within {x}ᶜ).treewidth ≤ k) :
    G.treewidth ≤ k := by
  obtain ⟨T, hT, hk⟩ := treewidth_le_iff.mp h
  have hrest : (T.within {x}ᶜ ⊔ G).within {x}ᶜ = T.within {x}ᶜ := by
    ext s t
    constructor
    · rintro ⟨hst | hst, hs, ht⟩
      · exact hst
      · exact ⟨hT.le ⟨hst, hs, ht⟩, hs, ht⟩
    · intro hst
      exact ⟨Or.inl hst, hst.2⟩
  have hadj : ∀ t, (T.within {x}ᶜ ⊔ G).Adj x t ↔ G.Adj x t := by
    intro t
    constructor
    · rintro (hst | hst)
      · exact absurd rfl hst.2.1
      · exact hst
    · exact Or.inr
  have hnbr : (T.within {x}ᶜ ⊔ G).neighborSet x = G.neighborSet x := Set.ext hadj
  have htri : G.IsTriangulation (T.within {x}ᶜ ⊔ G) := by
    refine ⟨le_sup_right, isChordal_of_simplicial (x := x) ?_ ?_⟩
    · rw [IsSimplicialIn, hnbr]
      exact hx.mono_graph le_sup_right
    · rw [hrest]
      exact hT.chordal.within {x}ᶜ
  apply htri.treewidth_le
  apply cliqueNum_le_of_neighborSet (x := x)
  · rwa [hnbr]
  · rw [hrest]
    exact (cliqueNum_mono_graph (within_le _)).trans hk

end SimpleGraph
