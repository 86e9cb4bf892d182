import Triangulator.GraphTheory.Contraction
import Triangulator.GraphTheory.Fill

/-!
# Completions

A completion of a graph is a list of fill edges that makes it chordal.  The
completions of two parts that meet in a clique complete the whole, and the width
of the result is the larger of the two widths.
-/

namespace SimpleGraph

variable {V : Type*} {P G H : SimpleGraph V} {A B : Set V} {F F' : List (V × V)}
  {e : V × V} {k : ℕ} {u v : V}

/-- Adding the fill edges, which join vertices that have neighbours, makes the graph
chordal. -/
structure IsCompletion (P : SimpleGraph V) (F : List (V × V)) : Prop where
  isFill : P.IsFill F
  support : ∀ e ∈ F, e.1 ∈ P.support ∧ e.2 ∈ P.support
  chordal : (P.addFill F).IsChordal

theorem mem_edges_iff : s(u, v) ∈ F.map (fun p => s(p.1, p.2)) ↔ (u, v) ∈ F ∨ (v, u) ∈ F := by
  rw [List.mem_map]
  constructor
  · rintro ⟨⟨a, c⟩, hmem, heq⟩
    rcases Sym2.eq_iff.mp heq with ⟨rfl, rfl⟩ | ⟨rfl, rfl⟩
    · exact Or.inl hmem
    · exact Or.inr hmem
  · rintro (h | h)
    · exact ⟨_, h, rfl⟩
    · exact ⟨_, h, Sym2.eq_swap⟩

theorem addFill_perm (h : F.Perm F') : P.addFill F = P.addFill F' := by
  ext u v
  rw [addFill_adj, addFill_adj, (h.map _).mem_iff]

theorem IsFill.perm (h : P.IsFill F) (hF : F.Perm F') : P.IsFill F' where
  nonEdge := fun p hp => h.nonEdge p (hF.mem_iff.mpr hp)
  nodup := (hF.map _).nodup_iff.mp h.nodup

theorem IsCompletion.perm (h : P.IsCompletion F) (hF : F.Perm F') : P.IsCompletion F' where
  isFill := h.isFill.perm hF
  support := fun e he => h.support e (hF.mem_iff.mpr he)
  chordal := addFill_perm hF ▸ h.chordal

theorem IsCompletion.isTriangulation (h : P.IsCompletion F) :
    P.IsTriangulation (P.addFill F) :=
  ⟨le_addFill, h.chordal⟩

/-- Fill edges of a graph with some fill edges added. -/
theorem IsFill.append (h : P.IsFill F) (h' : (P.addFill F).IsFill F') :
    P.IsFill (F ++ F') := by
  constructor
  · intro p hp
    rcases List.mem_append.mp hp with hp | hp
    · exact h.nonEdge p hp
    · have hne := h'.nonEdge p hp
      exact ⟨hne.1, fun hadj => hne.2 (le_addFill hadj)⟩
  · rw [List.map_append, List.nodup_append']
    refine ⟨h.nodup, h'.nodup, ?_⟩
    intro s hs hs'
    obtain ⟨p, hp, rfl⟩ := List.mem_map.mp hs'
    have hne := h'.nonEdge p hp
    exact hne.2 (addFill_adj.mpr (Or.inr ⟨hne.1, hs⟩))

theorem support_addFill (hF : ∀ e ∈ F, e.1 ∈ P.support ∧ e.2 ∈ P.support) :
    (P.addFill F).support ⊆ P.support := by
  intro v hv
  obtain ⟨w, hw⟩ := hv
  rcases addFill_adj.mp hw with h | ⟨-, h⟩
  · exact ⟨w, h⟩
  · rcases mem_edges_iff.mp h with h | h
    · exact (hF _ h).1
    · exact (hF _ h).2

theorem le_completeOn_support : G ≤ completeOn G.support :=
  fun u v h => ⟨h.ne, ⟨v, h⟩, ⟨u, h.symm⟩⟩

/-- The fill edges of a minimal triangulation form a completion. -/
theorem IsMinimalTriangulation.isCompletion (h : P.IsMinimalTriangulation (P.addFill F))
    (hF : P.IsFill F) : P.IsCompletion F where
  isFill := hF
  support := by
    intro e he
    have hadj : (P.addFill F).Adj e.1 e.2 :=
      addFill_adj.mpr (Or.inr ⟨(hF.nonEdge e he).1, List.mem_map_of_mem he⟩)
    exact (h.le_completeOn le_completeOn_support hadj).2
  chordal := h.chordal

/-- Some completion has the least width. -/
theorem exists_isCompletion [Finite V] (P : SimpleGraph V) :
    ∃ F, P.IsCompletion F ∧ (P.addFill F).cliqueNum ≤ P.treewidth + 1 := by
  obtain ⟨T, hT, hk⟩ := treewidth_le_iff.mp (le_refl P.treewidth)
  obtain ⟨H, hHT, hH⟩ := hT.exists_minimal_le
  obtain ⟨l, hl⟩ := (Set.toFinite (H.edgeSet \ P.edgeSet)).exists_finset_coe
  have hF : ∀ e, e ∈ (l.toList.map Quot.out).map (fun p => s(p.1, p.2)) ↔
      e ∈ H.edgeSet \ P.edgeSet := by
    intro e
    have hout : (fun p : V × V => s(p.1, p.2)) ∘ Quot.out = (id : Sym2 V → Sym2 V) :=
      funext fun e => Quot.out_eq e
    rw [List.map_map, hout, List.map_id, Finset.mem_toList, ← Finset.mem_coe, hl]
  have hnd : ((l.toList.map Quot.out).map fun p : V × V => s(p.1, p.2)).Nodup := by
    have hout : (fun p : V × V => s(p.1, p.2)) ∘ Quot.out = (id : Sym2 V → Sym2 V) :=
      funext fun e => Quot.out_eq e
    rw [List.map_map, hout, List.map_id]
    exact l.nodup_toList
  have hfill := addFill_eq hH.le hF
  refine ⟨l.toList.map Quot.out, ?_, ?_⟩
  · apply IsMinimalTriangulation.isCompletion
    · rw [hfill]
      exact hH
    · exact isFill_of_edgeSet hnd hF
  · rw [hfill]
    exact (cliqueNum_mono_graph hHT).trans hk

/-! ## Gluing completions -/

section Glue

variable (hAB : ∀ v, v ∈ A ∨ v ∈ B) (hclique : P.IsClique (A ∩ B))
  (hcross : ∀ a ∈ A, a ∉ B → ∀ b ∈ B, b ∉ A → ¬P.Adj a b)
  (hF : (P.within A).IsCompletion F) (hF' : (P.within B).IsCompletion F')
include hAB hclique hcross hF hF'

omit hAB hclique hcross hF' in
theorem IsCompletion.mem_within (he : e ∈ F) : e.1 ∈ A ∧ e.2 ∈ A := by
  obtain ⟨⟨v, hv⟩, w, hw⟩ := hF.support e he
  exact ⟨hv.2.1, hw.2.1⟩

omit hAB hcross in
theorem within_addFill_append :
    (P.addFill (F ++ F')).within A = (P.within A).addFill F := by
  ext u v
  rw [within_adj, addFill_adj, addFill_adj, within_adj, mem_edges_iff, mem_edges_iff,
    List.mem_append, List.mem_append]
  constructor
  · rintro ⟨hP | ⟨hne, hmem⟩, hu, hv⟩
    · exact Or.inl ⟨hP, hu, hv⟩
    · by_cases hold : (u, v) ∈ F ∨ (v, u) ∈ F
      · exact Or.inr ⟨hne, hold⟩
      · -- A pair of the second list inside `A` joins two vertices of the clique.
        have hin : u ∈ B ∧ v ∈ B := by
          have h' : (u, v) ∈ F' ∨ (v, u) ∈ F' := by tauto
          rcases h' with h' | h'
          · exact hF'.mem_within h'
          · exact (hF'.mem_within h').symm
        exact Or.inl ⟨hclique ⟨hu, hin.1⟩ ⟨hv, hin.2⟩ hne, hu, hv⟩
  · rintro (h | ⟨hne, hmem⟩)
    · exact ⟨Or.inl h.1, h.2⟩
    · have hin : u ∈ A ∧ v ∈ A := by
        rcases hmem with h | h
        · exact hF.mem_within h
        · exact (hF.mem_within h).symm
      exact ⟨Or.inr ⟨hne, by tauto⟩, hin⟩

omit hclique hcross hAB in
theorem not_adj_addFill_append
    (hcross : ∀ a ∈ A, a ∉ B → ∀ b ∈ B, b ∉ A → ¬P.Adj a b) :
    ∀ a ∈ A, a ∉ B → ∀ b ∈ B, b ∉ A → ¬(P.addFill (F ++ F')).Adj a b := by
  intro a haA haB c hcB hcA hadj
  rcases addFill_adj.mp hadj with h | ⟨-, h⟩
  · exact hcross a haA haB c hcB hcA h
  · rcases mem_edges_iff.mp h with h | h <;> rcases List.mem_append.mp h with h | h
    · exact hcA (hF.mem_within h).2
    · exact haB (hF'.mem_within h).1
    · exact hcA (hF.mem_within h).1
    · exact haB (hF'.mem_within h).2

/-- Completions of two parts that meet in a clique complete the whole. -/
theorem IsCompletion.glue : P.IsCompletion (F ++ F') where
  isFill := by
    constructor
    · intro p hp
      rcases List.mem_append.mp hp with hp | hp
      · have hne := hF.isFill.nonEdge p hp
        exact ⟨hne.1, fun h => hne.2 ⟨h, hF.mem_within hp⟩⟩
      · have hne := hF'.isFill.nonEdge p hp
        exact ⟨hne.1, fun h => hne.2 ⟨h, hF'.mem_within hp⟩⟩
    · rw [List.map_append, List.nodup_append']
      refine ⟨hF.isFill.nodup, hF'.isFill.nodup, ?_⟩
      intro s hs hs'
      obtain ⟨p, hp, rfl⟩ := List.mem_map.mp hs
      have hA := hF.mem_within hp
      have hB : p.1 ∈ B ∧ p.2 ∈ B := by
        rcases mem_edges_iff.mp hs' with h | h
        · exact hF'.mem_within h
        · exact (hF'.mem_within h).symm
      have hne := hF.isFill.nonEdge p hp
      exact hne.2 ⟨hclique ⟨hA.1, hB.1⟩ ⟨hA.2, hB.2⟩ hne.1, hA⟩
  support := by
    intro e he
    rcases List.mem_append.mp he with he | he
    · exact (hF.support e he).imp (fun h => support_mono (within_le A) h)
        fun h => support_mono (within_le A) h
    · exact (hF'.support e he).imp (fun h => support_mono (within_le B) h)
        fun h => support_mono (within_le B) h
  chordal := by
    have hBA : P.IsClique (B ∩ A) := Set.inter_comm A B ▸ hclique
    apply isChordal_of_glue hAB (hclique.mono_graph le_addFill)
      (not_adj_addFill_append hF hF' hcross)
    · rw [within_addFill_append hclique hF hF']
      exact hF.chordal
    · rw [addFill_perm List.perm_append_comm, within_addFill_append hBA hF' hF]
      exact hF'.chordal

theorem cliqueNum_glue_le [Finite V] (hk : ((P.within A).addFill F).cliqueNum ≤ k)
    (hk' : ((P.within B).addFill F').cliqueNum ≤ k) :
    (P.addFill (F ++ F')).cliqueNum ≤ k := by
  have hBA : P.IsClique (B ∩ A) := Set.inter_comm A B ▸ hclique
  rw [cliqueNum_le_iff]
  intro Q hQ
  have hside : Q ⊆ A ∨ Q ⊆ B := by
    by_contra hno
    rw [not_or, Set.not_subset, Set.not_subset] at hno
    obtain ⟨⟨c, hcQ, hcA⟩, a, haQ, haB⟩ := hno
    have haA := (hAB a).resolve_right haB
    have hcB := (hAB c).resolve_left hcA
    have hne : a ≠ c := fun h => hcA (h ▸ haA)
    exact not_adj_addFill_append hF hF' hcross a haA haB c hcB hcA (hQ haQ hcQ hne)
  rcases hside with hQA | hQB
  · refine le_trans (IsClique.ncard_le_cliqueNum ?_) hk
    rw [← within_addFill_append hclique hF hF']
    intro s hs t ht hst
    exact ⟨hQ hs ht hst, hQA hs, hQA ht⟩
  · refine le_trans (IsClique.ncard_le_cliqueNum ?_) hk'
    rw [← within_addFill_append hBA hF' hF, ← addFill_perm List.perm_append_comm]
    intro s hs t ht hst
    exact ⟨hQ hs ht hst, hQB hs, hQB ht⟩

end Glue

/-! ## Embedded graphs -/

section Embedded

variable {W : Type*} {f : V ↪ W}

theorem map_within : (G.within A).map f = (G.map f).within (f '' A) := by
  ext u v
  rw [map_adj, within_adj, map_adj]
  constructor
  · rintro ⟨a, b, ⟨hab, ha, hb⟩, rfl, rfl⟩
    exact ⟨⟨a, b, hab, rfl, rfl⟩, ⟨a, ha, rfl⟩, b, hb, rfl⟩
  · rintro ⟨⟨a, b, hab, rfl, rfl⟩, ⟨a', ha, haa⟩, b', hb, hbb⟩
    rw [f.injective haa] at ha
    rw [f.injective hbb] at hb
    exact ⟨a, b, ⟨hab, ha, hb⟩, rfl, rfl⟩

theorem map_within_compl {x : V} : (G.within {x}ᶜ).map f = (G.map f).within {f x}ᶜ := by
  ext u v
  rw [map_adj, within_adj, map_adj]
  constructor
  · rintro ⟨a, b, ⟨hab, ha, hb⟩, rfl, rfl⟩
    exact ⟨⟨a, b, hab, rfl, rfl⟩, fun h => ha (f.injective h), fun h => hb (f.injective h)⟩
  · rintro ⟨⟨a, b, hab, rfl, rfl⟩, ha, hb⟩
    exact ⟨a, b, ⟨hab, fun h => ha (congrArg f h), fun h => hb (congrArg f h)⟩, rfl, rfl⟩

theorem map_neighborSet {x : V} : (G.map f).neighborSet (f x) = f '' G.neighborSet x := by
  ext u
  rw [mem_neighborSet, map_adj]
  constructor
  · rintro ⟨a, b, hab, ha, rfl⟩
    rw [f.injective ha] at hab
    exact ⟨b, hab, rfl⟩
  · rintro ⟨b, hab, rfl⟩
    exact ⟨x, b, hab, rfl, rfl⟩

theorem map_support : (G.map f).support = f '' G.support := by
  ext u
  rw [mem_support]
  constructor
  · rintro ⟨w, hw⟩
    obtain ⟨a, b, hab, rfl, -⟩ := (map_adj f G u w).mp hw
    exact ⟨a, ⟨b, hab⟩, rfl⟩
  · rintro ⟨a, ⟨b, hab⟩, rfl⟩
    exact ⟨f b, map_adj_apply.mpr hab⟩

theorem mem_edges_map : s(f u, f v) ∈ (F.map (Prod.map f f)).map (fun p => s(p.1, p.2)) ↔
    s(u, v) ∈ F.map fun p => s(p.1, p.2) := by
  rw [mem_edges_iff, mem_edges_iff]
  have hmem : ∀ a b, (f a, f b) ∈ F.map (Prod.map f f) ↔ (a, b) ∈ F := by
    intro a b
    rw [List.mem_map]
    constructor
    · rintro ⟨p, hp, heq⟩
      rw [Prod.map_apply', Prod.mk.injEq, f.injective.eq_iff, f.injective.eq_iff] at heq
      rw [← heq.1, ← heq.2]
      exact hp
    · intro hp
      exact ⟨(a, b), hp, rfl⟩
  rw [hmem, hmem]

theorem map_addFill : (G.addFill F).map f = (G.map f).addFill (F.map (Prod.map f f)) := by
  ext u v
  rw [map_adj, addFill_adj, map_adj]
  constructor
  · rintro ⟨a, b, hab, rfl, rfl⟩
    rcases addFill_adj.mp hab with h | ⟨hne, hmem⟩
    · exact Or.inl ⟨a, b, h, rfl, rfl⟩
    · exact Or.inr ⟨fun h => hne (f.injective h), mem_edges_map.mpr hmem⟩
  · rintro (⟨a, b, hab, rfl, rfl⟩ | ⟨hne, hmem⟩)
    · exact ⟨a, b, le_addFill hab, rfl, rfl⟩
    · have hrange : ∃ a b, f a = u ∧ f b = v := by
        rcases mem_edges_iff.mp hmem with h | h
        · obtain ⟨p, -, hp⟩ := List.mem_map.mp h
          exact ⟨p.1, p.2, congrArg Prod.fst hp, congrArg Prod.snd hp⟩
        · obtain ⟨p, -, hp⟩ := List.mem_map.mp h
          exact ⟨p.2, p.1, congrArg Prod.snd hp, congrArg Prod.fst hp⟩
      obtain ⟨a, b, rfl, rfl⟩ := hrange
      exact ⟨a, b, addFill_adj.mpr (Or.inr ⟨fun h => hne (congrArg f h),
        mem_edges_map.mp hmem⟩), rfl, rfl⟩

theorem IsFill.map (h : G.IsFill F) : (G.map f).IsFill (F.map (Prod.map f f)) where
  nonEdge := by
    intro p hp
    obtain ⟨q, hq, rfl⟩ := List.mem_map.mp hp
    have hne := h.nonEdge q hq
    exact ⟨fun heq => hne.1 (f.injective heq), fun hadj => hne.2 (map_adj_apply.mp hadj)⟩
  nodup := by
    have hcomp : (F.map (Prod.map f f)).map (fun p => s(p.1, p.2)) =
        (F.map fun p => s(p.1, p.2)).map (Sym2.map f) := by
      rw [List.map_map, List.map_map]
      rfl
    rw [hcomp]
    exact h.nodup.map (Sym2.map.injective f.injective)

theorem IsCompletion.map (h : G.IsCompletion F) :
    (G.map f).IsCompletion (F.map (Prod.map f f)) where
  isFill := h.isFill.map
  support := by
    intro e he
    obtain ⟨q, hq, rfl⟩ := List.mem_map.mp he
    have hsupp := h.support q hq
    rw [map_support]
    exact ⟨⟨q.1, hsupp.1, rfl⟩, q.2, hsupp.2, rfl⟩
  chordal := map_addFill ▸ h.chordal.map

end Embedded

end SimpleGraph
