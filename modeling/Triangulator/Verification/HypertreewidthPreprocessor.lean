import Triangulator.Verification.HyperGraphBuild

/-!
# Preprocessing of hypergraphs

The atoms of the primal graph are the pieces of a decomposition by clique separators, and
the hypergraph on an atom has the traces of the hyperedges.  A bound on the width of the
hypergraph is therefore one on the widths of the instances.
-/

namespace Triangulator

open SimpleGraph Mcs

variable {n : ℕ}

namespace HyperGraph

variable {h : HyperGraph n} {k : ℕ} {Q : Set (Fin n)}

/-- The generalized hypertree width. -/
noncomputable def ghtw (h : HyperGraph n) : ℕ :=
  hypertreeWidth h.edgeSets

/-- A set is covered by `k` vertex sets of hyperedges when it is covered by at most `k`
hyperedges. -/
theorem isCovered_iff : IsCovered h.edgeSets k Q ↔ ∃ j ≤ k, h.HasCover Q j := by
  classical
  constructor
  · rintro ⟨F, hF, hcard, hQ⟩
    have hindex : ∀ e : Set (Fin n), ∃ I : Finset (Fin h.edges.length),
        I.card ≤ 1 ∧ (e ∈ F → ∀ v ∈ e, ∃ i ∈ I, v ∈ h.edges[i]) := by
      intro e
      by_cases he : e ∈ F
      · obtain ⟨edge, hedge, rfl⟩ := hF e he
        obtain ⟨i, hi, rfl⟩ := List.mem_iff_getElem.mp hedge
        refine ⟨{⟨i, hi⟩}, (Finset.card_singleton _).le, fun _ v hv => ?_⟩
        exact ⟨⟨i, hi⟩, Finset.mem_singleton_self _, hv⟩
      · exact ⟨∅, Nat.zero_le 1, fun hmem => absurd hmem he⟩
    choose I hI hcover using hindex
    refine ⟨(F.biUnion I).card, ?_, F.biUnion I, rfl, fun v hv => ?_⟩
    · calc (F.biUnion I).card ≤ ∑ e ∈ F, (I e).card := Finset.card_biUnion_le
        _ ≤ ∑ _e ∈ F, 1 := Finset.sum_le_sum fun e _ => hI e
        _ = F.card := by rw [Finset.sum_const, smul_eq_mul, mul_one]
        _ ≤ k := hcard
    · obtain ⟨e, he, hve⟩ := hQ v hv
      obtain ⟨i, hi, hvi⟩ := hcover e he v hve
      exact ⟨i, Finset.mem_biUnion.mpr ⟨e, he, hi⟩, hvi⟩
  · rintro ⟨j, hj, I, rfl, hQ⟩
    refine ⟨I.image fun i => vset h.edges[i], ?_, Finset.card_image_le.trans hj, fun v hv => ?_⟩
    · intro e he
      obtain ⟨i, -, rfl⟩ := Finset.mem_image.mp he
      exact ⟨h.edges[i], List.getElem_mem _, rfl⟩
    · obtain ⟨i, hi, hvi⟩ := hQ v hv
      exact ⟨_, Finset.mem_image_of_mem _ hi, hvi⟩

theorem ghtw_le_iff (hc : h.Covering) :
    h.ghtw ≤ k ↔ (SimpleGraph.primal h.edgeSets).HasCliqueBound Set.univ
      (IsCovered h.edgeSets k) :=
  hypertreeWidth_le_iff hc.exists_edgeSet

/-- The width is attained. -/
theorem isLeast_ghtw (hc : h.Covering) :
    IsLeast {k | ∃ D : TreeDecomposition h.edgeSets, ∀ i, ∃ j ≤ k, h.HasCover (D.bag i) j}
      h.ghtw := by
  have hset : {k | ∃ D : TreeDecomposition h.edgeSets, ∀ i, ∃ j ≤ k, h.HasCover (D.bag i) j} =
      {k | ∃ D : TreeDecomposition h.edgeSets, ∀ i, IsCovered h.edgeSets k (D.bag i)} := by
    simp only [isCovered_iff]
  rw [hset]
  exact isLeast_hypertreeWidth hc.exists_edgeSet

theorem one_le_ghtw (hc : h.Covering) (hn : 0 < n) : 1 ≤ h.ghtw :=
  have : Nonempty (Fin n) := ⟨⟨0, hn⟩⟩
  one_le_hypertreeWidth hc.exists_edgeSet

theorem ncard_edgeSets_le (h : HyperGraph n) : h.edgeSets.ncard ≤ h.m := by
  classical
  have hset : h.edgeSets = ↑(h.edges.map vset).toFinset := by
    ext e
    simp [edgeSets, eq_comm]
  rw [hset, Set.ncard_coe_finset]
  exact (List.toFinset_card_le _).trans (List.length_map _).le

/-- A single hyperedge covers everything. -/
theorem ghtw_le_one (hc : h.Covering) (hm : h.edgeSets.ncard ≤ 1) : h.ghtw ≤ 1 :=
  IsCovered.hypertreeWidth_le hc.exists_edgeSet
    ((isCovered_ncard hc.exists_edgeSet Set.univ).mono hm)

/-- When no clique separates the primal graph, one hyperedge is not needed. -/
theorem ghtw_lt_m (hh : h.Valid) (hc : h.Covering) (hm : 2 ≤ h.m)
    (hsep : h.primal.toSimple.IsInseparable Set.univ) : h.ghtw < h.m := by
  rw [hh.toSimple_eq] at hsep
  have hle := ncard_edgeSets_le h
  by_cases h2 : 2 ≤ h.edgeSets.ncard
  · have hpred := IsCovered.hypertreeWidth_le hc.exists_edgeSet
      (isCovered_pred_of_isInseparable hc.exists_edgeSet hsep h2)
    rw [ghtw]
    omega
  · exact lt_of_le_of_lt (ghtw_le_one hc (by omega)) hm

theorem ghtw_le_card (hc : h.Covering) : h.ghtw ≤ n := by
  have hle := IsCovered.hypertreeWidth_le hc.exists_edgeSet
    (isCovered_card hc.exists_edgeSet Set.univ)
  rwa [Nat.card_fin] at hle

end HyperGraph

namespace HypertreewidthPreprocessor

open HyperGraph

variable {h : HyperGraph n} {insts : List Io.SomeHyperGraph} {A : Set (Fin n)}

/-- What is promised of an instance: no clique separates its primal graph, which is the
induced graph of an atom. -/
structure IsInstance (h : HyperGraph n) (inst : Io.SomeHyperGraph) : Prop where
  valid : inst.2.Valid
  covering : inst.2.Covering
  pos : 0 < inst.1
  two_le : 2 ≤ inst.2.m
  inseparable : inst.2.primal.toSimple.IsInseparable Set.univ
  induced : ∃ f : Fin inst.1 ↪ Fin n, inst.2.primal.toSimple = h.primal.toSimple.comap f ∧
    Maximal (fun A => h.primal.toSimple.IsConnectedSet A ∧ h.primal.toSimple.IsInseparable A)
      (Set.range f)

/-- An instance has at most as many vertices as the hypergraph. -/
theorem IsInstance.card_le {inst : Io.SomeHyperGraph} (hi : IsInstance h inst) : inst.1 ≤ n := by
  obtain ⟨f, -⟩ := hi.induced
  have hcard := Fintype.card_le_of_embedding f
  rwa [Fintype.card_fin, Fintype.card_fin] at hcard

/-- The instances of a piece. -/
structure PieceInstances (h : HyperGraph n) (A : Set (Fin n)) (l : List Io.SomeHyperGraph) :
    Prop where
  isInstance : ∀ inst ∈ l, IsInstance h inst
  bound_iff : ∀ k, 1 ≤ k → ((SimpleGraph.primal h.edgeSets).HasCliqueBound A
    (IsCovered h.edgeSets k) ↔ ∀ inst ∈ l, inst.2.ghtw ≤ k)

/-- A hypergraph whose primal graph no clique separates is an instance unless one hyperedge
covers it. -/
theorem preprocess1_leaf (hh : h.Valid) (hn : 0 < n)
    (hsep : h.primal.toSimple.IsInseparable Set.univ) (fuel : ℕ) :
    preprocess1 (fuel + 1) ⟨n, h⟩ insts =
      some (if 1 < h.m then insts ++ [⟨n, h⟩] else insts) := by
  obtain ⟨out, hrun, hout⟩ := mcsM_exists hh.primal
  obtain ⟨vss, as, hatoms, hspec⟩ := atoms_spec hh.primal hn hout
  have hmap : (vss.map vset).length = vss.length := List.length_map vset
  have hlen : as.length = 1 := by
    rw [← hspec.induced.length_eq, ← hmap]
    exact hspec.areAtoms.length_eq_one hsep
  rw [preprocess1, if_neg hn.ne', hrun, Option.bind_eq_bind, Option.bind_some, hatoms,
    Option.bind_eq_bind, Option.bind_some, if_pos hlen]

/-- The body of the loop over the atoms. -/
theorem preprocess1_piece (hh : h.Valid) (hc : h.Covering) {vs : List (Fin n)}
    {atom : SomeGraph} (hatom : inducedGraph h.primal vs = some atom)
    (hne : (vset vs).Nonempty)
    (hmax : Maximal (fun A => h.primal.toSimple.IsConnectedSet A ∧
      h.primal.toSimple.IsInseparable A) (vset vs)) (fuel : ℕ)
    (insts : List Io.SomeHyperGraph) :
    ∃ l, (do
        let hyperAtom ← h.hyperAtom atom
        preprocess1 (fuel + 1) hyperAtom insts) = some (insts ++ l) ∧
      PieceInstances h (vset vs) l := by
  obtain ⟨a, ha, ψ, hind⟩ := inducedGraph_spec hh.primal vs
  rw [hatom, Option.some.injEq] at ha
  subst ha
  obtain ⟨h', hrun, f, htrace, hrange⟩ := hyperAtom_spec hh hind
  have hcov := hc.exists_edgeSet
  have hpos := hind.pos_iff hmax.prop.1
  rw [hrun, Option.bind_eq_bind, Option.bind_some]
  by_cases h2 : 2 ≤ (vset vs).ncard
  · rw [hind.range_eq hmax.prop.1 h2] at hrange
    have hn' : 0 < h'.1 := by
      rw [← hrange] at hne
      obtain ⟨_, j, rfl⟩ := hne
      exact j.pos
    have hgraph : h'.2.primal.toSimple = h.primal.toSimple.comap f := by
      rw [htrace.valid.toSimple_eq, htrace.edgeSets_eq, primal_trace, ← hh.toSimple_eq]
    have hsep : h'.2.primal.toSimple.IsInseparable Set.univ := by
      rw [hgraph]
      apply IsInseparable.comap
      rw [hrange]
      exact hmax.prop.2
    have hbound : ∀ k, h'.2.ghtw ≤ k ↔ (SimpleGraph.primal h.edgeSets).HasCliqueBound (vset vs)
        (IsCovered h.edgeSets k) := by
      intro k
      have hW : ∀ w, ∃ t ∈ trace h.edgeSets f, w ∈ t := by
        rw [← htrace.edgeSets_eq]
        exact htrace.covering.exists_edgeSet
      rw [ghtw, htrace.edgeSets_eq, hypertreeWidth_trace_le_iff hW, hrange]
    rw [preprocess1_leaf htrace.valid hn' hsep]
    by_cases hm : 1 < h'.2.m
    · have hinst : IsInstance h h' :=
        ⟨htrace.valid, htrace.covering, hn', hm, hsep, f, hgraph, hrange ▸ hmax⟩
      refine ⟨[h'], by rw [if_pos hm], ?_, fun k _ => ?_⟩
      · intro inst hmem
        rwa [List.mem_singleton.mp hmem]
      · rw [← hbound, List.forall_mem_singleton]
    · refine ⟨[], by rw [if_neg hm, List.append_nil], by simp, fun k hk => ?_⟩
      rw [← hbound]
      have hone := ghtw_le_one htrace.covering ((ncard_edgeSets_le _).trans (Nat.le_of_not_lt hm))
      simp [hone.trans hk]
  · -- a single vertex has no hyperedge of two vertices
    have hzero : h'.1 = 0 := by
      by_contra hn'
      have hmem : f ⟨0, Nat.pos_of_ne_zero hn'⟩ ∈ Set.range ψ := hrange ▸ ⟨_, rfl⟩
      obtain ⟨j, -⟩ := hmem
      exact h2 (hpos.mp j.pos)
    rw [preprocess1, if_pos hzero]
    refine ⟨[], by rw [List.append_nil], by simp, fun k hk => ?_⟩
    have hcard := (Set.ncard_pos (Set.toFinite _)).mpr hne
    obtain ⟨v, hv⟩ := Set.ncard_eq_one.mp (by omega : (vset vs).ncard = 1)
    have hbound : (SimpleGraph.primal h.edgeSets).HasCliqueBound (vset vs)
        (IsCovered h.edgeSets k) := by
      rw [hv]
      exact HasCliqueBound.of_isClique (Set.pairwise_singleton v _) fun Q hQ =>
        (isCovered_singleton hcov v hk).subset hQ
    simp [hbound]

/-- The loop over the atoms. -/
theorem preprocess1_pieces {step : List Io.SomeHyperGraph → SomeGraph →
    Option (List Io.SomeHyperGraph)} {vss : List (List (Fin n))} {atoms : List SomeGraph}
    (hstep : List.Forall₂ (fun vs atom => ∀ insts, ∃ l,
      step insts atom = some (insts ++ l) ∧ PieceInstances h (vset vs) l) vss atoms)
    (insts : List Io.SomeHyperGraph) :
    ∃ l, atoms.foldlM step insts = some (insts ++ l) ∧ (∀ inst ∈ l, IsInstance h inst) ∧
      ∀ k, 1 ≤ k → ((∀ vs ∈ vss, (SimpleGraph.primal h.edgeSets).HasCliqueBound (vset vs)
        (IsCovered h.edgeSets k)) ↔ ∀ inst ∈ l, inst.2.ghtw ≤ k) := by
  induction hstep generalizing insts with
  | nil => exact ⟨[], by rw [List.append_nil]; rfl, by simp, by simp⟩
  | cons hhead _ ih =>
      obtain ⟨l, hrun, hl⟩ := hhead insts
      obtain ⟨l', hrun', hinst, hbound⟩ := ih (insts ++ l)
      refine ⟨l ++ l', ?_, ?_, fun k hk => ?_⟩
      · rw [List.foldlM_cons, hrun, Option.bind_eq_bind, Option.bind_some, hrun',
          List.append_assoc]
      · intro inst hmem
        exact (List.mem_append.mp hmem).elim (hl.isInstance inst) (hinst inst)
      · rw [List.forall_mem_cons, List.forall_mem_append, hl.bound_iff k hk, hbound k hk]

theorem preprocess_bound (hh : h.Valid) (hc : h.Covering) (hn : 0 < n) (fuel : ℕ) :
    ∃ l, preprocess (fuel + 2) h = some l ∧ (∀ inst ∈ l, IsInstance h inst) ∧
      ∀ k, 1 ≤ k → (h.ghtw ≤ k ↔ ∀ inst ∈ l, inst.2.ghtw ≤ k) := by
  obtain ⟨out, hrun, hout⟩ := mcsM_exists hh.primal
  obtain ⟨vss, as, hatoms, hspec⟩ := atoms_spec hh.primal hn hout
  have hL := hspec.areAtoms
  have hmax : ∀ vs ∈ vss, Maximal (fun A => h.primal.toSimple.IsConnectedSet A ∧
      h.primal.toSimple.IsInseparable A) (vset vs) := by
    intro vs hvs
    have hQ := (hL.mem_iff_maximal (Q := fun _ => True) fun _ _ _ _ => trivial).mp
      ⟨List.mem_map_of_mem hvs, trivial⟩
    simpa only [true_and] using hQ
  by_cases hlen : as.length = 1
  · have hsep := hspec.inseparable hlen
    rw [preprocess, preprocess1_leaf hh hn hsep, List.nil_append]
    by_cases hm : 1 < h.m
    · have huniv : Set.range (Function.Embedding.refl (Fin n)) = Set.univ := Set.range_id
      refine ⟨[⟨n, h⟩], by rw [if_pos hm], ?_, fun k _ => by simp⟩
      intro inst hmem
      obtain rfl := List.mem_singleton.mp hmem
      refine ⟨hh, hc, hn, hm, hsep, Function.Embedding.refl _, rfl, ?_⟩
      rw [huniv]
      exact ⟨⟨hsep.isConnectedSet, hsep⟩, fun _ _ _ => Set.subset_univ _⟩
    · refine ⟨[], by rw [if_neg hm], by simp, fun k hk => ?_⟩
      have hone := ghtw_le_one hc ((ncard_edgeSets_le h).trans (Nat.le_of_not_lt hm))
      simp [hone.trans hk]
  · have hstep : List.Forall₂ (fun vs atom => ∀ insts, ∃ l,
        (do
          let hyperAtom ← h.hyperAtom atom
          preprocess1 (fuel + 1) hyperAtom insts) = some (insts ++ l) ∧
        PieceInstances h (vset vs) l) vss as :=
      forall₂_imp_of_mem hspec.induced fun vs hvs atom hatom =>
        preprocess1_piece hh hc hatom (hL.nonempty _ (List.mem_map_of_mem hvs)) (hmax vs hvs)
          fuel
    obtain ⟨l, hfold, hinst, hbound⟩ := preprocess1_pieces hstep []
    refine ⟨l, ?_, hinst, fun k hk => ?_⟩
    · rw [preprocess, preprocess1, if_neg hn.ne', hrun, Option.bind_eq_bind, Option.bind_some,
        hatoms, Option.bind_eq_bind, Option.bind_some, if_neg hlen]
      exact hfold
    · rw [ghtw_le_iff hc, ← hbound k hk, ← hh.toSimple_eq,
        hspec.decomposition.hasCliqueBound_iff, List.forall_mem_map]

/-- The width is the largest width of an instance, or one when there is none. -/
theorem preprocess_instances (hh : h.Valid) (hc : h.Covering) (hn : 0 < n) {fuel : ℕ}
    (hfuel : 2 ≤ fuel) :
    ∃ l, preprocess fuel h = some l ∧ (∀ inst ∈ l, IsInstance h inst) ∧
      h.ghtw = l.foldl (fun w inst => max w inst.2.ghtw) 1 := by
  obtain ⟨l, hrun, hinst, hbound⟩ := preprocess_bound hh hc hn (fuel - 2)
  rw [Nat.sub_add_cancel hfuel] at hrun
  refine ⟨l, hrun, hinst, ?_⟩
  apply eq_of_forall_ge_iff
  intro k
  rw [foldl_max_le_iff (fun inst : Io.SomeHyperGraph => inst.2.ghtw)]
  constructor
  · intro hk
    have hone := (one_le_ghtw hc hn).trans hk
    exact ⟨hone, (hbound k hone).mp hk⟩
  · rintro ⟨hone, hk⟩
    exact (hbound k hone).mpr hk

/-- `Preprocess` returns, and the width of the hypergraph is the largest width of an
instance, or one when there is none.  No clique separates the primal graph of an instance,
which has two hyperedges and is the induced graph of an atom. -/
theorem preprocess_ghtw (hh : h.Valid) (hc : h.Covering) (hn : 0 < n) :
    ∃ N, ∀ fuel ≥ N, ∃ instances, preprocess fuel h = some instances ∧
      h.ghtw = instances.foldl (fun w inst => max w inst.2.ghtw) 1 ∧
      ∀ inst ∈ instances, inst.2.primal.toSimple.IsInseparable Set.univ ∧ 2 ≤ inst.2.m ∧
        ∃ f : Fin inst.1 ↪ Fin n,
          inst.2.primal.toSimple = h.primal.toSimple.comap f ∧
          Maximal (fun A => h.primal.toSimple.IsConnectedSet A ∧
            h.primal.toSimple.IsInseparable A) (Set.range f) := by
  refine ⟨2, fun fuel hfuel => ?_⟩
  obtain ⟨l, hrun, hinst, hghtw⟩ := preprocess_instances hh hc hn hfuel
  refine ⟨l, hrun, hghtw, fun inst hmem => ?_⟩
  have hi := hinst inst hmem
  exact ⟨hi.inseparable, hi.two_le, hi.induced⟩

theorem preprocess_ghtw_triangle :
    ∃ h₁ h₂ h, (HyperGraph.empty 3).addEdge [0, 1] = some h₁ ∧ h₁.addEdge [1, 2] = some h₂ ∧
      h₂.addEdge [2, 0] = some h ∧
      ∃ N, ∀ fuel ≥ N, ∃ instances, preprocess fuel h = some instances ∧
        h.ghtw = instances.foldl (fun w inst => max w inst.2.ghtw) 1 := by
  obtain ⟨h₁, hadd₁, hv₁, hedges₁⟩ := HyperGraph.addEdge_spec (HyperGraph.valid_empty 3) [0, 1]
  obtain ⟨h₂, hadd₂, hv₂, hedges₂⟩ := HyperGraph.addEdge_spec hv₁ [1, 2]
  obtain ⟨h, hadd, hv, hedges⟩ := HyperGraph.addEdge_spec hv₂ [2, 0]
  have hc : h.Covering := by
    intro v
    rw [hedges, hedges₂, hedges₁]
    revert v
    decide
  obtain ⟨N, hN⟩ := preprocess_ghtw hv hc (by decide)
  refine ⟨h₁, h₂, h, hadd₁, hadd₂, hadd, N, fun fuel hfuel => ?_⟩
  obtain ⟨instances, hrun, hghtw, -⟩ := hN fuel hfuel
  exact ⟨instances, hrun, hghtw⟩

end HypertreewidthPreprocessor

end Triangulator
