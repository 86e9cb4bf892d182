import Triangulator.Verification.PreprocessLeaf

/-!
# The recursion of the treewidth preprocessor

Every call of `Preprocess1` appends fill edges and instances and raises the lower
bound, whatever the state is, and what it appends is a width-preserving reduction of
its graph.  The recursion ends because each call has fewer vertices with an edge, or
as many and fewer vertices, or as many of both and fewer non-edges.
-/

namespace Triangulator

open SimpleGraph Mcs

variable {n N : ℕ} {g : Graph n} {φ : Fin n ↪ Fin N}

/-- The picture of a graph in the numbering of the surrounding graph. -/
abbrev picture (g : Graph n) (φ : Fin n ↪ Fin N) : SimpleGraph (Fin N) :=
  g.toSimple.map φ

/-- The instance carries the graph `Q`, which needs a solver, together with a
triangulation that attains its upper bound. -/
structure IsInstance (inst : TreewidthInstance) (Q : SimpleGraph (Fin N)) : Prop where
  core : IsCore inst.graph.2.toSimple
  degree : ∀ v, 2 < (inst.graph.2.adjList v).length
  embedding : ∃ φ, Embeds inst.graph.2 φ ∧ picture inst.graph.2 φ = Q
  upperBound : ∃ F, inst.upperBoundFill = edgeNumbers F ∧
    inst.graph.2.toSimple.IsCompletion F ∧
    ((inst.graph.2.toSimple.addFill F).treewidth : ℤ) = inst.upperBound

/-- What one call appends to the state. -/
structure Outcome (N : ℕ) where
  bound : ℕ
  fill : List (Fin N × Fin N)
  parts : List (SimpleGraph (Fin N))
  instances : List TreewidthInstance

/-- The state after a call. -/
def Outcome.apply (o : Outcome N) (s : PreprocessorState) : PreprocessorState where
  instances := s.instances ++ o.instances
  fillEdges := s.fillEdges ++ edgeNumbers o.fill
  lowerBound := max s.lowerBound o.bound

/-- A call with enough depth appends a reduction of its graph. -/
structure Reduces (call : ℕ → PreprocessorState → Option PreprocessorState)
    (P : SimpleGraph (Fin N)) (o : Outcome N) : Prop where
  returns : ∃ depth, ∀ fuel, depth ≤ fuel → ∀ s, 0 ≤ s.lowerBound →
    call fuel s = some (o.apply s)
  reduction : P.IsReduction o.bound o.fill o.parts
  instances : List.Forall₂ IsInstance o.instances o.parts

/-- A graph on which `Preprocess1` does what it should. -/
def Preprocessed (N : ℕ) (g : SomeGraph) : Prop :=
  ∀ φ : Fin g.1 ↪ Fin N, Embeds g.2 φ →
    ∃ o, Reduces (fun fuel => preprocess1 fuel g) (picture g.2 φ) o

/-! ## The order of the recursion -/

/-- The pairs of vertices without an edge. -/
noncomputable def nonEdges (g : SomeGraph) : ℕ :=
  {p : Fin g.1 × Fin g.1 | ¬g.2.toSimple.Adj p.1 p.2}.ncard

/-- The number of vertices with an edge. -/
noncomputable def supportSize (g : SomeGraph) : ℕ :=
  g.2.toSimple.support.ncard

/-- The measure of the recursion. -/
noncomputable def recursionMeasure (g : SomeGraph) : ℕ × ℕ × ℕ :=
  (supportSize g, g.1, nonEdges g)

def IsSmaller (h g : SomeGraph) : Prop :=
  Prod.Lex (· < ·) (Prod.Lex (· < ·) (· < ·)) (recursionMeasure h) (recursionMeasure g)

theorem isSmaller_of_support {h g : SomeGraph} (hlt : supportSize h < supportSize g) :
    IsSmaller h g :=
  Prod.Lex.left _ _ hlt

theorem isSmaller_of_vertices {h g : SomeGraph} (hle : supportSize h ≤ supportSize g)
    (hlt : h.1 < g.1) : IsSmaller h g := by
  rcases hle.lt_or_eq with hs | hs
  · exact isSmaller_of_support hs
  · rw [IsSmaller, recursionMeasure, recursionMeasure, hs]
    exact Prod.Lex.right _ (Prod.Lex.left _ _ hlt)

theorem isSmaller_of_nonEdges {h g : Graph n} (hs : supportSize ⟨n, h⟩ = supportSize ⟨n, g⟩)
    (hlt : nonEdges ⟨n, h⟩ < nonEdges ⟨n, g⟩) : IsSmaller ⟨n, h⟩ ⟨n, g⟩ := by
  rw [IsSmaller, recursionMeasure, recursionMeasure, hs]
  exact Prod.Lex.right _ (Prod.Lex.right _ hlt)

theorem supportSize_eq_of_forall (h : ∀ v, v ∈ g.toSimple.support) :
    supportSize ⟨n, g⟩ = n := by
  have huniv : g.toSimple.support = Set.univ := Set.eq_univ_of_forall h
  rw [supportSize, huniv, Set.ncard_univ, Nat.card_eq_fintype_card, Fintype.card_fin]

/-- Adding an edge leaves fewer non-edges. -/
theorem nonEdges_lt {h : Graph n} (hle : g.toSimple ≤ h.toSimple) {u v : Fin n}
    (hg : ¬g.toSimple.Adj u v) (hh : h.toSimple.Adj u v) :
    nonEdges ⟨n, h⟩ < nonEdges ⟨n, g⟩ := by
  apply Set.ncard_lt_ncard _ (Set.toFinite _)
  constructor
  · intro p hp hadj
    exact hp (hle hadj)
  · intro hsub
    have huv : (u, v) ∈ {p : Fin n × Fin n | ¬g.toSimple.Adj p.1 p.2} := hg
    exact hsub huv hh

namespace Outcome

variable {o o' : Outcome N}

/-- One call after the other. -/
def append (o o' : Outcome N) : Outcome N where
  bound := max o.bound o'.bound
  fill := o.fill ++ o'.fill
  parts := o.parts ++ o'.parts
  instances := o.instances ++ o'.instances

theorem apply_append (s : PreprocessorState) :
    (o.append o').apply s = o'.apply (o.apply s) := by
  rw [apply, apply, apply, append]
  simp only [edgeNumbers, List.map_append, List.append_assoc, Nat.cast_max, max_assoc]

end Outcome

/-! ## A graph with at most one fill edge -/

theorem Mcs.McsMSpec.isCompletion {out : McsMOutput n} (hout : McsMSpec g out) :
    g.toSimple.IsCompletion out.fillEdges :=
  hout.isMinimalTriangulation.isCompletion hout.isFill

/-- The near-chordal shortcut. -/
theorem reduces_leaf {out : McsMOutput n} (hφ : Embeds g φ) (hout : McsMSpec g out)
    (hrun : mcsM g = some out) (hlen : out.fillEdges.length ≤ 1) :
    Reduces (fun fuel => preprocess1 fuel ⟨n, g⟩) (picture g φ)
      ⟨g.toSimple.treewidth, embedEdges φ out.fillEdges, [], []⟩ := by
  obtain ⟨filled, hadd, hfilled⟩ := addEdges_spec hφ.valid out.fillEdges fun p hp =>
    (hout.isFill.nonEdge p hp).1
  have hmin := hout.isMinimalTriangulation
  have htw : filled.toSimple.treewidth = g.toSimple.treewidth := by
    rw [hfilled.toSimple, hmin.chordal.treewidth_eq, hmin.treewidth_eq hlen]
  have hchordal : filled.toSimple.IsChordal := hfilled.toSimple ▸ hmin.chordal
  refine ⟨⟨1, ?_⟩, ⟨?_, ?_, by simp⟩, List.Forall₂.nil⟩
  · intro fuel hfuel s _
    obtain ⟨fuel, rfl⟩ := Nat.exists_eq_add_of_le' hfuel
    rw [preprocess1]
    dsimp only
    rw [hrun, Option.bind_eq_bind, Option.bind_some, hadd, Option.bind_eq_bind,
      Option.bind_some, if_pos hlen, treewidth_spec hfilled.valid hchordal, htw,
      hφ.mapBackEdges_eq, Outcome.apply, List.append_nil]
    rfl
  · apply Completes.leaf hout.isCompletion.map
    rw [embedEdges, ← map_addFill]
    apply cliqueNum_map_le
    rw [hmin.treewidth_eq hlen]
    exact Nat.sub_le_iff_le_add.mp le_rfl
  · rw [treewidth_map]

/-! ## A graph without a clique separator -/

section Core

variable {gi : Graph n} {ub : ℤ} {ubFill : List (ℕ × ℕ)} {d : ℕ}
  (hφ : Embeds gi φ) (hcore : IsCore gi.toSimple) (hd : 2 ≤ d)
  (hdtw : d ≤ gi.toSimple.treewidth)
  (hub : ∃ F, ubFill = edgeNumbers F ∧ gi.toSimple.IsCompletion F ∧
    ((gi.toSimple.addFill F).treewidth : ℤ) = ub)
  (ih : ∀ h, IsSmaller h ⟨n, gi⟩ → Preprocessed N h)
include hφ hcore hd hdtw hub ih

/-- `Preprocess2`, after the lower bound has been raised to the minimum degree. -/
theorem reduces_preprocess2 :
    ∃ o, Reduces (fun fuel s => preprocess2 (preprocess1 fuel) ⟨⟨n, gi⟩, ub, ubFill⟩
      { s with lowerBound := max s.lowerBound d }) (picture gi φ) o := by
  have hdeg : ∀ v, 1 < (gi.adjList v).length := by
    intro v
    rw [hφ.valid.length_adjList]
    exact hcore.two_le_degree v
  have hnadj : ∀ x nb1 nb2, gi.adjList x = [nb1, nb2] → gi.adjMat nb1 nb2 = false := by
    intro x nb1 nb2 hx
    rw [← Bool.not_eq_true]
    intro hmat
    apply hcore.not_isClique_neighborSet x
    have hadj : gi.toSimple.Adj nb1 nb2 := hφ.valid.adj_iff.mpr hmat
    have hmem : ∀ v ∈ gi.toSimple.neighborSet x, v = nb1 ∨ v = nb2 := by
      intro v hv
      have hvl := hφ.valid.mem_adjList_iff.mpr hv
      rw [hx] at hvl
      simpa using hvl
    intro a ha b hb hab
    rcases hmem a ha with rfl | rfl
    · rcases hmem b hb with rfl | rfl
      · exact absurd rfl hab
      · exact hadj
    · rcases hmem b hb with rfl | rfl
      · exact hadj.symm
      · exact absurd rfl hab
  have hPd : d ≤ (picture gi φ).treewidth := hdtw.trans_eq (treewidth_map φ).symm
  obtain ⟨graph', fill, hrun, hsteps, hnil⟩ := greedyDegree2_spec φ hφ.valid hdeg hnadj
  have hφ' : Embeds graph' φ := hφ.congr hsteps.valid hsteps.vertexMap
  by_cases hfill : fill = []
  · -- Every vertex has degree at least three.
    obtain ⟨rfl, hdeg3⟩ := hnil hfill
    subst hfill
    rcases neighborClique_spec hφ.valid hdeg3 hcore.not_isClique_neighborSet with
      ⟨hnone, -⟩ | ⟨graph'', x, u, v, hsome, hadd, hmiss⟩
    · refine ⟨⟨d, [], [picture graph' φ], [⟨⟨n, graph'⟩, ub, ubFill⟩]⟩, ⟨0, ?_⟩,
        ⟨Completes.part, hPd, by simp⟩, ?_⟩
      · intro fuel _ s _
        rw [preprocess2]
        dsimp only
        rw [hrun, Option.bind_eq_bind, Option.bind_some, if_neg (by simp), hnone]
        rw [Outcome.apply, edgeNumbers, List.map_nil, List.append_nil]
        rfl
      · exact List.Forall₂.cons ⟨hcore, hdeg3, ⟨φ, hφ, rfl⟩, hub⟩ List.Forall₂.nil
    · have hφ'' : Embeds graph'' φ := hφ.congr hadd.valid hadd.vertexMap
      have hle : graph'.toSimple ≤ graph''.toSimple := by
        rw [hadd.toSimple]
        exact le_addFill
      have hsmall : IsSmaller ⟨n, graph''⟩ ⟨n, graph'⟩ := by
        apply isSmaller_of_nonEdges
        · rw [supportSize_eq_of_forall fun w => support_mono hle (hcore.mem_support w),
            supportSize_eq_of_forall hcore.mem_support]
        · apply nonEdges_lt hle hmiss.not_adj
          rw [hadd.toSimple]
          exact addFill_adj.mpr (Or.inr ⟨hmiss.ne, by simp⟩)
      obtain ⟨o, ⟨depth, hcall⟩, hred, hinst⟩ := ih _ hsmall φ hφ''
      have hpic : picture graph'' φ = (picture graph' φ).addFill [(φ u, φ v)] := by
        rw [picture, hadd.toSimple, map_addFill]
        rfl
      have htw : (picture graph'' φ).treewidth ≤ (picture graph' φ).treewidth := by
        rw [treewidth_map, treewidth_map, hadd.toSimple]
        exact hcore.treewidth_addFill_le hmiss
      refine ⟨⟨max d o.bound, (φ u, φ v) :: o.fill, o.parts, o.instances⟩,
        ⟨depth, ?_⟩, ⟨?_, ?_, ?_⟩, hinst⟩
      · intro fuel hfuel s hs
        rw [preprocess2]
        dsimp only
        rw [hrun, Option.bind_eq_bind, Option.bind_some, if_neg (by simp), hsome]
        dsimp only [Option.bind_eq_bind, Option.bind_some]
        rw [hφ''.mapBackEdges_eq, hcall fuel hfuel _ (le_max_of_le_left hs), Outcome.apply,
          Outcome.apply]
        simp only [edgeNumbers, embedEdges, List.map_cons, List.map_nil, List.append_assoc,
          List.singleton_append, Nat.cast_max, max_assoc]
        rfl
      · apply Completes.addEdge (e := (φ u, φ v))
        · rw [← hpic]
          exact hred.toCompletes.raise (le_max_right _ _)
        · exact fun heq => hmiss.ne (φ.injective heq)
        · exact fun hadj => hmiss.not_adj (map_adj_apply.mp hadj)
        · exact ⟨⟨φ x, map_adj_apply.mpr hmiss.left.symm⟩, φ x,
            map_adj_apply.mpr hmiss.right.symm⟩
      · exact max_le hPd (hred.bound_le.trans htw)
      · intro Q hQ
        exact (hred.part_le Q hQ).trans htw
  · have hsmall : IsSmaller ⟨n, graph'⟩ ⟨n, gi⟩ := by
      apply isSmaller_of_support
      apply Set.ncard_lt_ncard _ (Set.toFinite _)
      exact hsteps.support.ssubset_of_ne (hsteps.support_ne hfill)
    obtain ⟨o, ⟨depth, hcall⟩, hred, hinst⟩ := ih _ hsmall φ hφ'
    refine ⟨⟨max d o.bound, embedEdges φ fill ++ o.fill, o.parts, o.instances⟩,
      ⟨depth, ?_⟩, ⟨?_, ?_, ?_⟩, hinst⟩
    · intro fuel hfuel s hs
      have hpos : 0 < fill.length := List.length_pos_of_ne_nil hfill
      rw [preprocess2]
      dsimp only
      rw [hrun, Option.bind_eq_bind, Option.bind_some, if_pos hpos, hφ'.mapBackEdges_eq,
        hcall fuel hfuel _ (le_max_of_le_left hs), Outcome.apply, Outcome.apply]
      simp only [edgeNumbers, List.map_append, List.append_assoc, Nat.cast_max, max_assoc]
    · apply hsteps.completes _ _ _ (hd.trans (le_max_left _ _))
      exact hred.toCompletes.raise (le_max_right _ _)
    · exact max_le hPd (hred.bound_le.trans hsteps.treewidth_le)
    · intro Q hQ
      exact (hred.part_le Q hQ).trans hsteps.treewidth_le

end Core

/-! ## A graph with clique separators -/

/-- The state after the loop over the atoms, as far as the entries of `T` and the bound
describe it. -/
structure AtomsReduce (P : SimpleGraph (Fin N)) (g : Graph n) (as : List SomeGraph)
    (L : List (Set (Fin N))) (o : Outcome N)
    (T : List (Set (Fin N) × List (Fin N × Fin N) × List (SimpleGraph (Fin N)))) : Prop where
  returns : ∃ depth, ∀ fuel, depth ≤ fuel → ∀ s, 0 ≤ s.lowerBound → as.foldlM
    (fun s atom => preprocess1 fuel ⟨atom.1, atom.2.inheritMap g⟩ s) s = some (o.apply s)
  sets : T.map Prod.fst = L
  fill : o.fill = T.flatMap fun t => t.2.1
  parts : o.parts = T.flatMap fun t => t.2.2
  completes : ∀ t ∈ T, (P.within t.1).Completes o.bound t.2.1 t.2.2
  bound_le : o.bound ≤ P.treewidth
  part_le : ∀ Q ∈ o.parts, Q.treewidth ≤ P.treewidth
  instances : List.Forall₂ IsInstance o.instances o.parts

/-- The loop over the atoms. -/
theorem exists_atomsReduce (P : SimpleGraph (Fin N)) (g : Graph n) {as : List SomeGraph}
    {L : List (Set (Fin N))}
    (h : List.Forall₂ (fun A (a : SomeGraph) => ∃ o, Reduces
      (fun fuel => preprocess1 fuel ⟨a.1, a.2.inheritMap g⟩) (P.within A) o) L as) :
    ∃ o T, AtomsReduce P g as L o T := by
  induction h with
  | nil =>
      refine ⟨⟨0, [], [], []⟩, [], ⟨0, ?_⟩, rfl, rfl, rfl, by simp, Nat.zero_le _, by simp,
        List.Forall₂.nil⟩
      intro fuel _ s hs
      rw [List.foldlM_nil, Outcome.apply, edgeNumbers, List.map_nil, List.append_nil,
        List.append_nil, Nat.cast_zero, max_eq_left hs]
      rfl
  | @cons A a L as hhead _ ih =>
      obtain ⟨o, ⟨depth, hcall⟩, hred, hinst⟩ := hhead
      obtain ⟨o', T, ⟨⟨depth', hrest⟩, hsets, hfill, hparts, hcompletes, hbound, hpart, hinst'⟩⟩ :=
        ih
      have hle : (P.within A).treewidth ≤ P.treewidth := treewidth_mono (within_le A)
      refine ⟨o.append o', (A, o.fill, o.parts) :: T, ⟨max depth depth', ?_⟩, ?_, ?_, ?_, ?_,
        ?_, ?_, List.rel_append hinst hinst'⟩
      · intro fuel hfuel s hs
        rw [List.foldlM_cons, hcall fuel ((le_max_left _ _).trans hfuel) s hs,
          Outcome.apply_append]
        exact hrest fuel ((le_max_right _ _).trans hfuel) (o.apply s) (le_max_of_le_left hs)
      · rw [List.map_cons, hsets]
      · rw [List.flatMap_cons, ← hfill]
        rfl
      · rw [List.flatMap_cons, ← hparts]
        rfl
      · intro t ht
        rcases List.mem_cons.mp ht with rfl | ht
        · exact hred.toCompletes.raise (le_max_left _ _)
        · exact (hcompletes t ht).raise (le_max_right _ _)
      · exact max_le (hred.bound_le.trans hle) hbound
      · intro Q hQ
        rcases List.mem_append.mp hQ with hQ | hQ
        · exact (hred.part_le Q hQ).trans hle
        · exact hpart Q hQ

/-! ## The whole recursion -/

theorem within_range {V W : Type*} {G : SimpleGraph V} (f : V ↪ W) :
    (G.map f).within (f '' Set.univ) = G.map f := by
  rw [← map_within]
  congr 1
  ext u v
  simp

/-- An induced subgraph with all vertices and without isolated ones is the graph. -/
theorem InducedOn.toSimple_eq {a : Graph n} {ψ : Fin n ↪ Fin n}
    (ha : InducedOn g Set.univ a ψ) (hψ : ∀ j, ψ j = j) : a.toSimple = g.toSimple := by
  ext u v
  have hmap := map_adj_apply (f := ψ) (G := a.toSimple) (a := u) (b := v)
  rw [hψ, hψ, ha.map_eq, within_adj] at hmap
  rw [← hmap]
  simp

/-- An induced subgraph that leaves out a vertex is smaller. -/
theorem InducedOn.isSmaller {k : ℕ} {a : Graph k} {ψ : Fin k ↪ Fin n} {A : Set (Fin n)}
    {v : Fin n} (ha : InducedOn g A a ψ) (hv : v ∉ A) :
    IsSmaller ⟨k, a.inheritMap g⟩ ⟨n, g⟩ := by
  have hsub : ψ '' a.toSimple.support ⊆ g.toSimple.support := by
    rw [← map_support, ha.map_eq]
    exact support_mono (within_le A)
  have hrange : Set.range ψ ⊆ A := by
    rintro _ ⟨j, rfl⟩
    obtain ⟨i, hij⟩ := ha.support j
    have hadj : (a.toSimple.map ψ).Adj (ψ j) (ψ i) := map_adj_apply.mpr hij
    rw [ha.map_eq] at hadj
    exact hadj.2.1
  apply isSmaller_of_vertices
  · rw [supportSize, supportSize]
    change a.toSimple.support.ncard ≤ g.toSimple.support.ncard
    rw [← Set.ncard_image_of_injective _ ψ.injective]
    exact Set.ncard_le_ncard hsub (Set.toFinite _)
  · have hne : Set.range ψ ≠ Set.univ := by
      intro huniv
      exact hv (hrange (huniv.ge (Set.mem_univ v)))
    have hlt := Set.ncard_lt_ncard (Set.ssubset_univ_iff.mpr hne) (Set.toFinite _)
    rw [Set.ncard_univ, Nat.card_eq_fintype_card, Fintype.card_fin, ← Set.image_univ,
      Set.ncard_image_of_injective _ ψ.injective, Set.ncard_univ, Nat.card_eq_fintype_card,
      Fintype.card_fin] at hlt
    exact hlt

section Step

variable {out : McsMOutput n} {filled : Graph n} {vss : List (List (Fin n))}
  {as : List SomeGraph}
  (hφ : Embeds g φ) (hrun : mcsM g = some out) (hout : McsMSpec g out)
  (hlen : ¬out.fillEdges.length ≤ 1) (hadd : g.addEdges out.fillEdges = some filled)
  (hfilled : EdgesAdded g out.fillEdges filled) (hatoms : atoms g out = some as)
  (hspec : AtomsSpec g vss as) (ih : ∀ h, IsSmaller h ⟨n, g⟩ → Preprocessed N h)
include hφ hrun hout hlen hadd hfilled hatoms hspec ih

/-- A single atom is the graph itself. -/
theorem reduces_single {atom : SomeGraph} (hone : as = [atom]) :
    ∃ o, Reduces (fun fuel => preprocess1 fuel ⟨n, g⟩) (picture g φ) o := by
  subst hone
  have hmin := hout.isMinimalTriangulation
  have hchordal : filled.toSimple.IsChordal := hfilled.toSimple ▸ hmin.chordal
  have hcore : IsCore g.toSimple := by
    refine ⟨hspec.inseparable rfl, fun hG => ?_⟩
    rw [← hout.fillEdges_eq_nil_iff] at hG
    rw [hG] at hlen
    exact hlen (Nat.zero_le 1)
  have hn := hcore.nonempty
  obtain ⟨vs, _, hvs, hnil, rfl⟩ := List.forall₂_cons_right_iff.mp hspec.induced
  cases hnil
  have huniv : vset vs = Set.univ := by
    have hsingle := (hspec.decomposition.eq_of_length_one rfl).1
    simpa using hsingle
  obtain ⟨b, hb, ψ, hind⟩ := inducedGraph_spec hφ.valid vs
  rw [hvs, Option.some.injEq] at hb
  subst hb
  rw [huniv] at hind
  have hsurj : Function.Surjective ψ := by
    intro v
    obtain ⟨w, hw⟩ := (mem_support _).mp (hcore.mem_support v)
    have hadj : (atom.2.toSimple.map ψ).Adj v w := by
      rw [hind.map_eq, within_adj]
      exact ⟨hw, trivial, trivial⟩
    obtain ⟨j, -, -, hj, -⟩ := (map_adj ψ _ _ _).mp hadj
    exact ⟨j, hj⟩
  obtain ⟨k, a⟩ := atom
  obtain ⟨heq, hid⟩ := hind.eq_of_surjective hsurj
  dsimp only at heq
  subst heq
  have hsimple : a.toSimple = g.toSimple := hind.toSimple_eq hid
  obtain ⟨hvalid, hinherit, hlabel⟩ := hind.inheritMap hφ.valid
  have hφa : Embeds (a.inheritMap g) φ := by
    refine ⟨hvalid, ?_⟩
    intro v
    have hv : ψ v = v := hid v
    rw [hlabel, hv, hφ.label]
  have hsimple' : (a.inheritMap g).toSimple = g.toSimple := hinherit.trans hsimple
  -- The minimum degree as a natural number.
  have hdegree : ∀ v, (a.adjList v).length = (g.toSimple.neighborSet v).ncard := by
    intro v
    rw [hind.valid.length_adjList, hsimple]
  have hk2 : 2 ≤ (k : ℤ) - 1 := by
    have hne : g.toSimple.neighborSet ⟨0, hn⟩ ≠ Set.univ := by
      intro huniv
      have hmem : (⟨0, hn⟩ : Fin k) ∈ g.toSimple.neighborSet ⟨0, hn⟩ := huniv ▸ trivial
      exact g.toSimple.loopless.irrefl _ hmem
    have hlt := Set.ncard_lt_ncard (Set.ssubset_univ_iff.mpr hne) (Set.toFinite _)
    rw [Set.ncard_univ, Nat.card_eq_fintype_card, Fintype.card_fin] at hlt
    have htwo := hcore.two_le_degree ⟨0, hn⟩
    omega
  have hmin2 : 2 ≤ a.minDegree := by
    apply le_minDegree hk2
    intro v
    rw [hdegree]
    exact_mod_cast hcore.two_le_degree v
  obtain ⟨d, hd⟩ := Int.eq_ofNat_of_zero_le (le_trans (by norm_num) hmin2)
  have hd2 : 2 ≤ d := by
    rw [hd] at hmin2
    exact_mod_cast hmin2
  have hdtw : d ≤ (a.inheritMap g).toSimple.treewidth := by
    rw [hsimple']
    apply le_treewidth_of_degree (A := Set.univ) ⟨⟨0, hn⟩, trivial⟩
    intro v _
    rw [Set.inter_univ, ← hdegree]
    have hle := minDegree_le (g := a) v
    rw [hd] at hle
    exact_mod_cast hle
  have hsmaller : ∀ h, IsSmaller h ⟨k, a.inheritMap g⟩ → Preprocessed N h := by
    intro h hh
    apply ih h
    have hmeasure : recursionMeasure ⟨k, a.inheritMap g⟩ = recursionMeasure ⟨k, g⟩ := by
      rw [recursionMeasure, recursionMeasure, supportSize, supportSize, nonEdges, nonEdges,
        hsimple']
    rwa [IsSmaller, hmeasure] at hh
  have hub : ∃ F, edgeNumbers out.fillEdges = edgeNumbers F ∧
      (a.inheritMap g).toSimple.IsCompletion F ∧
      (((a.inheritMap g).toSimple.addFill F).treewidth : ℤ) = filled.toSimple.treewidth :=
    ⟨out.fillEdges, rfl, hsimple' ▸ hout.isCompletion, by rw [hsimple', hfilled.toSimple]⟩
  obtain ⟨o, ⟨depth, hcall⟩, hred, hinst⟩ := reduces_preprocess2 hφa (hsimple' ▸ hcore) hd2 hdtw
    hub hsmaller
  refine ⟨o, ⟨depth + 1, ?_⟩, ?_, hinst⟩
  · intro fuel hfuel s hs
    obtain ⟨fuel, rfl⟩ := Nat.exists_eq_add_of_le' (Nat.le_of_add_left_le hfuel)
    have hcall' := hcall fuel (Nat.le_of_succ_le_succ hfuel) s hs
    rw [preprocess1]
    dsimp only
    rw [hrun, Option.bind_eq_bind, Option.bind_some, hadd, Option.bind_eq_bind,
      Option.bind_some, if_neg hlen, hatoms, Option.bind_eq_bind, Option.bind_some]
    dsimp only
    rw [if_pos hmin2, treewidth_spec hfilled.valid hchordal, hd]
    exact hcall'
  · have hpic : picture (a.inheritMap g) φ = picture g φ := by
      rw [picture, picture, hsimple']
    rwa [hpic] at hred

omit hout hfilled in
/-- Several atoms are preprocessed one after the other. -/
theorem reduces_many (hone : as.length ≠ 1) :
    ∃ o, Reduces (fun fuel => preprocess1 fuel ⟨n, g⟩) (picture g φ) o := by
  have hproper := hspec.decomposition.exists_notMem (by
    rw [List.length_map, hspec.induced.length_eq]
    exact hone)
  have hpieces : List.Forall₂ (fun A (a : SomeGraph) => ∃ o, Reduces
      (fun fuel => preprocess1 fuel ⟨a.1, a.2.inheritMap g⟩) ((picture g φ).within A) o)
      (vss.map fun vs => φ '' vset vs) as := by
    rw [List.forall₂_map_left_iff]
    apply forall₂_imp_of_mem hspec.induced
    intro vs hvs a ha
    obtain ⟨v, -, hv⟩ := hproper (vset vs) (List.mem_map_of_mem hvs)
    obtain ⟨b, hb, ψ, hind⟩ := inducedGraph_spec hφ.valid vs
    rw [ha, Option.some.injEq] at hb
    subst hb
    obtain ⟨-, hinherit, -⟩ := hind.inheritMap hφ.valid
    have hpic : picture (a.2.inheritMap g) (ψ.trans φ) = (picture g φ).within (φ '' vset vs) := by
      rw [picture, hinherit, ← map_within, ← hind.map_eq, map_map]
      rfl
    rw [← hpic]
    exact ih _ (hind.isSmaller hv) (ψ.trans φ) (hφ.inheritMap hind)
  obtain ⟨o, T, hT⟩ := exists_atomsReduce (picture g φ) g hpieces
  obtain ⟨depth, hcall⟩ := hT.returns
  refine ⟨o, ⟨depth + 1, ?_⟩, ⟨?_, hT.bound_le, hT.part_le⟩, hT.instances⟩
  · intro fuel hfuel s hs
    obtain ⟨fuel, rfl⟩ := Nat.exists_eq_add_of_le' (Nat.le_of_add_left_le hfuel)
    have hcall' := hcall fuel (Nat.le_of_succ_le_succ hfuel) s hs
    rw [preprocess1]
    dsimp only
    rw [hrun, Option.bind_eq_bind, Option.bind_some, hadd, Option.bind_eq_bind,
      Option.bind_some, if_neg hlen, hatoms, Option.bind_eq_bind, Option.bind_some]
    cases as with
    | nil => exact hcall'
    | cons a as =>
        cases as with
        | nil => exact absurd rfl hone
        | cons b as => exact hcall'
  · have hmap := hspec.decomposition.map (f := φ)
    rw [List.map_map] at hmap
    have hcomp := hmap.completes T hT.sets hT.completes
    rwa [← hT.fill, ← hT.parts, within_range] at hcomp

end Step

/-- Every graph is preprocessed. -/
theorem preprocessed (N : ℕ) (g : SomeGraph) : Preprocessed N g := by
  intro φ hφ
  obtain ⟨out, hrun, hout⟩ := mcsM_exists hφ.valid
  by_cases hlen : out.fillEdges.length ≤ 1
  · exact ⟨_, reduces_leaf hφ hout hrun hlen⟩
  obtain ⟨filled, hadd, hfilled⟩ := addEdges_spec hφ.valid out.fillEdges fun p hp =>
    (hout.isFill.nonEdge p hp).1
  have hn : 0 < g.1 := by
    obtain ⟨e, -⟩ := List.exists_mem_of_ne_nil out.fillEdges fun hnil => hlen (by simp [hnil])
    exact e.1.pos
  obtain ⟨vss, as, hatoms, hspec⟩ := atoms_spec hφ.valid hn hout
  have ih : ∀ h, IsSmaller h g → Preprocessed N h := fun h _ => preprocessed N h
  by_cases hone : as.length = 1
  · obtain ⟨atom, hatom⟩ := List.length_eq_one_iff.mp hone
    exact reduces_single hφ hrun hout hlen hadd hfilled hatoms hspec ih hatom
  · exact reduces_many hφ hrun hlen hadd hatoms hspec ih hone
termination_by recursionMeasure g
decreasing_by assumption

/-! ## Termination -/

/-- The labels of a graph embed it in any graph on enough numbers. -/
theorem exists_embeds (hg : g.Valid) : ∃ (N : ℕ) (φ : Fin n ↪ Fin N), Embeds g φ := by
  obtain ⟨N, hN⟩ := (Set.finite_range g.mapBack).bddAbove
  have hlt : ∀ v, g.mapBack v < N + 1 := by
    intro v
    exact Nat.lt_succ_of_le (hN ⟨v, rfl⟩)
  refine ⟨N + 1, ⟨fun v => ⟨g.mapBack v, hlt v⟩, ?_⟩, hg, fun _ => rfl⟩
  intro u v huv
  exact hg.mapBack_strictMono.injective (congrArg Fin.val huv)

/-- Both recursions of the preprocessor end: `Preprocess1` returns with some bound on the
depth of its recursive calls and with every larger one, and the loop of `GreedyDegree2`
over any queue of vertices of degree at most two returns after as many rounds as the queue
has entries and twice the number of edges. -/
theorem preprocess1_terminates (hg : g.Valid) :
    (∃ depth, ∀ s : PreprocessorState, 0 ≤ s.lowerBound →
      ∃ s', ∀ fuel, depth ≤ fuel → preprocess1 fuel ⟨n, g⟩ s = some s') ∧
    (∀ d2, (∀ x ∈ d2, (g.adjList x).length ≤ 2) →
      ∃ r, degree2Loop (d2.length + 2 * g.m) d2 g [] = some r) := by
  constructor
  · obtain ⟨N, φ, hφ⟩ := exists_embeds hg
    obtain ⟨o, ⟨depth, hcall⟩, -, -⟩ := preprocessed N ⟨n, g⟩ φ hφ
    refine ⟨depth, fun s hs => ⟨o.apply s, fun fuel hfuel => hcall fuel hfuel s hs⟩⟩
  · intro d2 hd2
    obtain ⟨graph', fill, hloop, -⟩ := degree2Loop_spec (φ := Function.Embedding.refl (Fin n))
      (d2.length + 2 * g.m) (degree2Steps_refl hg) hd2 le_rfl
    exact ⟨_, hloop⟩

/-- The recursion on a cycle, and the loop for a queue that repeats vertices. -/
theorem preprocess1_terminates_square :
    ∃ g, (Graph.empty 4).addEdges [(0, 1), (1, 2), (2, 3), (3, 0)] = some g ∧
      (∃ depth s', ∀ fuel, depth ≤ fuel →
        preprocess1 fuel ⟨4, g⟩ { instances := [], fillEdges := [], lowerBound := 0 } =
          some s') ∧
      ∃ r, degree2Loop (3 + 2 * g.m) [0, 2, 0] g [] = some r := by
  obtain ⟨g, hadd, h⟩ := addEdges_spec (Graph.valid_empty 4)
    [(0, 1), (1, 2), (2, 3), (3, 0)] (by decide)
  obtain ⟨⟨depth, hrun⟩, hloop⟩ := preprocess1_terminates h.valid
  obtain ⟨s', hs'⟩ := hrun { instances := [], fillEdges := [], lowerBound := 0 } le_rfl
  refine ⟨g, hadd, ⟨depth, s', hs'⟩, hloop [0, 2, 0] ?_⟩
  have hlen : ((Graph.empty 4).addEdges [(0, 1), (1, 2), (2, 3), (3, 0)]).map
      (fun g => ((g.adjList 0).length, (g.adjList 2).length)) = some (2, 2) := by
    rfl
  rw [hadd, Option.map_some, Option.some.injEq, Prod.mk.injEq] at hlen
  simp [hlen.1, hlen.2]

end Triangulator
