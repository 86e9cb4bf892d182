import Triangulator.Verification.PreprocessRun

/-!
# The treewidth preprocessor preserves the width

The recorded lower bound and the treewidths of the instances give the treewidth of
the graph, and solutions of the instances are mapped back to a triangulation of the
graph whose width is the one that is returned.
-/

namespace Triangulator

open SimpleGraph Mcs

variable {n : ℕ} {g : Graph n}

/-! ## Instances whose bounds meet -/

/-- The instance of an instance graph, in the surrounding numbering. -/
theorem IsInstance.treewidth_eq {inst : TreewidthInstance} {Q : SimpleGraph (Fin n)}
    (h : IsInstance inst Q) : Q.treewidth = inst.graph.2.toSimple.treewidth := by
  obtain ⟨φ, -, rfl⟩ := h.embedding
  exact treewidth_map φ

theorem IsInstance.treewidth_le_upperBound {inst : TreewidthInstance}
    {Q : SimpleGraph (Fin n)} (h : IsInstance inst Q) :
    (inst.graph.2.toSimple.treewidth : ℤ) ≤ inst.upperBound := by
  obtain ⟨F, -, -, hub⟩ := h.upperBound
  rw [← hub]
  exact_mod_cast treewidth_mono le_addFill

/-- The recorded triangulation of an instance, in the surrounding numbering. -/
theorem IsInstance.exists_completion {inst : TreewidthInstance} {Q : SimpleGraph (Fin n)}
    (h : IsInstance inst Q) {b : ℕ} (hb : inst.upperBound ≤ b) :
    ∃ f, mapBackEdges inst.graph inst.upperBoundFill = edgeNumbers f ∧ Q.IsCompletion f ∧
      (Q.addFill f).cliqueNum ≤ b + 1 := by
  obtain ⟨φ, hφ, rfl⟩ := h.embedding
  obtain ⟨F, hfill, hcomp, hub⟩ := h.upperBound
  refine ⟨embedEdges φ F, ?_, hcomp.map, ?_⟩
  · rw [hfill]
    exact hφ.mapBackEdges_eq F
  · rw [embedEdges, picture, ← map_addFill]
    apply cliqueNum_map_le
    rw [← hub, hcomp.chordal.treewidth_eq] at hb
    exact Nat.sub_le_iff_le_add.mp (by exact_mod_cast hb)

/-- The loop that drops solved instances. -/
theorem dropSolved_spec {P : SimpleGraph (Fin n)} {b : ℕ} {insts : List TreewidthInstance}
    {I : List (SimpleGraph (Fin n))} (hI : List.Forall₂ IsInstance insts I)
    {kept : List TreewidthInstance} {K : List (SimpleGraph (Fin n))}
    (hK : List.Forall₂ IsInstance kept K) (F : List (Fin n × Fin n))
    (h : P.Completes b F (K ++ I)) :
    ∃ K' F', insts.foldl (dropSolved b) (kept, edgeNumbers F) =
        (kept ++ insts.filter (fun inst => decide ((b : ℤ) < inst.upperBound)),
          edgeNumbers F') ∧
      List.Forall₂ IsInstance
        (kept ++ insts.filter fun inst => decide ((b : ℤ) < inst.upperBound)) K' ∧
      P.Completes b F' K' ∧ ∀ Q ∈ K', Q ∈ K ++ I := by
  induction hI generalizing kept K F with
  | nil =>
      rw [List.append_nil] at h
      refine ⟨K, F, ?_, ?_, h, by simp⟩
      · rw [List.filter_nil, List.append_nil]
        rfl
      · rwa [List.filter_nil, List.append_nil]
  | @cons inst Q insts I hinst _ ih =>
      rw [List.foldl_cons, dropSolved]
      by_cases hub : inst.upperBound ≤ b
      · obtain ⟨f, hf, hcomp, hk⟩ := hinst.exists_completion hub
        have hdrop := h.drop hcomp hk
        obtain ⟨K', F', hrun, hinst', hcompl, hsub⟩ := ih hK (F ++ f) hdrop
        refine ⟨K', F', ?_, ?_, hcompl, ?_⟩
        · rw [if_pos hub, hf, List.filter_cons_of_neg (by simpa using hub)]
          rw [edgeNumbers, edgeNumbers, ← List.map_append]
          exact hrun
        · rwa [List.filter_cons_of_neg (by simpa using hub)]
        · intro R hR
          have hmem := hsub R hR
          rw [List.mem_append] at hmem ⊢
          exact hmem.imp id (List.mem_cons_of_mem Q)
      · have hkeep : List.Forall₂ IsInstance (kept ++ [inst]) (K ++ [Q]) :=
          List.rel_append hK (List.Forall₂.cons hinst List.Forall₂.nil)
        rw [← List.singleton_append, ← List.append_assoc] at h
        obtain ⟨K', F', hrun, hinst', hcompl, hsub⟩ := ih hkeep F h
        have hlt : (b : ℤ) < inst.upperBound := not_le.mp hub
        have hfilter : (inst :: insts).filter (fun inst => decide ((b : ℤ) < inst.upperBound)) =
            inst :: insts.filter fun inst => decide ((b : ℤ) < inst.upperBound) := by
          rw [List.filter_cons, if_pos (decide_eq_true hlt)]
        refine ⟨K', F', ?_, ?_, hcompl, ?_⟩
        · rw [if_neg hub, hfilter, hrun, List.append_assoc, List.singleton_append]
        · rw [hfilter]
          rwa [List.append_assoc, List.singleton_append] at hinst'
        · intro R hR
          have hmem := hsub R hR
          rw [List.append_assoc, List.singleton_append] at hmem
          exact hmem

/-! ## The result of `Preprocess` -/

/-- The vertex map is the identity. -/
def Graph.HasIdentityMap (g : Graph n) : Prop :=
  g.vertexMap.values = List.range n

theorem Graph.HasIdentityMap.embeds (hid : g.HasIdentityMap) (hg : g.Valid) :
    Embeds g (Function.Embedding.refl (Fin n)) where
  valid := hg
  label := by
    intro v
    have hlen : (v : ℕ) < (List.range n).length := by
      rw [List.length_range]
      exact v.isLt
    have hvalues : g.vertexMap.values = List.range n := hid
    rw [Graph.mapBack, hvalues, List.getD_eq_getElem _ 0 hlen, List.getElem_range]
    rfl

theorem picture_refl : picture g (Function.Embedding.refl (Fin n)) = g.toSimple := by
  ext u v
  rw [picture, map_adj]
  constructor
  · rintro ⟨a, b, hab, rfl, rfl⟩
    exact hab
  · intro huv
    exact ⟨u, v, huv, rfl, rfl⟩

/-- The members after `Preprocess(true)`. -/
structure IsPreprocessed (g : Graph n) (s : PreprocessorState) (b : ℕ)
    (F : List (Fin n × Fin n)) (I : List (SimpleGraph (Fin n))) : Prop where
  lowerBound : s.lowerBound = b
  fillEdges : s.fillEdges = edgeNumbers F
  instances : List.Forall₂ IsInstance s.instances I
  reduction : g.toSimple.IsReduction b F I

theorem preprocess_exists (hg : g.Valid) (hid : g.HasIdentityMap) :
    ∃ depth s₁ s b F I, (∀ fuel, depth ≤ fuel →
        preprocess1 fuel ⟨n, g⟩ { instances := [], fillEdges := [], lowerBound := 0 } = some s₁ ∧
        preprocess fuel g true = some s) ∧
      s.lowerBound = s₁.lowerBound ∧
      s.instances = s₁.instances.filter (fun inst => decide (s.lowerBound < inst.upperBound)) ∧
      (∀ inst ∈ s₁.instances, (inst.graph.2.toSimple.treewidth : ℤ) ≤ inst.upperBound) ∧
      IsPreprocessed g s b F I := by
  obtain ⟨o, ⟨depth, hcall⟩, hred, hinst⟩ := preprocessed n ⟨n, g⟩
    (Function.Embedding.refl (Fin n)) (hid.embeds hg)
  dsimp only at hred
  rw [picture_refl] at hred
  set s₁ := o.apply { instances := [], fillEdges := [], lowerBound := 0 } with hs₁
  have hlb : s₁.lowerBound = (o.bound : ℤ) := by
    rw [hs₁, Outcome.apply]
    exact max_eq_right (Int.natCast_nonneg _)
  have hfill : s₁.fillEdges = edgeNumbers o.fill := by
    rw [hs₁, Outcome.apply]
    exact List.nil_append _
  have hinsts : s₁.instances = o.instances := by
    rw [hs₁, Outcome.apply]
    exact List.nil_append _
  obtain ⟨K, F, hdrop, hkept, hcompl, hsub⟩ := dropSolved_spec hinst List.Forall₂.nil o.fill
    (P := g.toSimple) (K := []) hred.toCompletes
  rw [List.nil_append] at hdrop hkept
  refine ⟨depth, s₁, { s₁ with
    instances := o.instances.filter fun inst => decide ((o.bound : ℤ) < inst.upperBound)
    fillEdges := edgeNumbers F }, o.bound, F, K, ?_, rfl, ?_, ?_, hlb, rfl, hkept, hcompl,
    hred.bound_le, fun Q hQ => hred.part_le Q (hsub Q hQ)⟩
  · intro fuel hfuel
    have hrun := hcall fuel hfuel { instances := [], fillEdges := [], lowerBound := 0 } le_rfl
    refine ⟨hrun, ?_⟩
    rw [preprocess, if_pos rfl]
    rw [hrun, ← hs₁, Option.bind_eq_bind, Option.bind_some]
    dsimp only
    rw [hinsts, hfill, hlb, hdrop]
  · rw [hinsts, hlb]
  · intro inst hmem
    rw [hinsts] at hmem
    obtain ⟨Q, -, hQ⟩ := exists_of_forall₂ hinst hmem
    exact hQ.treewidth_le_upperBound

/-! ## The treewidth of the graph -/

/-- Two integers, the second one not negative, with the same natural upper bounds. -/
theorem eq_of_le_iff {a : ℕ} {b : ℤ} (hb : 0 ≤ b) (h : ∀ k : ℕ, a ≤ k ↔ b ≤ k) :
    (a : ℤ) = b := by
  obtain ⟨c, rfl⟩ := Int.eq_ofNat_of_zero_le hb
  have hac : a ≤ c := (h c).mpr le_rfl
  have hca : (c : ℤ) ≤ a := (h a).mp le_rfl
  exact le_antisymm (by exact_mod_cast hac) hca

theorem forall_of_forall₂ {α β : Type*} {r : α → β → Prop} {l : List α} {l' : List β}
    (h : List.Forall₂ r l l') {p : α → Prop} {q : β → Prop} (hpq : ∀ a b, r a b → (p a ↔ q b)) :
    (∀ a ∈ l, p a) ↔ ∀ b ∈ l', q b := by
  induction h with
  | nil => simp
  | cons hab _ ih => rw [List.forall_mem_cons, List.forall_mem_cons, hpq _ _ hab, ih]

theorem IsPreprocessed.treewidth_eq {s : PreprocessorState} {b : ℕ} {F : List (Fin n × Fin n)}
    {I : List (SimpleGraph (Fin n))} (h : IsPreprocessed g s b F I) :
    (g.toSimple.treewidth : ℤ) =
      s.instances.foldl (fun m inst => max m (inst.graph.2.toSimple.treewidth : ℤ))
        s.lowerBound := by
  have hle : ∀ k : ℤ, s.instances.foldl
      (fun m inst => max m (inst.graph.2.toSimple.treewidth : ℤ)) s.lowerBound ≤ k ↔
      s.lowerBound ≤ k ∧ ∀ inst ∈ s.instances, (inst.graph.2.toSimple.treewidth : ℤ) ≤ k :=
    foldl_max_le_iff _ _ _
  apply eq_of_le_iff
  · have hfold := ((hle _).mp le_rfl).1
    rw [h.lowerBound] at hfold ⊢
    exact (Int.natCast_nonneg b).trans hfold
  · intro k
    rw [hle, h.lowerBound, h.reduction.treewidth_le_iff, Nat.cast_le]
    rw [forall_of_forall₂ h.instances (q := fun Q => Q.treewidth ≤ k)]
    intro inst Q hQ
    rw [Nat.cast_le, hQ.treewidth_eq]

/-- After `Preprocess(true)` the treewidth is the maximum of the recorded lower bound
and the treewidths of the instances. -/
theorem preprocess_treewidth (hg : g.Valid) (hid : g.HasIdentityMap) :
    ∃ depth s₁ s,
      (∀ fuel, depth ≤ fuel →
        preprocess1 fuel ⟨n, g⟩ { instances := [], fillEdges := [], lowerBound := 0 } = some s₁ ∧
        preprocess fuel g true = some s) ∧
      (g.toSimple.treewidth : ℤ) =
        s.instances.foldl (fun m inst => max m (inst.graph.2.toSimple.treewidth : ℤ))
          s.lowerBound ∧
      s.lowerBound ≤ g.toSimple.treewidth ∧
      s.instances =
        s₁.instances.filter (fun inst => decide (s.lowerBound < inst.upperBound)) ∧
      ∀ inst ∈ s₁.instances, inst.upperBound ≤ s.lowerBound →
        (inst.graph.2.toSimple.treewidth : ℤ) ≤ s.lowerBound := by
  obtain ⟨depth, s₁, s, b, F, I, hrun, -, hfilter, hub, h⟩ := preprocess_exists hg hid
  refine ⟨depth, s₁, s, hrun, h.treewidth_eq, ?_, hfilter, ?_⟩
  · rw [h.lowerBound]
    exact_mod_cast h.reduction.bound_le
  · intro inst hinst hle
    exact (hub inst hinst).trans hle

/-- The cube, which the preprocessing leaves as it is: neighbors differ in one digit. -/
def cube : Option (Graph 8) :=
  (Graph.empty 8).addEdges (((List.finRange 8).product (List.finRange 8)).filter fun e =>
    decide (e.1 < e.2) && [1, 2, 4].elem (e.1.val ^^^ e.2.val))

example : (cube.bind fun g => (preprocess 3 g true).map fun s =>
    s.instances.map fun inst => inst.graph.1) = some [8] := by decide +kernel

theorem exists_cube : ∃ g, cube = some g ∧ g.Valid ∧ g.HasIdentityMap := by
  obtain ⟨g, hadd, h⟩ := addEdges_spec (Graph.valid_empty 8) _ fun e he =>
    (of_decide_eq_true (Bool.and_eq_true_iff.mp (List.mem_filter.mp he).2).1 : e.1 < e.2).ne
  exact ⟨g, hadd, h.valid, congrArg StaticSet.values h.vertexMap⟩

theorem preprocess_treewidth_cube :
    ∃ g, cube = some g ∧ ∃ fuel s, preprocess fuel g true = some s ∧
      (g.toSimple.treewidth : ℤ) =
        s.instances.foldl (fun m inst => max m (inst.graph.2.toSimple.treewidth : ℤ))
          s.lowerBound := by
  obtain ⟨g, hadd, hg, hid⟩ := exists_cube
  obtain ⟨depth, s₁, s, hrun, heq, -⟩ := preprocess_treewidth hg hid
  exact ⟨g, hadd, depth, s, (hrun depth le_rfl).2, heq⟩

/-! ## Adding the mapped back edges -/

theorem edgeNumbers_cons (e : Fin n × Fin n) (F : List (Fin n × Fin n)) :
    edgeNumbers (e :: F) = ((e.1 : ℕ), (e.2 : ℕ)) :: edgeNumbers F :=
  List.map_cons

theorem edgeNumbers_append (F F' : List (Fin n × Fin n)) :
    edgeNumbers (F ++ F') = edgeNumbers F ++ edgeNumbers F' :=
  List.map_append

theorem addFillEdges_spec (hg : g.Valid) {F : List (Fin n × Fin n)}
    (hF : g.toSimple.IsFill F) :
    ∃ h, addFillEdges g (edgeNumbers F) = some h ∧ EdgesAdded g F h := by
  induction F generalizing g with
  | nil => exact ⟨g, rfl, hg, addFill_nil.symm, rfl⟩
  | cons e F ih =>
      have hne := hF.nonEdge e List.mem_cons_self
      have hmat : ¬g.hasEdge e.1 e.2 = true := fun h => hne.2 (hg.adj_iff.mpr h)
      obtain ⟨g₁, hadd, h₁⟩ := addEdge_spec hg hne.1
      have hF₁ : g₁.toSimple.IsFill F := by
        have hnodup := hF.nodup
        rw [List.map_cons, List.nodup_cons] at hnodup
        constructor
        · intro p hp
          have hp' := hF.nonEdge p (List.mem_cons_of_mem e hp)
          refine ⟨hp'.1, ?_⟩
          rw [h₁.toSimple, addFill_adj]
          rintro (hadj | ⟨-, hmem⟩)
          · exact hp'.2 hadj
          · have heq : s(p.1, p.2) = s(e.1, e.2) := by simpa using hmem
            exact hnodup.1 (heq ▸ List.mem_map_of_mem hp)
        · exact hnodup.2
      obtain ⟨g₂, hadds, h₂⟩ := ih h₁.valid hF₁
      refine ⟨g₂, ?_, h₂.valid, ?_, h₂.vertexMap.trans h₁.vertexMap⟩
      · have hlt : (e.1 : ℕ) < n ∧ (e.2 : ℕ) < n := ⟨e.1.isLt, e.2.isLt⟩
        rw [edgeNumbers_cons, addFillEdges, dif_pos hlt, if_neg hmat]
        change (g.addEdge e.1 e.2).bind _ = some g₂
        rw [hadd, Option.bind_some]
        exact hadds
      · rw [h₂.toSimple, h₁.toSimple, ← addFill_append, List.singleton_append]

/-- The end of an edge with the smaller number comes first. -/
def orient (e : Fin n × Fin n) : Fin n × Fin n :=
  if e.2 < e.1 then (e.2, e.1) else e

theorem orient_eq (e : Fin n × Fin n) :
    s((orient e).1, (orient e).2) = s(e.1, e.2) := by
  rw [orient]
  split
  · exact Sym2.eq_swap
  · rfl

theorem map_orient (F : List (Fin n × Fin n)) :
    (F.map orient).map (fun p => s(p.1, p.2)) = F.map fun p => s(p.1, p.2) := by
  rw [List.map_map]
  exact List.map_congr_left fun e _ => orient_eq e

theorem addFill_orient {P : SimpleGraph (Fin n)} {F : List (Fin n × Fin n)} :
    P.addFill (F.map orient) = P.addFill F := by
  rw [addFill, addFill, map_orient]

theorem isFill_orient {P : SimpleGraph (Fin n)} {F : List (Fin n × Fin n)} (h : P.IsFill F) :
    P.IsFill (F.map orient) where
  nonEdge := by
    intro p hp
    obtain ⟨e, he, rfl⟩ := List.mem_map.mp hp
    have hne := h.nonEdge e he
    rw [orient]
    split
    · exact ⟨hne.1.symm, fun hadj => hne.2 hadj.symm⟩
    · exact hne
  nodup := by
    rw [map_orient]
    exact h.nodup

theorem map_swap_edgeNumbers (F : List (Fin n × Fin n)) :
    ((edgeNumbers F).map fun e => if e.2 < e.1 then (e.2, e.1) else e) =
      edgeNumbers (F.map orient) := by
  rw [edgeNumbers, edgeNumbers, List.map_map, List.map_map]
  apply List.map_congr_left
  intro e _
  change (if (e.2 : ℕ) < (e.1 : ℕ) then ((e.2 : ℕ), (e.1 : ℕ)) else ((e.1 : ℕ), (e.2 : ℕ))) =
    (((orient e).1 : ℕ), ((orient e).2 : ℕ))
  rw [orient]
  by_cases hlt : (e.2 : ℕ) < (e.1 : ℕ)
  · rw [if_pos hlt, if_pos (Fin.lt_def.mpr hlt)]
  · rw [if_neg hlt, if_neg fun h => hlt (Fin.lt_def.mp h)]

/-- The swapped and sorted edges are again the numbers of edges. -/
theorem exists_sorted (F : List (Fin n × Fin n)) :
    ∃ F', F'.Perm (F.map orient) ∧
      ((edgeNumbers F).map fun e => if e.2 < e.1 then (e.2, e.1) else e).insertionSort
        (fun a b => edgeLE a b = true) = edgeNumbers F' := by
  refine ⟨(F.map orient).insertionSort
    (fun a b => edgeLE ((a.1 : ℕ), (a.2 : ℕ)) ((b.1 : ℕ), (b.2 : ℕ)) = true),
    List.perm_insertionSort _ _, ?_⟩
  rw [map_swap_edgeNumbers, edgeNumbers, edgeNumbers]
  symm
  apply List.map_insertionSort
  intro a _ b _
  exact Iff.rfl

theorem isChain_edgeNumbers {P : SimpleGraph (Fin n)} {F : List (Fin n × Fin n)}
    (h : P.IsFill F) : (edgeNumbers F).IsChain (· ≠ ·) := by
  apply List.Pairwise.isChain
  have hnodup : F.Nodup := List.Nodup.of_map _ h.nodup
  apply hnodup.map
  intro a b hab
  have hpair := Prod.mk.inj hab
  exact Prod.ext (Fin.ext hpair.1) (Fin.ext hpair.2)

/-! ## Mapping solutions back -/

/-- A solution of an instance: distinct non-edges that make its graph chordal, with the
treewidth of the chordal graph. -/
def IsSolution (inst : TreewidthInstance) (sol : TreewidthSolution) : Prop :=
  ∃ F, sol.fillEdges = edgeNumbers F ∧ inst.graph.2.toSimple.IsFill F ∧
    (inst.graph.2.toSimple.addFill F).IsChordal ∧
    sol.treewidth = (inst.graph.2.toSimple.addFill F).treewidth

/-- A solved instance, in the surrounding numbering. -/
theorem IsInstance.exists_solved {inst : TreewidthInstance} {Q : SimpleGraph (Fin n)}
    (h : IsInstance inst Q) {sol : TreewidthSolution} (hsol : IsSolution inst sol) :
    ∃ f, mapBackEdges inst.graph sol.fillEdges = edgeNumbers f ∧ Q.IsCompletion f ∧
      ∀ k : ℕ, (Q.addFill f).cliqueNum ≤ k + 1 ↔ sol.treewidth ≤ k := by
  obtain ⟨φ, hφ, rfl⟩ := h.embedding
  obtain ⟨F, hfill, hF, hchordal, htw⟩ := hsol
  have hcomp : inst.graph.2.toSimple.IsCompletion F :=
    { isFill := hF
      support := fun e _ => ⟨h.core.mem_support e.1, h.core.mem_support e.2⟩
      chordal := hchordal }
  refine ⟨embedEdges φ F, ?_, hcomp.map, ?_⟩
  · rw [hfill]
    exact hφ.mapBackEdges_eq F
  · intro k
    have hmap : (picture inst.graph.2 φ).addFill (embedEdges φ F) =
        (inst.graph.2.toSimple.addFill F).map φ := map_addFill.symm
    rw [hmap, htw, Nat.cast_le, ← treewidth_map φ, hchordal.map.treewidth_eq,
      Nat.sub_le_iff_le_add]

/-- The solutions complete the parts `I` as `S` says. -/
structure Selects (insts : List TreewidthInstance) (sols : List TreewidthSolution)
    (I : List (SimpleGraph (Fin n)))
    (S : List (SimpleGraph (Fin n) × List (Fin n × Fin n))) : Prop where
  selection : IsSelection I S
  length_eq : sols.length = insts.length
  combined : ∀ F, (insts.zip sols).foldl
    (fun fill p => fill ++ mapBackEdges p.1.graph p.2.fillEdges) (edgeNumbers F) =
      edgeNumbers (F ++ S.flatMap Prod.snd)
  width : ∀ k : ℕ, (∀ s ∈ S, (s.1.addFill s.2).cliqueNum ≤ k + 1) ↔
    ∀ sol ∈ sols, sol.treewidth ≤ k

theorem selects_nil : Selects [] [] ([] : List (SimpleGraph (Fin n))) [] where
  selection := ⟨rfl, by simp⟩
  length_eq := rfl
  combined := by
    intro F
    rw [List.flatMap_nil, List.append_nil]
    rfl
  width := by simp

theorem Selects.cons {insts : List TreewidthInstance} {sols : List TreewidthSolution}
    {I : List (SimpleGraph (Fin n))} {S : List (SimpleGraph (Fin n) × List (Fin n × Fin n))}
    (h : Selects insts sols I S) {inst : TreewidthInstance} {sol : TreewidthSolution}
    {Q : SimpleGraph (Fin n)} {f : List (Fin n × Fin n)}
    (hf : mapBackEdges inst.graph sol.fillEdges = edgeNumbers f) (hcomp : Q.IsCompletion f)
    (hk : ∀ k : ℕ, (Q.addFill f).cliqueNum ≤ k + 1 ↔ sol.treewidth ≤ k) :
    Selects (inst :: insts) (sol :: sols) (Q :: I) ((Q, f) :: S) where
  selection := (IsSelection.singleton hcomp).append h.selection
  length_eq := congrArg (· + 1) h.length_eq
  combined := by
    intro F
    rw [List.zip_cons_cons, List.foldl_cons, hf, ← edgeNumbers_append, h.combined,
      List.flatMap_cons, List.append_assoc]
  width := by
    intro k
    rw [List.forall_mem_cons, List.forall_mem_cons, hk, h.width]

theorem exists_selects {insts : List TreewidthInstance} {I : List (SimpleGraph (Fin n))}
    (hI : List.Forall₂ IsInstance insts I) {sols : List TreewidthSolution}
    (hsols : List.Forall₂ IsSolution insts sols) :
    ∃ S, Selects insts sols I S := by
  induction hI generalizing sols with
  | nil =>
      cases hsols
      exact ⟨[], selects_nil⟩
  | @cons inst Q insts I hinst _ ih =>
      cases hsols with
      | @cons _ sol _ sols hsol hsols =>
          obtain ⟨f, hf, hcomp, hk⟩ := hinst.exists_solved hsol
          obtain ⟨S, hS⟩ := ih hsols
          exact ⟨(Q, f) :: S, hS.cons hf hcomp hk⟩

/-- Fill edges that triangulate the graph within the reported treewidth pass the checks of
`MapBack`. -/
theorem mapBack_of_fill {s : PreprocessorState} {sols : List TreewidthSolution}
    {F : List (Fin n × Fin n)} (hg : g.Valid) (hlen : sols.length = s.instances.length)
    (hcombined : (s.instances.zip sols).foldl
      (fun fill p => fill ++ mapBackEdges p.1.graph p.2.fillEdges) s.fillEdges = edgeNumbers F)
    (hF : g.toSimple.IsFill F) (hchordal : (g.toSimple.addFill F).IsChordal)
    (htw : sols.foldl (fun tw sol => max tw sol.treewidth) s.lowerBound =
      (g.toSimple.addFill F).treewidth) :
    ∃ sol F', mapBack g s sols = some sol ∧ sol.fillEdges = edgeNumbers F' ∧
      (edgeNumbers F').Perm
        (((s.instances.zip sols).foldl
          (fun fill p => fill ++ mapBackEdges p.1.graph p.2.fillEdges) s.fillEdges).map
            fun e => if e.2 < e.1 then (e.2, e.1) else e) ∧
      g.toSimple.IsFill F' ∧ (g.toSimple.addFill F').IsChordal ∧
      sol.treewidth = (g.toSimple.addFill F').treewidth := by
  obtain ⟨F', hperm, hsorted⟩ := exists_sorted F
  have hfill : g.toSimple.IsFill F' := (isFill_orient hF).perm hperm.symm
  have hadd : g.toSimple.addFill F' = g.toSimple.addFill F := by
    rw [addFill_perm hperm, addFill_orient]
  have hchordal' : (g.toSimple.addFill F').IsChordal := hadd ▸ hchordal
  obtain ⟨final, hfinal, hadded⟩ := addFillEdges_spec hg hfill
  have hfinaltw : Mcs.treewidth final = some ((g.toSimple.addFill F').treewidth : ℤ) := by
    rw [← hadded.toSimple]
    apply treewidth_spec hadded.valid
    rw [hadded.toSimple]
    exact hchordal'
  refine ⟨⟨edgeNumbers F', (g.toSimple.addFill F').treewidth⟩, F', ?_, rfl, ?_, hfill,
    hchordal', rfl⟩
  · rw [mapBack, if_pos hlen]
    dsimp only
    rw [hcombined, hsorted, if_pos (isChain_edgeNumbers hfill), hfinal, Option.bind_eq_bind,
      Option.bind_some, hfinaltw, Option.bind_eq_bind, Option.bind_some, htw, hadd, if_pos rfl]
  · rw [hcombined, map_swap_edgeNumbers]
    exact hperm.map _

/-- Completions of the parts of a reduction are mapped back to a triangulation of the
graph. -/
theorem mapBack_of_selects {s : PreprocessorState} {b : ℕ} {F : List (Fin n × Fin n)}
    {I : List (SimpleGraph (Fin n))} (hg : g.Valid) (hlb : s.lowerBound = b)
    (hF : s.fillEdges = edgeNumbers F) (hred : g.toSimple.IsReduction b F I)
    {sols : List TreewidthSolution} {S : List (SimpleGraph (Fin n) × List (Fin n × Fin n))}
    (h : Selects s.instances sols I S) :
    ∃ sol F', mapBack g s sols = some sol ∧ sol.fillEdges = edgeNumbers F' ∧
      (edgeNumbers F').Perm
        (((s.instances.zip sols).foldl
          (fun fill p => fill ++ mapBackEdges p.1.graph p.2.fillEdges) s.fillEdges).map
            fun e => if e.2 < e.1 then (e.2, e.1) else e) ∧
      g.toSimple.IsFill F' ∧ (g.toSimple.addFill F').IsChordal ∧
      sol.treewidth = (g.toSimple.addFill F').treewidth := by
  have hcomp := hred.completion S h.selection
  have hcombined : (s.instances.zip sols).foldl
      (fun fill p => fill ++ mapBackEdges p.1.graph p.2.fillEdges) s.fillEdges =
        edgeNumbers (F ++ S.flatMap Prod.snd) := by
    rw [hF]
    exact h.combined F
  apply mapBack_of_fill hg h.length_eq hcombined hcomp.isFill hcomp.chordal
  have hle : ∀ k : ℤ, sols.foldl (fun tw sol => max tw sol.treewidth) s.lowerBound ≤ k ↔
      s.lowerBound ≤ k ∧ ∀ sol ∈ sols, sol.treewidth ≤ k :=
    foldl_max_le_iff _ _ _
  symm
  apply eq_of_le_iff
  · have hfold := ((hle _).mp le_rfl).1
    rw [hlb] at hfold ⊢
    exact (Int.natCast_nonneg b).trans hfold
  · intro k
    rw [hle, hlb, Nat.cast_le, ← h.width, hcomp.chordal.treewidth_eq, Nat.sub_le_iff_le_add]
    exact hred.cliqueNum_le_iff h.selection

/-- After `Preprocess(true)`, solutions of the instances are mapped back to distinct
non-edges that make the graph chordal, and the treewidth that is returned is that of the
chordal graph. -/
theorem mapBack_triangulation (hg : g.Valid) (hid : g.HasIdentityMap) :
    ∃ depth s, (∀ fuel, depth ≤ fuel → preprocess fuel g true = some s) ∧
      ∀ sols, List.Forall₂ IsSolution s.instances sols →
        ∃ sol F, mapBack g s sols = some sol ∧ sol.fillEdges = edgeNumbers F ∧
          (edgeNumbers F).Perm
            (((s.instances.zip sols).foldl
              (fun fill p => fill ++ mapBackEdges p.1.graph p.2.fillEdges) s.fillEdges).map
                fun e => if e.2 < e.1 then (e.2, e.1) else e) ∧
          g.toSimple.IsFill F ∧ (g.toSimple.addFill F).IsChordal ∧
          sol.treewidth = (g.toSimple.addFill F).treewidth := by
  obtain ⟨depth, s₁, s, b, F, I, hrun, -, -, -, h⟩ := preprocess_exists hg hid
  refine ⟨depth, s, fun fuel hfuel => (hrun fuel hfuel).2, ?_⟩
  intro sols hsols
  obtain ⟨S, hS⟩ := exists_selects h.instances hsols
  exact mapBack_of_selects hg h.lowerBound h.fillEdges h.reduction hS

theorem mapBack_triangulation_cube :
    ∃ g, cube = some g ∧ ∃ fuel s, preprocess fuel g true = some s ∧
      ∀ sols, List.Forall₂ IsSolution s.instances sols →
        ∃ sol F, mapBack g s sols = some sol ∧ sol.fillEdges = edgeNumbers F ∧
          g.toSimple.IsFill F ∧ (g.toSimple.addFill F).IsChordal ∧
          sol.treewidth = (g.toSimple.addFill F).treewidth := by
  obtain ⟨g, hadd, hg, hid⟩ := exists_cube
  obtain ⟨depth, s, hrun, hsol⟩ := mapBack_triangulation hg hid
  refine ⟨g, hadd, depth, s, hrun depth le_rfl, ?_⟩
  intro sols hsols
  obtain ⟨sol, F, hmap, hF, -, hrest⟩ := hsol sols hsols
  exact ⟨sol, F, hmap, hF, hrest⟩

end Triangulator
