import Triangulator.Verification.BtTables

/-!
# The dynamic program over the blocks

Processing the triplets in order of block size, the table holds for every block
whose triplets have all been processed the value of the block: the least clique
number, less one, of a minimal triangulation of the block whose maximal cliques
are all listed.
-/

namespace Triangulator

open SimpleGraph

variable {n : ℕ} {g : Graph n}

namespace BtAlgorithm

/-- The listed cliques as vertex sets. -/
def cliqueSets (pmcs : List (List (Fin n))) : Set (Set (Fin n)) :=
  {Ω | ∃ pmc ∈ pmcs, vset pmc = Ω}

/-! ## Child blocks -/

/-- The components found by scanning `vs` from the bitmap. -/
def childComps (g : Graph n) : List (Fin n) → (Fin n → Bool) → List (List (Fin n))
  | [], _ => []
  | v :: vs, b =>
      if b v then childComps g vs b
      else
        (g.findComponentAndMark v b).2 ::
          childComps g vs (g.findComponentAndMark v b).1

/-- The keys under which a child block is looked up. -/
def keyOf (g : Graph n) (c : List (Fin n)) : Lookup n :=
  (sort (g.neighbors c), sort c)

theorem childComps_scan (hg : g.Valid) {Ω : Set (Fin n)} (vs : List (Fin n))
    (b : Fin n → Bool) (cs : List (List (Fin n))) (h : ComponentScan g Ω b cs) :
    (∀ c ∈ childComps g vs b, g.toSimple.IsComponent Ω (vset c) ∧ c.Nodup ∧
      ∃ v ∈ vs, v ∈ c) ∧
    (∀ v ∈ vs, v ∉ Ω → ∃ c ∈ cs ++ childComps g vs b, v ∈ c) ∧
    (cs ++ childComps g vs b).Pairwise fun c d => ∀ v ∈ c, v ∉ d := by
  induction vs generalizing b cs with
  | nil => exact ⟨by simp [childComps], by simp, by simpa [childComps] using h.disjoint⟩
  | cons v vs ih =>
      rw [childComps]
      by_cases hv : b v = true
      · rw [if_pos hv]
        obtain ⟨h1, h2, h3⟩ := ih b cs h
        refine ⟨fun c hc => ?_, fun w hw hwΩ => ?_, h3⟩
        · obtain ⟨hcomp, hnd, w, hw, hwc⟩ := h1 c hc
          exact ⟨hcomp, hnd, w, by simp [hw], hwc⟩
        · rcases List.mem_cons.mp hw with rfl | hw
          · obtain ⟨c, hc, hwc⟩ := h.cover w hwΩ hv
            exact ⟨c, List.mem_append_left _ hc, hwc⟩
          · exact h2 w hw hwΩ
      · rw [if_neg hv]
        rw [Bool.not_eq_true] at hv
        obtain ⟨hstep, hvmem⟩ := h.step hg hv
        obtain ⟨h1, h2, h3⟩ := ih _ _ hstep
        rw [List.append_assoc, List.singleton_append] at h3
        refine ⟨fun c hc => ?_, fun w hw hwΩ => ?_, h3⟩
        · rcases List.mem_cons.mp hc with rfl | hc
          · exact ⟨hstep.isComponent _ (by simp), hstep.nodup _ (by simp), v, by simp,
              hvmem⟩
          · obtain ⟨hcomp, hnd, w, hw, hwc⟩ := h1 c hc
            exact ⟨hcomp, hnd, w, by simp [hw], hwc⟩
        · rcases List.mem_cons.mp hw with rfl | hw
          · exact ⟨_, by simp, hvmem⟩
          · obtain ⟨c, hc, hwc⟩ := h2 w hw hwΩ
            refine ⟨c, ?_, hwc⟩
            rwa [List.append_assoc, List.singleton_append] at hc

/-- The child blocks of a clique placed at a block. -/
structure IsChildList (g : Graph n) (Ω C : Set (Fin n))
    (cs : List (List (Fin n))) : Prop where
  isComponent : ∀ c ∈ cs, g.toSimple.IsComponent Ω (vset c)
  nodup : ∀ c ∈ cs, c.Nodup
  subset : ∀ c ∈ cs, vset c ⊆ C
  complete : ∀ D, g.toSimple.IsComponent Ω D → D ⊆ C → ∃ c ∈ cs, vset c = D
  disjoint : cs.Pairwise fun c d => ∀ v ∈ c, v ∉ d

theorem childComps_spec (hg : g.Valid) {pmc component : List (Fin n)}
    {S : Set (Fin n)} (hb : g.toSimple.IsBlock S (vset component))
    (hS : S ⊆ vset pmc) :
    IsChildList g (vset pmc) (vset component)
      (childComps g component (mark (fun _ => false) pmc)) := by
  obtain ⟨h1, h2, h3⟩ := childComps_scan hg component
    (mark (fun _ => false) pmc) [] (componentScan_mark pmc)
  refine ⟨fun c hc => (h1 c hc).1, fun c hc => (h1 c hc).2.1, fun c hc => ?_, ?_, h3⟩
  · obtain ⟨hcomp, -, v, hv, hvc⟩ := h1 c hc
    exact hb.component_subset hS hcomp hvc hv
  · intro D hD hDC
    obtain ⟨v, hv⟩ := hD.nonempty
    obtain ⟨c, hc, hvc⟩ := h2 v (hDC hv) (hD.notMem v hv)
    exact ⟨c, hc, (h1 c hc).1.eq_of_mem hD hvc hv⟩

theorem childState_eq_some_iff {t : Tables n} (ht : t.Valid) (hg : g.Valid)
    {c : List (Fin n)} (hc : c.Nodup) {st : ℕ × ℕ} :
    childState t (keyOf g c) = some st ↔
      t.IsState st (g.toSimple.nbhd (vset c)) (vset c) := by
  have hsep : (sort (g.neighbors c)).Pairwise (· < ·) :=
    sort_sortedLT ((neighbors_sorted g c).imp ne_of_lt)
  constructor
  · intro h
    rw [childState] at h
    split at h
    · rename_i s k hs hk
      obtain rfl := Option.some_inj.mp h
      exact ⟨_, _, (ht.separators.idOf_iff _ _).mp hs,
        (ht.components.idOf_iff _ _).mp hk, by rw [keyOf, vset_sort, vset_neighbors hg],
        by rw [keyOf, vset_sort]⟩
    · cases h
  · rintro ⟨s, k, hs, hk, hsS, hkC⟩
    have h1 : s = (keyOf g c).1 := eq_of_vset_eq
      (ht.sep_sorted s (List.mem_of_getElem? hs)) hsep
      (by rw [hsS, keyOf, vset_sort, vset_neighbors hg])
    have h2 : k = (keyOf g c).2 := eq_of_vset_eq
      (ht.comp_sorted k (List.mem_of_getElem? hk)) (sort_sortedLT hc)
      (by rw [hkC, keyOf, vset_sort])
    subst h1 h2
    rw [childState, (ht.separators.idOf_iff _ _).mpr hs,
      (ht.components.idOf_iff _ _).mpr hk]

/-! ## The cost of a triplet -/

/-- The child is present in the table with a value at most `k`. -/
def ChildLe (g : Graph n) (t : Tables n) (dp : ℕ × ℕ → Option ℤ)
    (c : List (Fin n)) (k : ℤ) : Prop :=
  ∃ st v, childState t (keyOf g c) = some st ∧ dp st = some v ∧ v ≤ k

/-- A cost bounds the clique and all children. -/
theorem childrenCost_eq_some {t : Tables n} {dp : ℕ × ℕ → Option ℤ}
    (vs : List (Fin n)) (b : Fin n → Bool) (cost c : ℤ)
    (h : (childrenCost g t dp vs b cost).1 = some c) :
    cost ≤ c ∧ ∀ D ∈ childComps g vs b, ChildLe g t dp D c := by
  induction vs generalizing b cost with
  | nil =>
      obtain rfl := Option.some_inj.mp h
      exact ⟨le_rfl, by simp [childComps]⟩
  | cons v vs ih =>
      rw [childrenCost] at h
      rw [childComps]
      by_cases hv : b v = true
      · rw [if_pos hv] at h ⊢
        exact ih b cost h
      · rw [if_neg hv] at h ⊢
        dsimp only at h
        split at h
        · rename_i d hd
          obtain ⟨st, hst, hdp⟩ := Option.bind_eq_some_iff.mp hd
          obtain ⟨hle, hall⟩ := ih _ _ h
          refine ⟨(le_max_left cost d).trans hle, fun D hD => ?_⟩
          rcases List.mem_cons.mp hD with rfl | hD
          · exact ⟨st, d, hst, hdp, (le_max_right cost d).trans hle⟩
          · exact hall D hD
        · cases h

/-- Conversely, when all children are present the cost is at most any common
bound. -/
theorem childrenCost_le {t : Tables n} (dp : ℕ × ℕ → Option ℤ) {k : ℤ}
    (vs : List (Fin n)) (b : Fin n → Bool) (cost : ℤ) (hcost : cost ≤ k)
    (h : ∀ D ∈ childComps g vs b, ChildLe g t dp D k) :
    ∃ c ≤ k, (childrenCost g t dp vs b cost).1 = some c := by
  induction vs generalizing b cost with
  | nil => exact ⟨cost, hcost, rfl⟩
  | cons v vs ih =>
      rw [childrenCost]
      rw [childComps] at h
      by_cases hv : b v = true
      · rw [if_pos hv] at h ⊢
        exact ih b cost hcost h
      · rw [if_neg hv] at h ⊢
        obtain ⟨st, d, hst, hdp, hd⟩ := h _ List.mem_cons_self
        have hbind : (childState t (childKey g v b).2).bind dp = some d :=
          Option.bind_eq_some_iff.mpr ⟨st, hst, hdp⟩
        dsimp only
        rw [hbind]
        exact ih _ _ (max_le hcost hd) fun D hD => h D (List.mem_cons_of_mem _ hD)

/-- Only the entries of the children matter. -/
theorem childrenCost_congr {t : Tables n} {dp dp' : ℕ × ℕ → Option ℤ}
    (vs : List (Fin n)) (b : Fin n → Bool) (cost : ℤ)
    (h : ∀ D ∈ childComps g vs b, ∀ st, childState t (keyOf g D) = some st →
      dp st = dp' st) :
    childrenCost g t dp vs b cost = childrenCost g t dp' vs b cost := by
  induction vs generalizing b cost with
  | nil => rfl
  | cons v vs ih =>
      rw [childrenCost, childrenCost]
      rw [childComps] at h
      by_cases hv : b v = true
      · rw [if_pos hv] at h ⊢
        rw [if_pos hv]
        exact ih b cost h
      · rw [if_neg hv] at h ⊢
        rw [if_neg hv]
        have hbind : (childState t (childKey g v b).2).bind dp =
            (childState t (childKey g v b).2).bind dp' := by
          cases hst : childState t (childKey g v b).2 with
          | none => rfl
          | some st => exact h _ List.mem_cons_self st hst
        dsimp only
        rw [hbind]
        split
        · rename_i d _
          rw [show childrenCost g t dp vs (childKey g v b).1 (mergeCost cost d) =
            childrenCost g t dp' vs (childKey g v b).1 (mergeCost cost d) from
              ih _ _ fun D hD => h D (List.mem_cons_of_mem _ hD)]
        · rfl

/-- The value of the block that a pair of identifiers stands for. -/
noncomputable def stateValue (g : Graph n) (pmcs : List (List (Fin n)))
    (t : Tables n) (st : ℕ × ℕ) : Option ℤ :=
  g.toSimple.blockValue (cliqueSets pmcs) (vset (t.separators.get st.1))
    (vset (t.components.get st.2))

theorem Tables.IsState.get {t : Tables n} {st : ℕ × ℕ} {S C : Set (Fin n)}
    (h : t.IsState st S C) :
    vset (t.separators.get st.1) = S ∧ vset (t.components.get st.2) = C := by
  obtain ⟨s, c, hs, hc, rfl, rfl⟩ := h
  simp [IdSet.get, List.getD_eq_getElem?_getD, hs, hc]

theorem Tables.IsState.stateValue {t : Tables n} {pmcs : List (List (Fin n))}
    {st : ℕ × ℕ} {S C : Set (Fin n)} (h : t.IsState st S C) :
    stateValue g pmcs t st = g.toSimple.blockValue (cliqueSets pmcs) S C := by
  rw [BtAlgorithm.stateValue, h.get.1, h.get.2]

/-- The cost of a triplet computed from the values of the blocks. -/
noncomputable def costOf (g : Graph n) (pmcs : List (List (Fin n)))
    (t : Tables n) (triplet : ℕ × ℕ × ℕ) : Option ℤ :=
  (childrenCost g t (stateValue g pmcs t) (t.components.get triplet.2.2)
    (mark (fun _ => false) (pmcs.getD triplet.1 []))
    (cliqueCost (pmcs.getD triplet.1 []))).1

section Fixed

variable {pmcs : List (List (Fin n))} {t : Tables n} {triplet : ℕ × ℕ × ℕ}
  {pmc : List (Fin n)} {S C : Set (Fin n)} {c : ℤ}

/-- The meaning of a triplet in the finished tables. -/
structure Placement (g : Graph n) (pmcs : List (List (Fin n))) (t : Tables n)
    (triplet : ℕ × ℕ × ℕ) (pmc : List (Fin n)) (S C : Set (Fin n)) : Prop where
  get : pmcs.getD triplet.1 [] = pmc
  mem : pmc ∈ pmcs
  nodup : pmc.Nodup
  isPmc : g.toSimple.IsPmc (vset pmc)
  state : t.IsState triplet.2 S C
  placed : g.toSimple.IsPlaced (vset pmc) S C

theorem placement_of_means (hpmcs : IsPmcList g pmcs)
    (h : t.Means g pmcs triplet) :
    ∃ pmc S C, Placement g pmcs t triplet pmc S C := by
  obtain ⟨pmc, S, C, hget, hst, hpl⟩ := h
  have hmem := List.mem_of_getElem? hget
  exact ⟨pmc, S, C, by simp [List.getD_eq_getElem?_getD, hget], hmem,
    (hpmcs pmc hmem).1, isPmc_of_mem hpmcs hmem, hst, hpl⟩

namespace Placement

theorem isBlock (h : Placement g pmcs t triplet pmc S C) :
    g.toSimple.IsBlock S C :=
  (h.placed.isStateBlock h.isPmc).isBlock

theorem inBlock (h : Placement g pmcs t triplet pmc S C) :
    InBlock S C (vset pmc) :=
  h.placed.inBlock h.isPmc

theorem childList (h : Placement g pmcs t triplet pmc S C) (hg : g.Valid) :
    IsChildList g (vset pmc) C (childComps g (t.components.get triplet.2.2)
      (mark (fun _ => false) pmc)) := by
  have hC := h.state.get.2
  rw [← hC]
  refine childComps_spec hg (S := S) ?_ h.inBlock.sep_subset
  rw [hC]
  exact h.isBlock

/-- From a cost the children's solutions are glued into a solution of the
block. -/
theorem exists_solution (h : Placement g pmcs t triplet pmc S C) (hn : 0 < n)
    (ht : t.Valid) (hg : g.Valid) (hcost : costOf g pmcs t triplet = some c) :
    ∃ H, g.toSimple.BlockSolution (cliqueSets pmcs) S C H ∧
      (H.cliqueNum : ℤ) ≤ c + 1 := by
  have : Nonempty (Fin n) := ⟨⟨0, hn⟩⟩
  rw [costOf, h.get] at hcost
  obtain ⟨hclique, hall⟩ := childrenCost_eq_some _ _ _ _ hcost
  have hcs := h.childList hg
  have hex : ∀ D, ∃ K, g.toSimple.IsComponent (vset pmc) D → D ⊆ C →
      g.toSimple.BlockSolution (cliqueSets pmcs) (g.toSimple.nbhd D) D K ∧
        (K.cliqueNum : ℤ) ≤ c + 1 := by
    intro D
    by_cases hD : g.toSimple.IsComponent (vset pmc) D ∧ D ⊆ C
    · obtain ⟨l, hl, rfl⟩ := hcs.complete D hD.1 hD.2
      obtain ⟨st, v, hst, hv, hle⟩ := hall l hl
      rw [childState_eq_some_iff ht hg (hcs.nodup l hl)] at hst
      rw [hst.stateValue] at hv
      obtain ⟨K, hK, hKv⟩ := exists_solution_of_blockValue hv
      exact ⟨K, fun _ _ => ⟨hK, by omega⟩⟩
    · exact ⟨⊥, fun h1 h2 => absurd ⟨h1, h2⟩ hD⟩
  choose K hK using hex
  refine ⟨g.toSimple.glueBlock S C (vset pmc) K,
    BlockSolution.glueBlock h.isBlock h.inBlock ⟨pmc, h.mem, rfl⟩
      (h.isPmc.realization h.isBlock h.inBlock) fun D hD hDC => (hK D hD hDC).1, ?_⟩
  have hlen : (vset pmc).ncard = pmc.length := ncard_vset h.nodup
  have hbound := h.isBlock.cliqueNum_glueBlock_le (K := K) (k := (c + 1).toNat)
    h.inBlock h.isPmc.nonempty (fun D hD hDC => (hK D hD hDC).1.minimal)
    (by rw [cliqueCost] at hclique; omega)
    (fun D hD hDC => by have := (hK D hD hDC).2; omega)
  rw [cliqueCost] at hclique
  omega

/-- A solution in which the clique is maximal is cut into solutions of the
children, so the triplet has a cost no larger than its clique number. -/
theorem cost_le (h : Placement g pmcs t triplet pmc S C) (hn : 0 < n)
    (hbuilt : Built g pmcs t) (hg : g.Valid) {H : SimpleGraph (Fin n)}
    (hH : g.toSimple.BlockSolution (cliqueSets pmcs) S C H)
    (hclique : H.IsClique (vset pmc)) :
    ∃ d, costOf g pmcs t triplet = some d ∧ d + 1 ≤ (H.cliqueNum : ℤ) := by
  have : Nonempty (Fin n) := ⟨⟨0, hn⟩⟩
  have hcs := h.childList hg
  have hle := hclique.ncard_le_cliqueNum
  rw [ncard_vset h.nodup] at hle
  obtain ⟨d, hd, hcost⟩ := childrenCost_le (g := g) (t := t)
    (stateValue g pmcs t) (k := (H.cliqueNum : ℤ) - 1)
    (t.components.get triplet.2.2) (mark (fun _ => false) pmc)
    (cliqueCost pmc) (by rw [cliqueCost]; omega) fun l hl => by
      have hD := hcs.isComponent l hl
      have hsol := hH.cut h.isBlock h.inBlock hclique hD (hcs.subset l hl)
      obtain ⟨v, hv, hvle⟩ := hsol.blockValue_le
      -- The child's own solution has a placed clique, so the child is present.
      obtain ⟨Ω, ⟨pmc', hmem', rfl⟩, -, hpl, -⟩ :=
        hsol.exists_placed (h.isPmc.isStateBlock_child hD)
      obtain ⟨i, hi⟩ := List.mem_iff_getElem?.mp hmem'
      obtain ⟨st, -, hst⟩ := hbuilt.complete i pmc' hi _ _ hpl
      refine ⟨st, v, (childState_eq_some_iff hbuilt.valid hg (hcs.nodup l hl)).mpr hst,
        by rw [hst.stateValue, hv], ?_⟩
      have := cliqueNum_mono_graph
        (within_le (G := H) (g.toSimple.nbhd (vset l) ∪ vset l))
      omega
  exact ⟨d, by rw [costOf, h.get]; exact hcost, by omega⟩

end Placement

/-! ## The loop over the sorted triplets -/

/-- The table after the triplets of `L`: an entry is the cost of a processed
triplet, and no processed triplet of the block is cheaper. -/
structure DpInv (g : Graph n) (pmcs : List (List (Fin n))) (t : Tables n)
    (L : List (ℕ × ℕ × ℕ)) (d : DpState) : Prop where
  sound : ∀ st c, d.dp st = some c → ∃ triplet ∈ L, triplet.2 = st ∧
    d.optChoice st = triplet.1 ∧ costOf g pmcs t triplet = some c
  least : ∀ triplet ∈ L, ∀ c, costOf g pmcs t triplet = some c →
    ∃ c' ≤ c, d.dp triplet.2 = some c'

theorem tripletSize_eq (ht : t.Valid) (h : t.IsState triplet.2 S C) :
    tripletSize t triplet = S.ncard + C.ncard := by
  obtain ⟨s, c, hs, hc, rfl, rfl⟩ := h
  rw [ncard_vset ((ht.sep_sorted s (List.mem_of_getElem? hs)).imp ne_of_lt),
    ncard_vset ((ht.comp_sorted c (List.mem_of_getElem? hc)).imp ne_of_lt)]
  simp [tripletSize, IdSet.get, List.getD_eq_getElem?_getD, hs, hc]

/-- Once all triplets of a block have been processed its entry is the value of
the block. -/
theorem DpInv.dp_eq {L : List (ℕ × ℕ × ℕ)} {d : DpState}
    (hinv : DpInv g pmcs t L d) (hn : 0 < n) (hg : g.Valid)
    (hpmcs : IsPmcList g pmcs) (hbuilt : Built g pmcs t)
    (hL : ∀ triplet ∈ L, triplet ∈ t.triplets) {st : ℕ × ℕ}
    (hst : t.IsState st S C) (hstate : g.toSimple.IsStateBlock S C)
    (hall : ∀ triplet ∈ t.triplets, triplet.2 = st → triplet ∈ L) :
    d.dp st = stateValue g pmcs t st := by
  have : Nonempty (Fin n) := ⟨⟨0, hn⟩⟩
  -- Every solution of the block is matched by the entry.
  have hupper : ∀ H, g.toSimple.BlockSolution (cliqueSets pmcs) S C H →
      ∃ c, d.dp st = some c ∧ c + 1 ≤ (H.cliqueNum : ℤ) := by
    intro H hH
    obtain ⟨Ω, ⟨pmc, hmem, rfl⟩, hmax, hpl, -⟩ := hH.exists_placed hstate
    obtain ⟨i, hi⟩ := List.mem_iff_getElem?.mp hmem
    obtain ⟨st', htr, hst'⟩ := hbuilt.complete i pmc hi S C hpl
    obtain rfl := hst.injective hbuilt.valid hst'
    have hplace : Placement g pmcs t (i, st) pmc S C :=
      ⟨by simp [List.getD_eq_getElem?_getD, hi], hmem, (hpmcs pmc hmem).1,
        isPmc_of_mem hpmcs hmem, hst, hpl⟩
    obtain ⟨c, hc, hle⟩ := hplace.cost_le hn hbuilt hg hH hmax.1
    obtain ⟨c', hc', hdp⟩ := hinv.least _ (hall _ htr rfl) c hc
    exact ⟨c', hdp, by omega⟩
  rw [hst.stateValue]
  cases hdp : d.dp st with
  | none =>
      cases hval : g.toSimple.blockValue (cliqueSets pmcs) S C with
      | none => rfl
      | some c =>
          obtain ⟨H, hH, -⟩ := exists_solution_of_blockValue hval
          obtain ⟨c', hc', -⟩ := hupper H hH
          rw [hdp] at hc'
          cases hc'
  | some c =>
      obtain ⟨triplet, htr, rfl, -, hcost⟩ := hinv.sound st c hdp
      obtain ⟨pmc, S', C', hplace⟩ :=
        placement_of_means hpmcs (hbuilt.sound triplet (hL _ htr))
      obtain ⟨rfl, rfl⟩ := hst.unique hplace.state
      obtain ⟨H, hH, hle⟩ := hplace.exists_solution hn hbuilt.valid hg hcost
      obtain ⟨c', hval, hle'⟩ := hH.blockValue_le
      obtain ⟨K, hK, hKc⟩ := exists_solution_of_blockValue hval
      obtain ⟨c'', hc'', hle''⟩ := hupper K hK
      rw [hdp, Option.some_inj] at hc''
      rw [hval]
      congr 1
      omega

/-- One round of the loop, when every smaller triplet has been processed. -/
theorem processTriplet_spec {L : List (ℕ × ℕ × ℕ)} {d : DpState}
    (lookups : List (Lookup n)) (hinv : DpInv g pmcs t L d) (hn : 0 < n)
    (hg : g.Valid) (hpmcs : IsPmcList g pmcs) (hbuilt : Built g pmcs t)
    (hL : ∀ triplet ∈ L, triplet ∈ t.triplets) (htr : triplet ∈ t.triplets)
    (hsmall : ∀ r ∈ t.triplets, tripletSize t r < tripletSize t triplet → r ∈ L) :
    DpInv g pmcs t (L ++ [triplet])
      (processTriplet g pmcs t (d, lookups) triplet).1 ∧
    (processTriplet g pmcs t (d, lookups) triplet).2 = lookups ++
      (childrenCost g t (stateValue g pmcs t) (t.components.get triplet.2.2)
        (mark (fun _ => false) (pmcs.getD triplet.1 []))
        (cliqueCost (pmcs.getD triplet.1 []))).2 := by
  obtain ⟨pmc, S, C, hplace⟩ := placement_of_means hpmcs (hbuilt.sound triplet htr)
  have hcs := hplace.childList hg
  -- The children are smaller, so their entries are final.
  have hcongr : childrenCost g t d.dp (t.components.get triplet.2.2)
        (mark (fun _ => false) (pmcs.getD triplet.1 []))
        (cliqueCost (pmcs.getD triplet.1 [])) =
      childrenCost g t (stateValue g pmcs t) (t.components.get triplet.2.2)
        (mark (fun _ => false) (pmcs.getD triplet.1 []))
        (cliqueCost (pmcs.getD triplet.1 [])) := by
    refine childrenCost_congr _ _ _ fun D hD st hst => ?_
    rw [hplace.get] at hD
    have hcomp := hcs.isComponent D hD
    rw [childState_eq_some_iff hbuilt.valid hg (hcs.nodup D hD)] at hst
    refine hinv.dp_eq hn hg hpmcs hbuilt hL hst
      (hplace.isPmc.isStateBlock_child hcomp) fun r hr hrst => hsmall r hr ?_
    rw [tripletSize_eq hbuilt.valid hplace.state,
      tripletSize_eq hbuilt.valid (hrst ▸ hst)]
    exact hplace.placed.ncard_child_lt hplace.isPmc hcomp (hcs.subset D hD)
  unfold processTriplet
  dsimp only
  rw [hcongr]
  set r := childrenCost g t (stateValue g pmcs t) (t.components.get triplet.2.2)
    (mark (fun _ => false) (pmcs.getD triplet.1 []))
    (cliqueCost (pmcs.getD triplet.1 [])) with hr
  have hcost : costOf g pmcs t triplet = r.1 := rfl
  have hkeep : ∀ st c, d.dp st = some c → ∃ r ∈ L ++ [triplet], r.2 = st ∧
      d.optChoice st = r.1 ∧ costOf g pmcs t r = some c := by
    intro st c hc
    obtain ⟨q, hq, h⟩ := hinv.sound st c hc
    exact ⟨q, List.mem_append_left _ hq, h⟩
  cases hr1 : r.1 with
  | none =>
      refine ⟨⟨hkeep, fun q hq c hc => ?_⟩, rfl⟩
      rcases List.mem_append.mp hq with hq | hq
      · exact hinv.least q hq c hc
      · rw [List.mem_singleton.mp hq, hcost, hr1] at hc
        cases hc
  | some cost =>
      dsimp only
      by_cases hbetter : improves (d.dp triplet.2) cost = true
      · -- The entry is improved to `cost`.
        rw [if_pos hbetter]
        refine ⟨⟨fun st c hc => ?_, fun q hq c hc => ?_⟩, rfl⟩
        · dsimp only at hc ⊢
          by_cases hst : st = triplet.2
          · subst hst
            rw [Function.update_self, Option.some_inj] at hc
            exact ⟨triplet, by simp, rfl, by simp, by rw [hcost, hr1, hc]⟩
          · rw [Function.update_of_ne hst] at hc
            rw [Function.update_of_ne hst]
            exact hkeep st c hc
        · dsimp only
          rcases List.mem_append.mp hq with hq | hq
          · obtain ⟨c', hle, hdp⟩ := hinv.least q hq c hc
            by_cases hst : q.2 = triplet.2
            · rw [← hst, hdp, improves, decide_eq_true_iff] at hbetter
              exact ⟨cost, by omega, by rw [hst, Function.update_self]⟩
            · rw [Function.update_of_ne hst]
              exact ⟨c', hle, hdp⟩
          · obtain rfl := List.mem_singleton.mp hq
            rw [hcost, hr1, Option.some_inj] at hc
            exact ⟨cost, hc.le, by rw [Function.update_self]⟩
      · rw [if_neg hbetter]
        refine ⟨⟨hkeep, fun q hq c hc => ?_⟩, rfl⟩
        rcases List.mem_append.mp hq with hq | hq
        · exact hinv.least q hq c hc
        · obtain rfl := List.mem_singleton.mp hq
          rw [hcost, hr1, Option.some_inj] at hc
          cases hdp : d.dp q.2 with
          | none => exact absurd (by rw [hdp, improves]) hbetter
          | some old =>
              rw [hdp, improves, decide_eq_true_iff] at hbetter
              exact ⟨old, by omega, rfl⟩

/-- The whole loop over the sorted triplets. -/
theorem runDp_spec (ks : KeySort) (hn : 0 < n) (hg : g.Valid)
    (hpmcs : IsPmcList g pmcs) (hbuilt : Built g pmcs t) :
    DpInv g pmcs t t.triplets
      (runDp g pmcs t (ks.run (tripletSize t) t.triplets)).1 ∧
    ∀ key, key ∈ (runDp g pmcs t (ks.run (tripletSize t) t.triplets)).2 ↔
      ∃ triplet ∈ t.triplets, key ∈
        (childrenCost g t (stateValue g pmcs t) (t.components.get triplet.2.2)
          (mark (fun _ => false) (pmcs.getD triplet.1 []))
          (cliqueCost (pmcs.getD triplet.1 []))).2 := by
  have hperm := ks.perm (tripletSize t) t.triplets
  have hsorted := ks.sorted (tripletSize t) t.triplets
  set sorted := ks.run (tripletSize t) t.triplets
  -- The loop over `rest` after the triplets `L`.
  have loop : ∀ (rest L : List (ℕ × ℕ × ℕ)) (d : DpState) (lk : List (Lookup n)),
      sorted = L ++ rest → DpInv g pmcs t L d →
      DpInv g pmcs t sorted (rest.foldl (processTriplet g pmcs t) (d, lk)).1 ∧
      ∀ key, key ∈ (rest.foldl (processTriplet g pmcs t) (d, lk)).2 ↔ key ∈ lk ∨
        ∃ triplet ∈ rest, key ∈
          (childrenCost g t (stateValue g pmcs t) (t.components.get triplet.2.2)
            (mark (fun _ => false) (pmcs.getD triplet.1 []))
            (cliqueCost (pmcs.getD triplet.1 []))).2 := by
    intro rest
    induction rest with
    | nil =>
        intro L d lk heq hinv
        rw [heq, List.append_nil]
        exact ⟨hinv, by simp⟩
    | cons triplet rest ih =>
        intro L d lk heq hinv
        have hmem : ∀ r ∈ L, r ∈ t.triplets := fun r hr =>
          hperm.mem_iff.mp (heq ▸ List.mem_append_left _ hr)
        have htr : triplet ∈ t.triplets :=
          hperm.mem_iff.mp (heq ▸ List.mem_append_right _ (by simp))
        have hsmall : ∀ r ∈ t.triplets,
            tripletSize t r < tripletSize t triplet → r ∈ L := by
          intro r hr hlt
          have hr' := hperm.mem_iff.mpr hr
          rw [heq, List.mem_append] at hr'
          refine hr'.resolve_right fun hrest => ?_
          rw [heq, List.pairwise_append] at hsorted
          rcases List.mem_cons.mp hrest with rfl | hrest
          · omega
          · have := List.rel_of_pairwise_cons hsorted.2.1 hrest
            omega
        obtain ⟨hstep, hlk⟩ := processTriplet_spec lk hinv hn hg hpmcs
          hbuilt hmem htr hsmall
        obtain ⟨h1, h2⟩ := ih (L ++ [triplet])
          (processTriplet g pmcs t (d, lk) triplet).1
          (processTriplet g pmcs t (d, lk) triplet).2 (by simp [heq]) hstep
        refine ⟨h1, fun key => ?_⟩
        rw [List.foldl_cons]
        refine (h2 key).trans ?_
        rw [hlk]
        simp [or_assoc]
  obtain ⟨hinv, hlk⟩ := loop sorted [] ⟨fun _ => none, fun _ => 0⟩ []
    (List.nil_append _).symm ⟨fun _ _ h => by simp at h, by simp⟩
  refine ⟨⟨fun st c hc => ?_, fun triplet htr => hinv.least triplet
    (hperm.mem_iff.mpr htr)⟩, fun key => ?_⟩
  · obtain ⟨triplet, htr, h⟩ := hinv.sound st c hc
    exact ⟨triplet, hperm.mem_iff.mp htr, h⟩
  · refine (hlk key).trans ?_
    simp [hperm.mem_iff]

end Fixed

end BtAlgorithm

end Triangulator
