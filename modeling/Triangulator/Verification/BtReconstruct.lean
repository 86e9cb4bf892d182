import Triangulator.Verification.BtDynamicProgram

/-!
# The reconstruction of the Bouchitté-Todinca algorithm

The queue loop visits the blocks of the chosen cliques, never fails an
assertion, and lists every fill edge of the triangulation glued along the
chosen cliques exactly once.
-/

namespace Triangulator

open SimpleGraph

variable {n : ℕ} {g : Graph n}

namespace BtAlgorithm

variable {pmcs : List (List (Fin n))} {t : Tables n} {d : DpState}
  {S C : Set (Fin n)} {st : ℕ × ℕ}

/-- A finished dynamic program on a nonempty graph. -/
structure Finished (g : Graph n) (pmcs : List (List (Fin n))) (t : Tables n)
    (d : DpState) : Prop where
  pos : 0 < n
  valid : g.Valid
  isPmcList : IsPmcList g pmcs
  built : Built g pmcs t
  inv : DpInv g pmcs t t.triplets d

theorem Finished.dp_eq (h : Finished g pmcs t d) (hst : t.IsState st S C)
    (hstate : g.toSimple.IsStateBlock S C) : d.dp st = stateValue g pmcs t st :=
  h.inv.dp_eq h.pos h.valid h.isPmcList h.built (fun _ htr => htr) hst hstate
    fun _ htr _ => htr

/-- The block has identifiers and an entry. -/
def Solved (g : Graph n) (t : Tables n) (d : DpState) (S C : Set (Fin n)) : Prop :=
  ∃ st, t.IsState st S C ∧ g.toSimple.IsStateBlock S C ∧ (d.dp st).isSome

open Classical in
/-- The clique chosen at a block. -/
noncomputable def chosen (pmcs : List (List (Fin n))) (t : Tables n) (d : DpState)
    (S C : Set (Fin n)) : Set (Fin n) :=
  if h : ∃ st, t.IsState st S C then
    vset (pmcs.getD (d.optChoice h.choose) [])
  else ∅

theorem chosen_eq (ht : t.Valid) (hst : t.IsState st S C) :
    chosen pmcs t d S C = vset (pmcs.getD (d.optChoice st) []) := by
  have hex : ∃ st, t.IsState st S C := ⟨st, hst⟩
  rw [chosen, dif_pos hex, hst.injective ht hex.choose_spec]

/-- An entry comes from the chosen clique, placed at the block, with all
children present and no more expensive. -/
theorem Finished.chosen_spec (h : Finished g pmcs t d) {c : ℤ}
    (hst : t.IsState st S C) (hdp : d.dp st = some c) :
    ∃ pmc, Placement g pmcs t (d.optChoice st, st) pmc S C ∧
      (pmc.length : ℤ) - 1 ≤ c ∧
      ∀ l ∈ childComps g (t.components.get st.2) (mark (fun _ => false) pmc),
        ∃ st' v, childState t (keyOf g l) = some st' ∧ d.dp st' = some v ∧ v ≤ c := by
  obtain ⟨triplet, htr, rfl, hopt, hcost⟩ := h.inv.sound st c hdp
  obtain ⟨pmc, S', C', hplace⟩ := placement_of_means h.isPmcList (h.built.sound triplet htr)
  obtain ⟨rfl, rfl⟩ := hst.unique hplace.state
  have hcs := hplace.childList h.valid
  rw [costOf, hplace.get] at hcost
  obtain ⟨hclique, hall⟩ := childrenCost_eq_some _ _ _ _ hcost
  refine ⟨pmc, by rw [hopt]; exact hplace, hclique, fun l hl => ?_⟩
  obtain ⟨st', v, hst', hv, hle⟩ := hall l hl
  refine ⟨st', v, hst', ?_, hle⟩
  rw [h.dp_eq ((childState_eq_some_iff h.built.valid h.valid (hcs.nodup l hl)).mp hst')
    (hplace.isPmc.isStateBlock_child (hcs.isComponent l hl)), hv]

theorem Finished.isChoice (h : Finished g pmcs t d) :
    g.toSimple.IsChoice (cliqueSets pmcs) (chosen pmcs t d) (Solved g t d) := by
  have key : ∀ S C, Solved g t d S C → ∃ pmc, chosen pmcs t d S C = vset pmc ∧
      pmc ∈ pmcs ∧ g.toSimple.IsPmc (vset pmc) ∧ g.toSimple.IsPlaced (vset pmc) S C ∧
      ∀ D, g.toSimple.IsComponent (vset pmc) D → D ⊆ C →
        Solved g t d (g.toSimple.nbhd D) D := by
    rintro S C ⟨st, hst, -, hsome⟩
    obtain ⟨c, hdp⟩ := Option.isSome_iff_exists.mp hsome
    obtain ⟨pmc, hplace, -, hall⟩ := h.chosen_spec hst hdp
    refine ⟨pmc, ?_, hplace.mem, hplace.isPmc, hplace.placed, fun D hD hDC => ?_⟩
    · rw [chosen_eq h.built.valid hst, hplace.get]
    · have hcs := hplace.childList h.valid
      obtain ⟨l, hl, rfl⟩ := hcs.complete D hD hDC
      obtain ⟨st', v, hst', hv, -⟩ := hall l hl
      exact ⟨st', (childState_eq_some_iff h.built.valid h.valid
        (hcs.nodup l hl)).mp hst', hplace.isPmc.isStateBlock_child hD, by simp [hv]⟩
  refine ⟨fun S C hs => ?_, fun S C hs => ?_, fun S C hs => ?_, fun S C hs => ?_⟩
  all_goals
    obtain ⟨pmc, heq, hmem, hpmc, hpl, hchild⟩ := key S C hs
    rw [heq]
  · exact ⟨pmc, hmem, rfl⟩
  · exact hpmc
  · exact hpl
  · exact hchild

/-- The graph glued along the chosen cliques is no wider than the entry says. -/
theorem Finished.cliqueNum_le (h : Finished g pmcs t d) {c : ℤ}
    (hst : t.IsState st S C) (hstate : g.toSimple.IsStateBlock S C)
    (hdp : d.dp st = some c) :
    ((g.toSimple.glueChoice (chosen pmcs t d) S C).cliqueNum : ℤ) ≤ c + 1 := by
  have : Nonempty (Fin n) := ⟨⟨0, h.pos⟩⟩
  set bound : Set (Fin n) → Set (Fin n) → ℕ := fun S C =>
    (((g.toSimple.blockValue (cliqueSets pmcs) S C).getD 0) + 1).toNat
  have hval : ∀ {S C : Set (Fin n)} {st : ℕ × ℕ} {c : ℤ}, t.IsState st S C →
      g.toSimple.IsStateBlock S C → d.dp st = some c →
      g.toSimple.blockValue (cliqueSets pmcs) S C = some c := by
    intro S C st c hst hstate hdp
    rw [← hst.stateValue, ← h.dp_eq hst hstate, hdp]
  have hle := h.isChoice.cliqueNum_le (S := S) (C := C) bound ?_ ?_
    ⟨st, hst, hstate, by simp [hdp]⟩
  · have hnonneg : 0 ≤ c + 1 := by
      obtain ⟨H, -, hH⟩ := exists_solution_of_blockValue (hval hst hstate hdp)
      omega
    simp only [bound, hval hst hstate hdp, Option.getD_some] at hle
    omega
  · rintro S C ⟨st, hst, hstate, hsome⟩
    obtain ⟨c, hdp⟩ := Option.isSome_iff_exists.mp hsome
    obtain ⟨pmc, hplace, hlen, -⟩ := h.chosen_spec hst hdp
    rw [chosen_eq h.built.valid hst, hplace.get, ncard_vset hplace.nodup]
    simp only [bound, hval hst hstate hdp, Option.getD_some]
    omega
  · rintro S C ⟨st, hst, hstate, hsome⟩ D hD hDC
    obtain ⟨c, hdp⟩ := Option.isSome_iff_exists.mp hsome
    obtain ⟨pmc, hplace, -, hall⟩ := h.chosen_spec hst hdp
    rw [chosen_eq h.built.valid hst, hplace.get] at hD
    have hcs := hplace.childList h.valid
    obtain ⟨l, hl, rfl⟩ := hcs.complete D hD hDC
    obtain ⟨st', v, hst', hv, hle⟩ := hall l hl
    rw [childState_eq_some_iff h.built.valid h.valid (hcs.nodup l hl)] at hst'
    simp only [bound, hval hst hstate hdp, Option.getD_some,
      hval hst' (hplace.isPmc.isStateBlock_child hD) hv]
    omega

/-! ## The pairs of one clique -/

theorem mem_fillPairs {separator : List (Fin n)} (pmc : List (Fin n))
    (hnd : pmc.Nodup) (e : Sym2 (Fin n)) (hg : g.Valid) :
    e ∈ (fillPairs g separator pmc).map (fun p => s(p.1, p.2)) ↔
      e ∈ g.toSimple.newPairs (vset separator) (vset pmc) := by
  have hnew : ∀ (l : List (Fin n)) (x y : Fin n),
      s(x, y) ∈ g.toSimple.newPairs (vset separator) (vset l) ↔
        (x ≠ y ∧ x ∈ l ∧ y ∈ l) ∧ ¬g.toSimple.Adj x y ∧
          ¬(x ∈ separator ∧ y ∈ separator) := by
    intro l x y
    change (x ≠ y ∧ x ∈ l ∧ y ∈ l) ∧
      ¬(g.toSimple.Adj x y ∨ (x ≠ y ∧ x ∈ separator ∧ y ∈ separator)) ↔ _
    tauto
  induction pmc with
  | nil =>
      induction e using Sym2.ind with
      | _ x y => simp [hnew, fillPairs]
  | cons u us ih =>
      rw [List.nodup_cons] at hnd
      rw [fillPairs, List.map_append, List.mem_append, propext (ih hnd.2)]
      induction e using Sym2.ind with
      | _ x y =>
          rw [hnew, hnew]
          simp only [List.map_map, List.mem_map, List.mem_filter, Function.comp_apply,
            List.mem_cons, Graph.hasEdge]
          constructor
          · rintro (⟨v, ⟨hv, hcond⟩, heq⟩ | h)
            · have hne : u ≠ v := fun h => hnd.1 (h ▸ hv)
              simp only [Bool.and_eq_true, Bool.not_eq_true', Bool.or_eq_true,
                decide_eq_false_iff_not] at hcond
              have hnadj : ¬g.toSimple.Adj u v := by
                rw [hg.adj_iff, hcond.1]
                simp
              rcases Sym2.eq_iff.mp heq with ⟨rfl, rfl⟩ | ⟨rfl, rfl⟩
              · exact ⟨⟨hne, Or.inl rfl, Or.inr hv⟩, hnadj, by tauto⟩
              · exact ⟨⟨hne.symm, Or.inr hv, Or.inl rfl⟩,
                  fun h => hnadj h.symm, by tauto⟩
            · exact ⟨⟨h.1.1, Or.inr h.1.2.1, Or.inr h.1.2.2⟩, h.2⟩
          · rintro ⟨⟨hxy, hx, hy⟩, hnadj, hsep⟩
            have hcond : ∀ v, ¬g.toSimple.Adj u v →
                ¬(u ∈ separator ∧ v ∈ separator) →
                (!g.adjMat u v && (!decide (u ∈ separator) ||
                  !decide (v ∈ separator))) = true := by
              intro v hv hs
              rw [hg.adj_iff, Bool.not_eq_true] at hv
              simp only [hv, Bool.not_false, Bool.true_and, Bool.or_eq_true,
                Bool.not_eq_true', decide_eq_false_iff_not]
              tauto
            rcases hx with rfl | hx
            · have hy' := hy.resolve_left fun h => hxy h.symm
              exact Or.inl ⟨y, ⟨hy', hcond y hnadj hsep⟩, rfl⟩
            · rcases hy with rfl | hy
              · refine Or.inl ⟨x, ⟨hx, hcond x (fun h => hnadj h.symm) ?_⟩, Sym2.eq_swap⟩
                tauto
              · exact Or.inr ⟨⟨hxy, hx, hy⟩, hnadj, hsep⟩

theorem fillPairs_mem {separator pmc : List (Fin n)} {p : Fin n × Fin n}
    (hp : p ∈ fillPairs g separator pmc) : p.1 ∈ pmc ∧ p.2 ∈ pmc := by
  induction pmc with
  | nil => cases hp
  | cons u us ih =>
      rw [fillPairs, List.mem_append, List.mem_map] at hp
      rcases hp with ⟨v, hv, rfl⟩ | hp
      · exact ⟨by simp, List.mem_cons_of_mem _ (List.mem_filter.mp hv).1⟩
      · exact ⟨List.mem_cons_of_mem _ (ih hp).1, List.mem_cons_of_mem _ (ih hp).2⟩

theorem fillPairs_nodup {separator pmc : List (Fin n)} (hnd : pmc.Nodup) :
    ((fillPairs g separator pmc).map fun p => s(p.1, p.2)).Nodup := by
  induction pmc with
  | nil => exact List.nodup_nil
  | cons u us ih =>
      rw [List.nodup_cons] at hnd
      rw [fillPairs, List.map_append, List.nodup_append']
      refine ⟨?_, ih hnd.2, ?_⟩
      · rw [List.map_map]
        refine (hnd.2.filter _).map_on fun a _ b _ hab => ?_
        exact Sym2.congr_right.mp hab
      · intro e he he'
        simp only [List.map_map, List.mem_map, List.mem_filter,
          Function.comp_apply] at he he'
        obtain ⟨v, ⟨hv, -⟩, rfl⟩ := he
        obtain ⟨p, hp, heq⟩ := he'
        have hmem := fillPairs_mem hp
        rcases Sym2.eq_iff.mp heq with ⟨h1, -⟩ | ⟨-, h2⟩
        · exact hnd.1 (h1 ▸ hmem.1)
        · exact hnd.1 (h2 ▸ hmem.2)

/-! ## The queue -/

/-- The loop over the children succeeds when all of them have entries. -/
theorem pushChildren_spec (dp : ℕ × ℕ → Option ℤ) (vs : List (Fin n))
    (b : Fin n → Bool)
    (h : ∀ l ∈ childComps g vs b, ∃ st', childState t (keyOf g l) = some st' ∧
      (dp st').isSome) :
    ∃ sts, pushChildren g t dp vs b = some (sts, (childComps g vs b).map (keyOf g)) ∧
      List.Forall₂ (fun l st' => childState t (keyOf g l) = some st')
        (childComps g vs b) sts := by
  induction vs generalizing b with
  | nil => exact ⟨[], rfl, List.Forall₂.nil⟩
  | cons v vs ih =>
      rw [pushChildren]
      rw [childComps] at h ⊢
      by_cases hv : b v = true
      · rw [if_pos hv] at h ⊢
        rw [if_pos hv]
        exact ih b h
      · rw [if_neg hv] at h ⊢
        rw [if_neg hv]
        obtain ⟨st', hst', hsome⟩ := h _ List.mem_cons_self
        obtain ⟨sts, hpush, hall⟩ := ih _ fun l hl => h l (List.mem_cons_of_mem _ hl)
        refine ⟨st' :: sts, ?_, List.Forall₂.cons hst' hall⟩
        have hst'' : childState t (childKey g v b).2 = some st' := hst'
        have hpush' : pushChildren g t dp vs (childKey g v b).1 =
            some (sts, (childComps g vs (g.findComponentAndMark v b).1).map
              (keyOf g)) := hpush
        dsimp only
        rw [hst'', Option.bind_eq_bind, Option.bind_some, if_pos hsome, hpush']
        rfl

/-- The fill edges of a block as a list. -/
noncomputable def fillList (g : Graph n) (pmcs : List (List (Fin n)))
    (t : Tables n) (d : DpState) (S C : Set (Fin n)) : List (Sym2 (Fin n)) :=
  (Set.toFinite (g.toSimple.fillSet (chosen pmcs t d) S C)).toFinset.toList

theorem mem_fillList {e : Sym2 (Fin n)} :
    e ∈ fillList g pmcs t d S C ↔
      e ∈ g.toSimple.fillSet (chosen pmcs t d) S C := by
  simp [fillList]

theorem fillList_nodup : (fillList g pmcs t d S C).Nodup :=
  Finset.nodup_toList _

/-- The fill edges of the block of a pair of identifiers. -/
noncomputable def stateFill (g : Graph n) (pmcs : List (List (Fin n)))
    (t : Tables n) (d : DpState) (st : ℕ × ℕ) : List (Sym2 (Fin n)) :=
  fillList g pmcs t d (vset (t.separators.get st.1)) (vset (t.components.get st.2))

/-- The fill edges of a block are the pairs of its clique followed by the fill
edges of its children. -/
theorem Finished.stateFill_perm (h : Finished g pmcs t d) {c : ℤ}
    {pmc : List (Fin n)} {sts : List (ℕ × ℕ)} (hst : t.IsState st S C)
    (hstate : g.toSimple.IsStateBlock S C) (hdp : d.dp st = some c)
    (hplace : Placement g pmcs t (d.optChoice st, st) pmc S C)
    (hsts : List.Forall₂ (fun l st' => childState t (keyOf g l) = some st')
      (childComps g (t.components.get st.2) (mark (fun _ => false) pmc)) sts) :
    ((fillPairs g (t.separators.get st.1) pmc).map (fun p => s(p.1, p.2)) ++
      sts.flatMap (stateFill g pmcs t d)).Perm (stateFill g pmcs t d st) := by
  have : Nonempty (Fin n) := ⟨⟨0, h.pos⟩⟩
  have hcs := hplace.childList h.valid
  have hs : Solved g t d S C := ⟨st, hst, hstate, by simp [hdp]⟩
  have hopt : chosen pmcs t d S C = vset pmc := by
    rw [chosen_eq h.built.valid hst, hplace.get]
  dsimp only at hcs
  generalize childComps g (t.components.get st.2) (mark (fun _ => false) pmc) = cs
    at hcs hsts
  -- The children's lists are those of their blocks.
  have hflat : sts.flatMap (stateFill g pmcs t d) =
      cs.flatMap fun l => fillList g pmcs t d (g.toSimple.nbhd (vset l)) (vset l) := by
    have hnd := hcs.nodup
    clear hcs
    induction hsts with
    | nil => rfl
    | @cons l st' ls sts' hl _ ih =>
        have hl' := (childState_eq_some_iff h.built.valid h.valid
          (hnd l (by simp))).mp hl
        have hhead : stateFill g pmcs t d st' =
            fillList g pmcs t d (g.toSimple.nbhd (vset l)) (vset l) := by
          rw [stateFill, hl'.get.1, hl'.get.2]
        rw [List.flatMap_cons, List.flatMap_cons, hhead,
          ih fun k hk => hnd k (by simp [hk])]
  have hchild : ∀ l ∈ cs, g.toSimple.IsComponent (chosen pmcs t d S C) (vset l) ∧
      vset l ⊆ C := fun l hl => ⟨hopt ▸ hcs.isComponent l hl, hcs.subset l hl⟩
  have hpairs : ∀ e, e ∈ (fillPairs g (t.separators.get st.1) pmc).map
      (fun p => s(p.1, p.2)) ↔ e ∈ g.toSimple.newPairs S (chosen pmcs t d S C) := by
    intro e
    rw [mem_fillPairs pmc hplace.nodup e h.valid, hst.get.1, hopt]
  rw [hflat]
  refine (List.perm_ext_iff_of_nodup ?_ fillList_nodup).mpr fun e => ?_
  · rw [List.nodup_append', List.nodup_flatMap]
    refine ⟨fillPairs_nodup hplace.nodup, ⟨fun l _ => fillList_nodup, ?_⟩, ?_⟩
    · refine hcs.disjoint.imp_of_mem fun {a b} ha hb hab e hea heb => ?_
      have hdisj := h.isChoice.fillSet_disjoint hs (hchild a ha).1 (hchild a ha).2
        (hchild b hb).1 (hchild b hb).2 (Set.disjoint_left.mpr hab)
      exact Set.disjoint_left.mp hdisj (mem_fillList.mp hea) (mem_fillList.mp heb)
    · intro e he he'
      rw [hpairs] at he
      obtain ⟨l, hl, hel⟩ := List.mem_flatMap.mp he'
      have hdisj := h.isChoice.newPairs_disjoint_fillSet hs (hchild l hl).1
        (hchild l hl).2
      exact Set.disjoint_left.mp hdisj he (mem_fillList.mp hel)
  · rw [List.mem_append, hpairs, List.mem_flatMap, hst.get.1, hst.get.2, mem_fillList,
      h.isChoice.mem_fillSet_iff hs]
    refine or_congr_right ⟨?_, ?_⟩
    · rintro ⟨l, hl, hel⟩
      exact ⟨vset l, (hchild l hl).1, (hchild l hl).2, mem_fillList.mp hel⟩
    · rintro ⟨D, hD, hDC, heD⟩
      obtain ⟨l, hl, rfl⟩ := hcs.complete D (hopt ▸ hD) hDC
      exact ⟨l, hl, mem_fillList.mpr heD⟩

/-- The child components are disjoint, lie in the block and miss a vertex of
it. -/
theorem IsChildList.sum_lt {Ω : Set (Fin n)} {component : List (Fin n)}
    {cs : List (List (Fin n))} (h : IsChildList g Ω (vset component) cs)
    {w : Fin n} (hw : w ∈ Ω) (hwC : w ∈ component) :
    (cs.map List.length).sum < component.length := by
  rw [← List.length_flatten]
  have hnd : cs.flatten.Nodup := by
    rw [List.nodup_flatten]
    exact ⟨h.nodup, h.disjoint⟩
  have hsub : ∀ v ∈ cs.flatten, v ∈ component ∧ v ≠ w := by
    intro v hv
    obtain ⟨c, hc, hvc⟩ := List.mem_flatten.mp hv
    refine ⟨h.subset c hc hvc, ?_⟩
    rintro rfl
    exact (h.isComponent c hc).notMem v hvc hw
  have hcons : (w :: cs.flatten).Nodup :=
    List.nodup_cons.mpr ⟨fun hmem => (hsub w hmem).2 rfl, hnd⟩
  have hsubperm : (w :: cs.flatten).Subperm component :=
    hcons.subperm fun v hv => by
      rcases List.mem_cons.mp hv with rfl | hv
      · exact hwC
      · exact (hsub v hv).1
  simpa using hsubperm.length_le

/-- Every key is present. -/
def KeysPresent (t : Tables n) (keys : List (Lookup n)) : Prop :=
  ∀ key ∈ keys, (t.separators.idOf key.1).isSome ∧ (t.components.idOf key.2).isSome

theorem isSome_of_childState {key : Lookup n} (h : childState t key = some st) :
    (t.separators.idOf key.1).isSome ∧ (t.components.idOf key.2).isSome := by
  rw [childState] at h
  split at h
  · rename_i hs hc
    simp [hs, hc]
  · cases h

/-- The queue loop lists the fill edges of the blocks in the queue. -/
theorem Finished.reconstruct_spec (h : Finished g pmcs t d) (fuel : ℕ)
    (queue : List (ℕ × ℕ))
    (hqueue : ∀ st ∈ queue, ∃ S C, t.IsState st S C ∧
      g.toSimple.IsStateBlock S C ∧ (d.dp st).isSome)
    (hfuel : (queue.map fun st => (t.components.get st.2).length).sum ≤ fuel) :
    ∃ F keys, reconstruct g pmcs t d fuel queue = some (F, keys) ∧
      (F.map fun p => s(p.1, p.2)).Perm (queue.flatMap (stateFill g pmcs t d)) ∧
      KeysPresent t keys := by
  have : Nonempty (Fin n) := ⟨⟨0, h.pos⟩⟩
  induction fuel generalizing queue with
  | zero =>
      cases queue with
      | nil => exact ⟨[], [], rfl, by simp, by simp [KeysPresent]⟩
      | cons st queue =>
          obtain ⟨S, C, hst, hstate, hsome⟩ := hqueue st (by simp)
          obtain ⟨c, hdp⟩ := Option.isSome_iff_exists.mp hsome
          obtain ⟨pmc, hplace, -, -⟩ := h.chosen_spec hst hdp
          obtain ⟨w, -, hwC⟩ := hplace.placed.exists_mem hplace.isPmc
          rw [← hst.get.2] at hwC
          have := List.length_pos_of_mem hwC
          rw [List.map_cons, List.sum_cons] at hfuel
          omega
  | succ fuel ih =>
      cases queue with
      | nil => exact ⟨[], [], rfl, by simp, by simp [KeysPresent]⟩
      | cons st queue =>
          obtain ⟨S, C, hst, hstate, hsome⟩ := hqueue st (by simp)
          obtain ⟨c, hdp⟩ := Option.isSome_iff_exists.mp hsome
          obtain ⟨pmc, hplace, -, hall⟩ := h.chosen_spec hst hdp
          have hcs := hplace.childList h.valid
          obtain ⟨sts, hpush, hsts⟩ := pushChildren_spec (g := g) (t := t)
            d.dp (t.components.get st.2) (mark (fun _ => false) pmc)
            fun l hl => by
              obtain ⟨st', v, hst', hv, -⟩ := hall l hl
              exact ⟨st', hst', by simp [hv]⟩
          have hstates : ∀ st' ∈ sts, ∃ l ∈ childComps g (t.components.get st.2)
              (mark (fun _ => false) pmc), childState t (keyOf g l) = some st' := by
            intro st' hst'
            obtain ⟨i, hi, rfl⟩ := List.mem_iff_getElem.mp hst'
            have hi' : i < (childComps g (t.components.get st.2)
                (mark (fun _ => false) pmc)).length := hsts.length_eq ▸ hi
            exact ⟨_, List.getElem_mem hi', hsts.get hi' hi⟩
          have hsum : (sts.map fun st => (t.components.get st.2).length).sum =
              ((childComps g (t.components.get st.2)
                (mark (fun _ => false) pmc)).map List.length).sum := by
            have hnd := hcs.nodup
            dsimp only at hnd
            generalize childComps g (t.components.get st.2)
              (mark (fun _ => false) pmc) = cs at hsts hnd
            clear hpush hstates
            induction hsts with
            | nil => rfl
            | @cons l st' ls sts' hl _ ihs =>
                have hl' := (childState_eq_some_iff h.built.valid h.valid
                  (hnd l (by simp))).mp hl
                obtain ⟨s, k, -, hk, -, hkC⟩ := hl'
                have hklen : k.length = l.length := by
                  have hknd := (h.built.valid.comp_sorted k
                    (List.mem_of_getElem? hk)).imp ne_of_lt
                  rw [← ncard_vset hknd, hkC, ncard_vset (hnd l (by simp))]
                rw [List.map_cons, List.map_cons, List.sum_cons, List.sum_cons,
                  ihs fun m hm => hnd m (by simp [hm])]
                simp [IdSet.get, List.getD_eq_getElem?_getD, hk, hklen]
          obtain ⟨w, hw, hwC⟩ := hplace.placed.exists_mem hplace.isPmc
          rw [← hst.get.2] at hwC hcs
          have hlt := hcs.sum_lt hw hwC
          obtain ⟨F, keys, hrec, hperm, hkeys⟩ := ih (queue ++ sts)
            (by
              intro st' hst'
              rcases List.mem_append.mp hst' with hst' | hst'
              · exact hqueue st' (by simp [hst'])
              · obtain ⟨l, hl, hl'⟩ := hstates st' hst'
                obtain ⟨st'', v, hst'', hv, -⟩ := hall l hl
                obtain rfl := Option.some_inj.mp (hl'.symm.trans hst'')
                exact ⟨_, _, (childState_eq_some_iff h.built.valid h.valid
                  (hcs.nodup l hl)).mp hl',
                  hplace.isPmc.isStateBlock_child (hcs.isComponent l hl), by simp [hv]⟩)
            (by
              rw [List.map_append, List.sum_append, hsum]
              rw [List.map_cons, List.sum_cons] at hfuel
              dsimp only at hlt
              omega)
          refine ⟨fillPairs g (t.separators.get st.1) pmc ++ F,
            (childComps g (t.components.get st.2)
              (mark (fun _ => false) pmc)).map (keyOf g) ++ keys, ?_, ?_, ?_⟩
          · have hget : pmcs.getD (d.optChoice st) [] = pmc := hplace.get
            rw [reconstruct, if_pos hsome]
            dsimp only
            rw [hget, hpush, Option.bind_eq_bind, Option.bind_some, hrec]
            rfl
          · rw [List.map_append, List.flatMap_cons]
            have hfill := h.stateFill_perm hst hstate hdp hplace hsts
            rw [List.flatMap_append] at hperm
            refine (hperm.append_left _).trans ?_
            refine List.Perm.trans ?_ (hfill.append_right _)
            rw [List.append_assoc]
            exact List.perm_append_comm.append_left _
          · intro key hkey
            rcases List.mem_append.mp hkey with hkey | hkey
            · obtain ⟨l, hl, rfl⟩ := List.mem_map.mp hkey
              obtain ⟨st', v, hst', -, -⟩ := hall l hl
              exact isSome_of_childState hst'
            · exact hkeys key hkey

end BtAlgorithm

end Triangulator
