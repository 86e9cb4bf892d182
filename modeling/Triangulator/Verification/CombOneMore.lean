import Triangulator.Verification.CombMinSeps

/-!
# One round of the enumeration

`OneMoreVertex` turns the potential maximal cliques of the old graph into those
of the graph with one more vertex.
-/

namespace Triangulator

open SimpleGraph

variable {n : ℕ} {g : Graph n}

namespace CombEnumerator

/-- The new graph `g` gives edges to the vertex `x`, which is isolated in `G`; the
other edges are among the vertices of `U`. -/
structure NewVertex (g : Graph n) (G : SimpleGraph (Fin n)) (U : Set (Fin n))
    (x : Fin n) : Prop where
  valid : g.Valid
  added : G.VertexAdded g.toSimple x
  notMem : x ∉ U
  support : ∀ u v, g.toSimple.Adj u v → u ∈ insert x U
  adj : ∃ w, g.toSimple.Adj x w

/-- The vector holds a potential maximal clique of `g` inside `A`. -/
structure IsFound (g : Graph n) (A : Set (Fin n)) (l : List (Fin n)) : Prop where
  nodup : l.Nodup
  isPmc : g.toSimple.IsPmc (vset l)
  subset : vset l ⊆ A

/-- The list of cliques grows by vectors that are found. -/
structure GrownFound (g : Graph n) (A : Set (Fin n)) (ls ks : List (List (Fin n))) :
    Prop where
  isPrefix : ls <+: ks
  found : ∀ l ∈ ks, l ∈ ls ∨ IsFound g A l

namespace GrownFound

variable {A : Set (Fin n)} {ls ks ms : List (List (Fin n))} {l : List (Fin n)}

theorem refl (ls : List (List (Fin n))) : GrownFound g A ls ls :=
  ⟨List.prefix_rfl, fun _ hl => Or.inl hl⟩

theorem trans (h : GrownFound g A ls ks) (h' : GrownFound g A ks ms) :
    GrownFound g A ls ms :=
  ⟨h.isPrefix.trans h'.isPrefix, fun l hl =>
    (h'.found l hl).elim (fun hk => h.found l hk) Or.inr⟩

theorem append (ls : List (List (Fin n))) (hl : IsFound g A l) :
    GrownFound g A ls (ls ++ [l]) := by
  refine ⟨List.prefix_append _ _, fun k hk => ?_⟩
  rcases List.mem_append.mp hk with hk | hk
  · exact Or.inl hk
  · exact Or.inr (List.mem_singleton.mp hk ▸ hl)

end GrownFound

section Round

variable {G : SimpleGraph (Fin n)} {U : Set (Fin n)} {x : Fin n}

/-- The listed potential maximal cliques of the old graph. -/
structure IsOldList (G : SimpleGraph (Fin n)) (U : Set (Fin n))
    (pmcs : List (List (Fin n))) : Prop where
  nodup : ∀ l ∈ pmcs, l.Nodup
  isPmc : ∀ l ∈ pmcs, G.IsPmc (vset l) ∧ vset l ⊆ U
  complete : ∀ P, G.IsPmc P → P ⊆ U → P ∈ listed pmcs

namespace NewVertex

/-- A minimal separator lies among the vertices with edges. -/
theorem subset_of_isMinimalSeparator (h : NewVertex g G U x) {S : Set (Fin n)}
    (hS : g.toSimple.IsMinimalSeparator S) : S ⊆ insert x U := by
  obtain ⟨A, -, -, hA, -⟩ := hS
  intro s hs
  obtain ⟨a, -, has⟩ := hA.exists_adj hs
  exact h.support s a has.symm

theorem vset_append_singleton (l : List (Fin n)) (x : Fin n) :
    vset (l ++ [x]) = insert x (vset l) := by
  ext v
  simp [or_comm]

/-- What the first loop does with one clique of the old graph. -/
theorem extendPmc_spec (h : NewVertex g G U x) {pmc : List (Fin n)} (hnd : pmc.Nodup)
    (hP : G.IsPmc (vset pmc)) (hU : vset pmc ⊆ U) (ls : List (List (Fin n))) :
    ∃ ks, extendPmc g x ls pmc = some ks ∧ GrownFound g (insert x U) ls ks ∧
      (g.toSimple.IsPmc (vset pmc) → vset pmc ∈ listed ks) ∧
      (g.toSimple.IsPmc (insert x (vset pmc)) → insert x (vset pmc) ∈ listed ks) := by
  have hx : x ∉ pmc := fun hmem => h.notMem (hU hmem)
  obtain ⟨full, hfull, hfulliff⟩ := hasFullComponent_spec h.valid hnd
  obtain ⟨ext, hext, hextiff⟩ := extend2_spec h.valid hx
  rw [extendPmc, hfull, Option.bind_eq_bind, Option.bind_some]
  -- The extended clique has a full component without `x`.
  have hinsert : g.toSimple.IsPmc (insert x (vset pmc)) →
      g.toSimple.IsFullComponent (vset pmc) (g.toSimple.componentOf (vset pmc) x) :=
    fun hpmc => VertexAdded.isFullComponent_of_mem hpmc hx
  cases full with
  | false =>
      have hno : ∀ C, ¬g.toSimple.IsFullComponent (vset pmc) C := fun C hC => by
        cases hfulliff.mpr ⟨C, hC⟩
      refine ⟨ls ++ [pmc], rfl, GrownFound.append ls
        ⟨hnd, h.added.isPmc_keep hP hno, hU.trans (Set.subset_insert x U)⟩, ?_, ?_⟩
      · exact fun _ => ⟨pmc, by simp, rfl⟩
      · exact fun hpmc => absurd (hinsert hpmc) (hno _)
  | true =>
      obtain ⟨C, hC⟩ := hfulliff.mp rfl
      have hkeep : ¬g.toSimple.IsPmc (vset pmc) := fun hpmc =>
        hpmc.no_full C hC.isComponent hC.nbhd_eq
      rw [if_pos rfl, hext, Option.bind_some]
      cases ext with
      | false =>
          refine ⟨ls, rfl, GrownFound.refl ls, fun hpmc => absurd hpmc hkeep, ?_⟩
          intro hpmc
          cases hextiff.mpr (hinsert hpmc)
      | true =>
          refine ⟨ls ++ [pmc ++ [x]], rfl, GrownFound.append ls ⟨?_, ?_, ?_⟩,
            fun hpmc => absurd hpmc hkeep, fun _ => ⟨pmc ++ [x], by simp,
              vset_append_singleton pmc x⟩⟩
          · exact hnd.append (List.nodup_singleton x) (by simpa using hx)
          · rw [vset_append_singleton]
            exact h.added.isPmc_extend hP hx (hextiff.mp rfl)
          · rw [vset_append_singleton]
            exact Set.insert_subset_insert hU

/-- What the second loop does with a separator and `x`. -/
theorem extendMinsep_spec (h : NewVertex g G U x) {minsep : List (Fin n)}
    (hnd : minsep.Nodup) (hS : g.toSimple.IsMinimalSeparator (vset minsep))
    (hx : x ∉ minsep) (ls : List (List (Fin n))) :
    ∃ ks, extendMinsep g x ls minsep = some ks ∧ GrownFound g (insert x U) ls ks ∧
      (g.toSimple.IsPmc (insert x (vset minsep)) →
        insert x (vset minsep) ∈ listed ks) := by
  have hnd' : (minsep ++ [x]).Nodup :=
    hnd.append (List.nodup_singleton x) (by simpa using hx)
  obtain ⟨ext, hext, hextiff⟩ := extend2_spec h.valid hx
  obtain ⟨full, hfull, hfulliff⟩ := hasFullComponent_spec h.valid hnd'
  rw [vset_append_singleton] at hfulliff
  rw [extendMinsep, hext, Option.bind_eq_bind, Option.bind_some]
  cases ext with
  | false =>
      refine ⟨ls, rfl, GrownFound.refl ls, fun hpmc => ?_⟩
      cases hextiff.mpr (VertexAdded.isFullComponent_of_mem hpmc hx)
  | true =>
      rw [if_pos rfl, hfull, Option.bind_some]
      cases full with
      | true =>
          refine ⟨ls, rfl, GrownFound.refl ls, fun hpmc => ?_⟩
          obtain ⟨C, hC⟩ := hfulliff.mp rfl
          exact absurd hC.nbhd_eq (hpmc.no_full C hC.isComponent)
      | false =>
          have hno : ∀ C, ¬g.toSimple.IsFullComponent (insert x (vset minsep)) C :=
            fun C hC => by cases hfulliff.mpr ⟨C, hC⟩
          refine ⟨ls ++ [minsep ++ [x]], rfl, GrownFound.append ls ⟨hnd', ?_, ?_⟩,
            fun _ => ⟨minsep ++ [x], by simp, vset_append_singleton minsep x⟩⟩
          · rw [vset_append_singleton]
            exact hS.isPmc_extend hx (hextiff.mp rfl) hno
          · rw [vset_append_singleton]
            exact Set.insert_subset (Set.mem_insert x U)
              (h.subset_of_isMinimalSeparator hS)

/-! ## Candidates from two separators -/

theorem vset_candidate (minsep minsep2 c : List (Fin n)) :
    vset (candidate minsep minsep2 c) = vset minsep ∪ (vset minsep2 ∩ vset c) := by
  ext v
  simp only [candidate, vset_append, Set.mem_union, mem_vset, List.mem_filter,
    Bool.and_eq_true, decide_eq_true_iff, Set.mem_inter_iff]
  tauto

theorem nodup_candidate {minsep minsep2 : List (Fin n)} (hnd : minsep.Nodup)
    (hnd2 : minsep2.Nodup) (c : List (Fin n)) : (candidate minsep minsep2 c).Nodup := by
  refine hnd.append (hnd2.filter _) fun v hv hv' => ?_
  simp only [List.mem_filter, Bool.and_eq_true, decide_eq_true_iff] at hv'
  exact hv'.2.2 hv

/-- Every tried candidate that is a potential maximal clique is listed. -/
def TriedListed (g : Graph n)
    (s : List (List (Fin n)) × List (List (Fin n))) : Prop :=
  ∀ l ∈ s.2, g.toSimple.IsPmc (vset l) → vset l ∈ listed s.1

/-- The loops over the second separator and the components. -/
theorem tryCandidates_spec (h : NewVertex g G U x) {minsep : List (Fin n)}
    (hnd : minsep.Nodup) (hS : vset minsep ⊆ insert x U)
    (pairs : List (List (Fin n) × List (Fin n)))
    (hpairs : ∀ p ∈ pairs, p.1.Nodup ∧ vset p.1 ⊆ insert x U)
    (s : List (List (Fin n)) × List (List (Fin n))) (hs : TriedListed g s) :
    ∃ s', tryCandidates g minsep pairs s = some s' ∧ TriedListed g s' ∧
      GrownFound g (insert x U) s.1 s'.1 ∧
      ∀ p ∈ pairs, vset minsep ∪ (vset p.1 ∩ vset p.2) ≠ vset minsep →
        g.toSimple.IsPmc (vset minsep ∪ (vset p.1 ∩ vset p.2)) →
        vset minsep ∪ (vset p.1 ∩ vset p.2) ∈ listed s'.1 := by
  induction pairs generalizing s with
  | nil => exact ⟨s, rfl, hs, GrownFound.refl _, by simp⟩
  | cons p pairs ih =>
      have hpairs' := fun q hq => hpairs q (List.mem_cons_of_mem p hq)
      obtain ⟨hp2, hpU⟩ := hpairs p (by simp)
      have hset : vset (sort (candidate minsep p.1 p.2)) =
          vset minsep ∪ (vset p.1 ∩ vset p.2) := by
        rw [vset_sort, vset_candidate]
      have hsortnd : (sort (candidate minsep p.1 p.2)).Nodup :=
        sort_nodup (nodup_candidate hnd hp2 p.2)
      -- The rest of the loop, from a state in which this candidate is done.
      have finish : ∀ s₁ : List (List (Fin n)) × List (List (Fin n)),
          TriedListed g s₁ → GrownFound g (insert x U) s.1 s₁.1 →
          (vset minsep ∪ (vset p.1 ∩ vset p.2) ≠ vset minsep →
            g.toSimple.IsPmc (vset minsep ∪ (vset p.1 ∩ vset p.2)) →
            vset minsep ∪ (vset p.1 ∩ vset p.2) ∈ listed s₁.1) →
          ∃ s', tryCandidates g minsep pairs s₁ = some s' ∧ TriedListed g s' ∧
            GrownFound g (insert x U) s.1 s'.1 ∧
            ∀ q ∈ p :: pairs, vset minsep ∪ (vset q.1 ∩ vset q.2) ≠ vset minsep →
              g.toSimple.IsPmc (vset minsep ∪ (vset q.1 ∩ vset q.2)) →
              vset minsep ∪ (vset q.1 ∩ vset q.2) ∈ listed s'.1 := by
        intro s₁ hs₁ hgrown hp
        obtain ⟨s', hrun, hs', hgrown', hall⟩ := ih hpairs' s₁ hs₁
        refine ⟨s', hrun, hs', hgrown.trans hgrown', List.forall_mem_cons.mpr ⟨?_, hall⟩⟩
        exact fun hne hpmc => listed_mono hgrown'.isPrefix (hp hne hpmc)
      rw [tryCandidates, List.foldlM_cons]
      dsimp only
      by_cases hlen : minsep.length < (candidate minsep p.1 p.2).length
      · rw [if_pos hlen]
        by_cases htried : sort (candidate minsep p.1 p.2) ∈ s.2
        · rw [if_pos htried]
          refine finish s hs (GrownFound.refl _) fun _ hpmc => ?_
          have := hs _ htried
          rw [hset] at this
          exact this hpmc
        · rw [if_neg htried]
          obtain ⟨b, hb, hiff⟩ := isPmc_spec h.valid hsortnd
          rw [hset] at hiff
          rw [hb]
          cases b with
          | true =>
              have hfound : IsFound g (insert x U) (sort (candidate minsep p.1 p.2)) := by
                refine ⟨hsortnd, by rw [hset]; exact hiff.mp rfl, ?_⟩
                rw [hset]
                exact Set.union_subset hS (Set.inter_subset_left.trans hpU)
              have hmem : vset minsep ∪ (vset p.1 ∩ vset p.2) ∈
                  listed (s.1 ++ [sort (candidate minsep p.1 p.2)]) :=
                ⟨_, by simp, hset⟩
              refine finish (s.1 ++ [_], _ :: s.2) (fun l hl hpmc => ?_)
                (GrownFound.append _ hfound) fun _ _ => hmem
              rcases List.mem_cons.mp hl with rfl | hl
              · rw [hset]
                exact hmem
              · exact listed_mono (List.prefix_append _ _) (hs l hl hpmc)
          | false =>
              have hnot : ¬g.toSimple.IsPmc (vset minsep ∪ (vset p.1 ∩ vset p.2)) :=
                fun hpmc => by cases hiff.mpr hpmc
              refine finish (s.1, _ :: s.2) (fun l hl hpmc => ?_) (GrownFound.refl _)
                fun _ hpmc => absurd hpmc hnot
              rcases List.mem_cons.mp hl with rfl | hl
              · rw [hset] at hpmc
                exact absurd hpmc hnot
              · exact hs l hl hpmc
      · -- Nothing was added to the separator.
        rw [if_neg hlen]
        refine finish s hs (GrownFound.refl _) fun hne _ => absurd ?_ hne
        have hfilter : (p.1.filter fun y =>
            decide (y ∈ p.2) && decide (y ∉ minsep)) = [] := by
          rw [candidate, List.length_append] at hlen
          exact List.length_eq_zero_iff.mp (by omega)
        rw [← vset_candidate, candidate, hfilter, List.append_nil]

/-! ## The loop over the separators -/

/-- What is known while the new separators are processed: the tried candidates
are accounted for and the rest of the old separators are separators of the old
graph. -/
structure MinsepInv (g : Graph n) (G : SimpleGraph (Fin n)) (s : MinsepState n) :
    Prop where
  tried : TriedListed g (s.newPmcs, s.tried)
  old : ∀ m ∈ s.oldMinseps, G.IsMinimalSeparator (vset m)

/-- What processing a separator must have listed. -/
structure MinsepGoal (g : Graph n) (G : SimpleGraph (Fin n)) (x : Fin n)
    (newMinseps : List (List (Fin n))) (minsep : List (Fin n))
    (M : Set (Set (Fin n))) : Prop where
  extend : x ∉ minsep → g.toSimple.IsPmc (insert x (vset minsep)) →
    insert x (vset minsep) ∈ M
  combine : x ∉ minsep → ¬G.IsMinimalSeparator (vset minsep) → ∀ T ∈ newMinseps,
    ∀ C, g.toSimple.IsComponent (vset minsep) C →
      vset minsep ∪ (vset T ∩ C) ≠ vset minsep →
      g.toSimple.IsPmc (vset minsep ∪ (vset T ∩ C)) → vset minsep ∪ (vset T ∩ C) ∈ M

theorem MinsepGoal.mono {G : SimpleGraph (Fin n)} {x : Fin n}
    {newMinseps : List (List (Fin n))} {minsep : List (Fin n)}
    {M M' : Set (Set (Fin n))} (h : MinsepGoal g G x newMinseps minsep M)
    (hM : M ⊆ M') : MinsepGoal g G x newMinseps minsep M' :=
  ⟨fun hx hpmc => hM (h.extend hx hpmc), fun hx hG T hT C hC hne hpmc =>
    hM (h.combine hx hG T hT C hC hne hpmc)⟩

theorem two_le_length_components (hg : g.Valid) {minsep : List (Fin n)}
    (hS : g.toSimple.IsMinimalSeparator (vset minsep)) :
    2 ≤ (g.components minsep).length := by
  obtain ⟨A, B, hAB, hA, hB⟩ := hS
  have hcs := components_spec hg minsep
  obtain ⟨a, ha, haA⟩ := hcs.exists_eq hA.isComponent
  obtain ⟨b, hb, hbB⟩ := hcs.exists_eq hB.isComponent
  by_contra hlt
  have hone : (g.components minsep).length ≤ 1 := by omega
  have hab : a = b := by
    match g.components minsep, hone, ha, hb with
    | [c], _, ha, hb => rw [List.mem_singleton.mp ha, List.mem_singleton.mp hb]
  exact hAB (by rw [← haA, ← hbB, hab])

/-- Processing one separator. -/
theorem processMinsep_spec (h : NewVertex g G U x) {newMinseps : List (List (Fin n))}
    (hlist : IsSeparatorList g newMinseps) {minsep : List (Fin n)}
    (hmem : minsep ∈ newMinseps) {s : MinsepState n} (hs : MinsepInv g G s) :
    ∃ s', processMinsep g newMinseps x s minsep = some s' ∧ MinsepInv g G s' ∧
      GrownFound g (insert x U) s.newPmcs s'.newPmcs ∧
      MinsepGoal g G x newMinseps minsep (listed s'.newPmcs) := by
  have hS := hlist.isMinimalSeparator minsep hmem
  have hnd : minsep.Nodup := (hlist.sorted minsep hmem).imp ne_of_lt
  rw [processMinsep]
  by_cases hx : x ∈ minsep
  · rw [if_pos hx]
    exact ⟨s, rfl, hs, GrownFound.refl _, fun hx' => absurd hx hx',
      fun hx' => absurd hx hx'⟩
  · rw [if_neg hx]
    obtain ⟨ks, hext, hgrown, hgoal⟩ := h.extendMinsep_spec hnd hS hx s.newPmcs
    rw [hext, Option.bind_eq_bind, Option.bind_some]
    dsimp only
    have hsub : ∀ m ∈ s.oldMinseps.dropWhile fun old => decide (old < minsep),
        G.IsMinimalSeparator (vset m) := fun m hm =>
      hs.old m ((List.dropWhile_sublist _).mem hm)
    have htried : TriedListed g (ks, s.tried) := fun l hl hpmc =>
      listed_mono hgrown.isPrefix (hs.tried l hl hpmc)
    by_cases hhead : (s.oldMinseps.dropWhile fun old => decide (old < minsep)).head? =
        some minsep
    · -- The separator is an old one.
      rw [if_pos hhead]
      have hold := hsub minsep (List.mem_of_mem_head? hhead)
      exact ⟨_, rfl, ⟨htried, hsub⟩, hgrown, fun _ => hgoal,
        fun _ hG => absurd hold hG⟩
    · rw [if_neg hhead, if_pos (by
        rw [List.length_map]
        exact two_le_length_components h.valid hS)]
      obtain ⟨r, hrun, htried', hgrown', hall⟩ := h.tryCandidates_spec hnd
        (h.subset_of_isMinimalSeparator hS)
        (newMinseps.flatMap fun minsep2 =>
          ((g.components minsep).map sort).map fun c => (minsep2, c))
        (fun p hp => by
          obtain ⟨T, hT, hp⟩ := List.mem_flatMap.mp hp
          obtain ⟨c, -, rfl⟩ := List.mem_map.mp hp
          exact ⟨(hlist.sorted T hT).imp ne_of_lt,
            h.subset_of_isMinimalSeparator (hlist.isMinimalSeparator T hT)⟩)
        (ks, s.tried) htried
      rw [hrun]
      refine ⟨_, rfl, ⟨htried', hsub⟩, hgrown.trans hgrown',
        fun _ hpmc => listed_mono hgrown'.isPrefix (hgoal hpmc), ?_⟩
      intro _ _ T hT C hC hne hpmc
      obtain ⟨c, hc, rfl⟩ := (components_spec h.valid minsep).exists_eq hC
      have hp := hall (T, sort c) (List.mem_flatMap.mpr ⟨T, hT, List.mem_map.mpr
        ⟨sort c, List.mem_map.mpr ⟨c, hc, rfl⟩, rfl⟩⟩)
      rw [vset_sort] at hp
      exact hp hne hpmc

/-- The loop over the separators. -/
theorem minsepLoop_spec (h : NewVertex g G U x) {newMinseps : List (List (Fin n))}
    (hlist : IsSeparatorList g newMinseps) (rest : List (List (Fin n)))
    (hrest : ∀ m ∈ rest, m ∈ newMinseps) {s : MinsepState n} (hs : MinsepInv g G s) :
    ∃ s', rest.foldlM (processMinsep g newMinseps x) s = some s' ∧
      GrownFound g (insert x U) s.newPmcs s'.newPmcs ∧
      ∀ m ∈ rest, MinsepGoal g G x newMinseps m (listed s'.newPmcs) := by
  induction rest generalizing s with
  | nil => exact ⟨s, rfl, GrownFound.refl _, by simp⟩
  | cons m rest ih =>
      obtain ⟨s₁, hstep, hs₁, hgrown, hgoal⟩ :=
        h.processMinsep_spec hlist (hrest m (by simp)) hs
      obtain ⟨s₂, hrun, hgrown', hgoals⟩ := ih (fun k hk => hrest k (by simp [hk])) hs₁
      refine ⟨s₂, ?_, hgrown.trans hgrown', List.forall_mem_cons.mpr
        ⟨hgoal.mono (listed_mono hgrown'.isPrefix), hgoals⟩⟩
      rw [List.foldlM_cons, hstep]
      exact hrun

/-- The loop over the cliques of the old graph. -/
theorem pmcLoop_spec (h : NewVertex g G U x) (pmcs : List (List (Fin n)))
    (hnd : ∀ l ∈ pmcs, l.Nodup) (hP : ∀ l ∈ pmcs, G.IsPmc (vset l) ∧ vset l ⊆ U)
    (ls : List (List (Fin n))) :
    ∃ ks, pmcs.foldlM (extendPmc g x) ls = some ks ∧
      GrownFound g (insert x U) ls ks ∧ ∀ l ∈ pmcs,
        (g.toSimple.IsPmc (vset l) → vset l ∈ listed ks) ∧
        (g.toSimple.IsPmc (insert x (vset l)) → insert x (vset l) ∈ listed ks) := by
  induction pmcs generalizing ls with
  | nil => exact ⟨ls, rfl, GrownFound.refl _, by simp⟩
  | cons l pmcs ih =>
      obtain ⟨hPl, hUl⟩ := hP l (by simp)
      obtain ⟨ls₁, hstep, hgrown, hkeep, hext⟩ :=
        h.extendPmc_spec (hnd l (by simp)) hPl hUl ls
      obtain ⟨ks, hrun, hgrown', hall⟩ := ih (fun k hk => hnd k (by simp [hk]))
        (fun k hk => hP k (by simp [hk])) ls₁
      have hmono := listed_mono hgrown'.isPrefix
      refine ⟨ks, ?_, hgrown.trans hgrown', List.forall_mem_cons.mpr
        ⟨⟨fun hpmc => hmono (hkeep hpmc), fun hpmc => hmono (hext hpmc)⟩, hall⟩⟩
      rw [List.foldlM_cons, hstep]
      exact hrun

/-- `OneMoreVertex` lists exactly the potential maximal cliques of the new
graph. -/
theorem oneMoreVertex_spec (h : NewVertex g G U x) {pmcs minseps newMinseps :
    List (List (Fin n))} (hpmcs : IsOldList G U pmcs)
    (hminseps : ∀ m ∈ minseps, G.IsMinimalSeparator (vset m))
    (hlist : IsSeparatorList g newMinseps)
    (hall : ∀ S, g.toSimple.IsMinimalSeparator S → S ∈ listed newMinseps) :
    ∃ ks, oneMoreVertex g pmcs minseps newMinseps x = some ks ∧
      IsOldList g.toSimple (insert x U) ks := by
  obtain ⟨ls, hfirst, hgrown, hgoal⟩ := h.pmcLoop_spec pmcs hpmcs.nodup hpmcs.isPmc []
  obtain ⟨s, hsecond, hgrown', hgoals⟩ := h.minsepLoop_spec (G := G) hlist newMinseps
    (fun m hm => hm) (s := ⟨ls, minseps, []⟩) ⟨fun l hl => (List.not_mem_nil hl).elim, hminseps⟩
  have hfound : ∀ l ∈ s.newPmcs, IsFound g (insert x U) l := fun l hl => by
    rcases (hgrown.trans hgrown').found l hl with hnil | hl
    · cases hnil
    · exact hl
  have hmono : listed ls ⊆ listed s.newPmcs := listed_mono hgrown'.isPrefix
  refine ⟨s.newPmcs, ?_, fun l hl => (hfound l hl).nodup,
    fun l hl => ⟨(hfound l hl).isPmc, (hfound l hl).subset⟩, fun Ω hΩ hsub => ?_⟩
  · rw [oneMoreVertex, hfirst, Option.bind_eq_bind, Option.bind_some, hsecond]
    rfl
  by_cases hx : x ∈ Ω
  · -- The clique without `x` is an old clique or a minimal separator.
    obtain ⟨P, rfl, hxP⟩ : ∃ P, insert x P = Ω ∧ x ∉ P :=
      ⟨Ω \ {x}, by rw [Set.insert_sdiff_singleton, Set.insert_eq_of_mem hx],
        fun hxP => hxP.2 rfl⟩
    obtain ⟨w, hw⟩ := h.adj
    rcases h.added.cases_of_mem hΩ hxP hw with hP | hP
    · have hPU : P ⊆ U := fun v hv =>
        (hsub (Or.inr hv)).resolve_left fun hvx => hxP (hvx ▸ hv)
      obtain ⟨l, hl, rfl⟩ := hpmcs.complete P hP hPU
      exact hmono ((hgoal l hl).2 hΩ)
    · obtain ⟨m, hm, rfl⟩ := hall P hP
      exact (hgoals m hm).extend hxP hΩ
  · rcases h.added.cases_of_notMem hΩ hx with hP | ⟨S, T, C, hS, hxS, hSG, hT, hC, rfl, hne⟩
    · have hPU : Ω ⊆ U := fun v hv =>
        (hsub hv).resolve_left fun hvx => hx (hvx ▸ hv)
      obtain ⟨l, hl, rfl⟩ := hpmcs.complete Ω hP hPU
      exact hmono ((hgoal l hl).1 hΩ)
    · obtain ⟨m, hm, rfl⟩ := hall S hS
      obtain ⟨m2, hm2, rfl⟩ := hall T hT
      exact (hgoals m hm).combine hxS hSG m2 hm2 C hC hne.symm hΩ

end NewVertex

end Round

end CombEnumerator

end Triangulator
