import Triangulator.Verification.BtSolve

/-!
# The keys looked up by the Bouchitté-Todinca algorithm

`IdSet::IdOf` may only be called on a key that was inserted.  The separators of
child blocks are always present; a child component is present exactly when some
listed clique produced it.
-/

namespace Triangulator

open SimpleGraph

variable {n : ℕ} {g : Graph n}

namespace BtAlgorithm

variable {pmcs : List (List (Fin n))} {t : Tables n}

/-! ## The order of the children -/

/-- The smallest vertex of `E` is smaller than every vertex of `D`. -/
def Precedes (E D : Set (Fin n)) : Prop :=
  ∃ e ∈ E, ∀ d ∈ D, e < d

/-- Scanning the vertices in increasing order finds the components in the order
of their smallest vertices. -/
theorem childComps_ordered (hg : g.Valid) {Ω C : Set (Fin n)} (vs : List (Fin n))
    (b : Fin n → Bool) (cs : List (List (Fin n))) (h : ComponentScan g Ω b cs)
    (hsorted : vs.Pairwise (· < ·))
    (hsub : ∀ c ∈ childComps g vs b, vset c ⊆ C)
    (hC : ∀ x ∈ C, b x = false → x ∈ vs) :
    (childComps g vs b).Pairwise fun c d => Precedes (vset c) (vset d) := by
  induction vs generalizing b cs with
  | nil => exact List.Pairwise.nil
  | cons v vs ih =>
      rw [List.pairwise_cons] at hsorted
      rw [childComps] at hsub ⊢
      by_cases hv : b v = true
      · rw [if_pos hv] at hsub ⊢
        refine ih b cs h hsorted.2 hsub fun x hx hbx => ?_
        rcases List.mem_cons.mp (hC x hx hbx) with rfl | hx
        · rw [hv] at hbx
          cases hbx
        · exact hx
      · rw [if_neg hv] at hsub ⊢
        rw [Bool.not_eq_true] at hv
        obtain ⟨hstep, hvmem⟩ := h.step hg hv
        have hrest : ∀ x ∈ C, (g.findComponentAndMark v b).1 x = false →
            x ∈ vs := by
          intro x hx hbx
          have hmarked := (findComponentAndMark_spec hg hv).marked x
          rw [hbx] at hmarked
          have hor := Bool.or_eq_false_iff.mp hmarked.symm
          rcases List.mem_cons.mp (hC x hx hor.1) with rfl | hx
          · simp [hvmem] at hor
          · exact hx
        refine List.pairwise_cons.mpr ⟨fun d hd => ⟨v, hvmem, fun x hx => ?_⟩,
          ih _ _ hstep hsorted.2 (fun c hc => hsub c (List.mem_cons_of_mem _ hc)) hrest⟩
        -- A later component is unmarked, so its vertices come after `v`.
        refine hsorted.1 x (hrest x (hsub d (List.mem_cons_of_mem _ hd) hx) ?_)
        obtain ⟨hcomp, -, hdisj⟩ := childComps_scan hg vs _ _ hstep
        rw [← Bool.not_eq_true]
        intro hmark
        obtain ⟨c, hc, hxc⟩ := hstep.cover x ((hcomp d hd).1.notMem x hx) hmark
        exact (List.pairwise_append.mp hdisj).2.2 c hc d hd x hxc hx

/-- A child in the middle of the list comes after the children that precede
it. -/
theorem mem_take_iff_precedes {pre post : List (List (Fin n))} {D E : List (Fin n)}
    (hord : (pre ++ D :: post).Pairwise fun c d => Precedes (vset c) (vset d))
    (hE : E ∈ pre ++ D :: post) : E ∈ pre ↔ Precedes (vset E) (vset D) := by
  obtain ⟨-, htail, hcross⟩ := List.pairwise_append.mp hord
  refine ⟨fun h => hcross E h D List.mem_cons_self, fun ⟨e, he, hlt⟩ => ?_⟩
  rcases List.mem_append.mp hE with h | h
  · exact h
  · exfalso
    rcases List.mem_cons.mp h with rfl | h
    · exact absurd (hlt e he) (lt_irrefl e)
    · obtain ⟨d, hd, hlt'⟩ := (List.pairwise_cons.mp htail).1 E h
      exact absurd (hlt d hd) (not_lt_of_gt (hlt' e he))

/-! ## The keys of one triplet -/

/-- The keys looked up for a triplet are those of the children before the first
missing one, and of that one. -/
theorem mem_lookups_iff {dp : ℕ × ℕ → Option ℤ} {key : Lookup n}
    (vs : List (Fin n)) (b : Fin n → Bool) (cost : ℤ) :
    key ∈ (childrenCost g t dp vs b cost).2 ↔
      ∃ pre D post, childComps g vs b = pre ++ D :: post ∧ key = keyOf g D ∧
        ∀ E ∈ pre, ((childState t (keyOf g E)).bind dp).isSome := by
  induction vs generalizing b cost with
  | nil => simp [childrenCost, childComps]
  | cons v vs ih =>
      rw [childrenCost, childComps]
      by_cases hv : b v = true
      · rw [if_pos hv, if_pos hv]
        exact ih b cost
      · rw [if_neg hv, if_neg hv]
        have hkey : (childKey g v b).2 = keyOf g (g.findComponentAndMark v b).2 := rfl
        have hbits : (childKey g v b).1 = (g.findComponentAndMark v b).1 := rfl
        dsimp only
        rw [hkey, hbits]
        set D₀ := (g.findComponentAndMark v b).2
        set b' := (g.findComponentAndMark v b).1
        have hsplit : (∃ pre D post, D₀ :: childComps g vs b' = pre ++ D :: post ∧
            key = keyOf g D ∧ ∀ E ∈ pre, ((childState t (keyOf g E)).bind dp).isSome) ↔
            key = keyOf g D₀ ∨ (((childState t (keyOf g D₀)).bind dp).isSome ∧
              ∃ pre D post, childComps g vs b' = pre ++ D :: post ∧
                key = keyOf g D ∧
                ∀ E ∈ pre, ((childState t (keyOf g E)).bind dp).isSome) := by
          constructor
          · rintro ⟨pre, D, post, heq, hk, hpre⟩
            cases pre with
            | nil =>
                obtain ⟨rfl, -⟩ := List.cons.inj heq
                exact Or.inl hk
            | cons E pre =>
                obtain ⟨hE, htail⟩ := List.cons.inj heq
                exact Or.inr ⟨hE ▸ hpre E List.mem_cons_self, pre, D, post, htail, hk,
                  fun F hF => hpre F (List.mem_cons_of_mem _ hF)⟩
          · rintro (hk | ⟨hsome, pre, D, post, heq, hk, hpre⟩)
            · exact ⟨[], D₀, _, rfl, hk, by simp⟩
            · exact ⟨D₀ :: pre, D, post, by rw [heq]; rfl, hk,
                List.forall_mem_cons.mpr ⟨hsome, hpre⟩⟩
        rw [hsplit]
        cases hbind : (childState t (keyOf g D₀)).bind dp with
        | none => simp
        | some c =>
            dsimp only
            rw [List.mem_cons, ih]
            simp

/-! ## Which children are present -/

/-- The block has a minimal triangulation whose maximal cliques are all
listed. -/
def IsSolvable (g : Graph n) (pmcs : List (List (Fin n))) (S C : Set (Fin n)) :
    Prop :=
  ∃ H, g.toSimple.BlockSolution (cliqueSets pmcs) S C H

/-- Some listed clique has a component `O` outside such that `D` is the component
without `N(O)` that contains the rest of the clique. -/
def IsProduced (g : Graph n) (pmcs : List (List (Fin n))) (D : Set (Fin n)) :
    Prop :=
  ∃ pmc ∈ pmcs, ∃ O, g.toSimple.IsComponent (vset pmc) O ∧
    g.toSimple.IsComponent (g.toSimple.nbhd O) D ∧
    ∃ w ∈ pmc, w ∉ g.toSimple.nbhd O ∧ w ∈ D

/-- Every child component that is preceded only by solvable children is
produced. -/
def ChildrenProduced (g : Graph n) (pmcs : List (List (Fin n))) : Prop :=
  ∀ pmc ∈ pmcs, ∀ S C, g.toSimple.IsPlaced (vset pmc) S C →
    ∀ D, g.toSimple.IsComponent (vset pmc) D → D ⊆ C →
      (∀ E, g.toSimple.IsComponent (vset pmc) E → E ⊆ C → Precedes E D →
        IsSolvable g pmcs (g.toSimple.nbhd E) E) →
      IsProduced g pmcs D

theorem isSome_blockValue_iff {S C : Set (Fin n)} :
    (g.toSimple.blockValue (cliqueSets pmcs) S C).isSome ↔ IsSolvable g pmcs S C := by
  rw [Option.isSome_iff_exists]
  constructor
  · rintro ⟨c, hc⟩
    obtain ⟨H, hH, -⟩ := exists_solution_of_blockValue hc
    exact ⟨H, hH⟩
  · rintro ⟨H, hH⟩
    obtain ⟨c, hc, -⟩ := hH.blockValue_le
    exact ⟨c, hc⟩

/-- A child has an entry exactly when its block is solvable. -/
theorem isSome_child_iff (hn : 0 < n) (hg : g.Valid) (hbuilt : Built g pmcs t)
    {D : List (Fin n)} (hD : D.Nodup)
    (hstate : g.toSimple.IsStateBlock (g.toSimple.nbhd (vset D)) (vset D)) :
    ((childState t (keyOf g D)).bind (stateValue g pmcs t)).isSome ↔
      IsSolvable g pmcs (g.toSimple.nbhd (vset D)) (vset D) := by
  have : Nonempty (Fin n) := ⟨⟨0, hn⟩⟩
  constructor
  · intro h
    obtain ⟨c, hc⟩ := Option.isSome_iff_exists.mp h
    obtain ⟨st, hst, hval⟩ := Option.bind_eq_some_iff.mp hc
    rw [childState_eq_some_iff hbuilt.valid hg hD] at hst
    rw [hst.stateValue] at hval
    exact isSome_blockValue_iff.mp (by simp [hval])
  · rintro ⟨H, hH⟩
    obtain ⟨Ω, ⟨pmc, hmem, rfl⟩, -, hpl, -⟩ := hH.exists_placed hstate
    obtain ⟨i, hi⟩ := List.mem_iff_getElem?.mp hmem
    obtain ⟨st, -, hst⟩ := hbuilt.complete i pmc hi _ _ hpl
    rw [(childState_eq_some_iff hbuilt.valid hg hD).mpr hst, Option.bind_some,
      hst.stateValue]
    exact isSome_blockValue_iff.mpr ⟨H, hH⟩

/-- The component key of a child is present exactly when the child is
produced. -/
theorem isSome_component_iff (hbuilt : Built g pmcs t)
    {pmc D : List (Fin n)} (hD : D.Nodup)
    (hne : pmc ≠ []) (hcomp : g.toSimple.IsComponent (vset pmc) (vset D)) :
    (t.components.idOf (keyOf g D).2).isSome ↔ IsProduced g pmcs (vset D) := by
  rw [hbuilt.valid.components.idOf_isSome_iff]
  have hsorted : (keyOf g D).2.Pairwise (· < ·) := sort_sortedLT hD
  have hset : vset (keyOf g D).2 = vset D := vset_sort D
  constructor
  · intro hmem
    rcases hbuilt.components _ hmem with heq | ⟨triplet, htr, hget⟩
    · -- The set of all vertices meets the clique.
      obtain ⟨w, hw⟩ := List.exists_mem_of_ne_nil pmc hne
      have : w ∈ vset (keyOf g D).2 := by simp [heq]
      exact absurd hw (hcomp.notMem w (hset ▸ this))
    · obtain ⟨pmc', S, C, hget', hst, hpl⟩ := hbuilt.sound triplet htr
      have hC : C = vset D := by
        obtain ⟨s, c, -, hc, -, rfl⟩ := hst
        rw [hget, Option.some_inj] at hc
        rw [← hc, hset]
      subst hC
      rcases hpl with ⟨-, huniv⟩ | ⟨O, hO, rfl, hC, w, hw, hwS, hwC⟩
      · obtain ⟨w, hw⟩ := List.exists_mem_of_ne_nil pmc hne
        have : w ∈ vset D := by rw [huniv]; trivial
        exact absurd hw (hcomp.notMem w this)
      · exact ⟨pmc', List.mem_of_getElem? hget', O, hO, hC, w, hw, hwS, hwC⟩
  · rintro ⟨pmc', hmem', O, hO, hC, w, hw, hwS, hwC⟩
    obtain ⟨i, hi⟩ := List.mem_iff_getElem?.mp hmem'
    obtain ⟨st, -, s, c, -, hc, -, hcD⟩ := hbuilt.complete i pmc' hi _ _
      (Or.inr ⟨O, hO, rfl, hC, w, hw, hwS, hwC⟩)
    have hmemc := List.mem_of_getElem? hc
    rwa [eq_of_vset_eq hsorted (hbuilt.valid.comp_sorted c hmemc) (by rw [hset, hcD])]

/-- The separator key of a child is always present. -/
theorem isSome_separator (hg : g.Valid) (hpmcs : IsPmcList g pmcs)
    (hbuilt : Built g pmcs t) {pmc D : List (Fin n)} (hmem : pmc ∈ pmcs)
    (hcomp : g.toSimple.IsComponent (vset pmc) (vset D)) :
    (t.separators.idOf (keyOf g D).1).isSome := by
  rw [hbuilt.valid.separators.idOf_isSome_iff]
  have hpmc := isPmc_of_mem hpmcs hmem
  obtain ⟨w, hw, hwD⟩ := hpmc.exists_notMem_nbhd hcomp
  obtain ⟨i, hi⟩ := List.mem_iff_getElem?.mp hmem
  obtain ⟨st, -, s, c, hs, -, hsS, -⟩ := hbuilt.complete i pmc hi _ _
    (Or.inr ⟨vset D, hcomp, rfl, isComponent_componentOf hwD, w, hw, hwD,
      mem_componentOf_self⟩)
  have hmems := List.mem_of_getElem? hs
  have hsorted : (keyOf g D).1.Pairwise (· < ·) :=
    sort_sortedLT ((neighbors_sorted g D).imp ne_of_lt)
  rwa [eq_of_vset_eq hsorted (hbuilt.valid.sep_sorted s hmems)
    (by rw [keyOf, vset_sort, vset_neighbors hg, hsS])]

/-! ## All keys of a run -/

theorem Tables.IsState.sorted (ht : t.Valid) {st : ℕ × ℕ} {S C : Set (Fin n)}
    (h : t.IsState st S C) : (t.components.get st.2).Pairwise (· < ·) := by
  obtain ⟨s, c, -, hc, -, -⟩ := h
  simpa [IdSet.get, List.getD_eq_getElem?_getD, hc] using
    ht.comp_sorted c (List.mem_of_getElem? hc)

/-- The children of a placed clique are listed in the order of their smallest
vertices. -/
theorem Placement.ordered (hg : g.Valid) (ht : t.Valid) {triplet : ℕ × ℕ × ℕ}
    {pmc : List (Fin n)} {S C : Set (Fin n)}
    (h : Placement g pmcs t triplet pmc S C) :
    (childComps g (t.components.get triplet.2.2)
      (mark (fun _ => false) pmc)).Pairwise
        fun c d => Precedes (vset c) (vset d) := by
  have hcs := h.childList hg
  refine childComps_ordered hg (Ω := vset pmc) (C := C) _ _ []
    (componentScan_mark pmc) (h.state.sorted ht) hcs.subset fun x hx _ => ?_
  rw [← h.state.get.2] at hx
  exact hx

/-- The keys of the dynamic program are all present exactly when every child
preceded only by solvable children is produced. -/
theorem keysPresent_dp_iff (ks : KeySort) (hn : 0 < n) (hg : g.Valid)
    (hpmcs : IsPmcList g pmcs) (hbuilt : Built g pmcs t) :
    KeysPresent t (runDp g pmcs t (ks.run (tripletSize t) t.triplets)).2 ↔
      ChildrenProduced g pmcs := by
  have : Nonempty (Fin n) := ⟨⟨0, hn⟩⟩
  have hkeys := (runDp_spec ks hn hg hpmcs hbuilt).2
  have hnonempty : ∀ {pmc : List (Fin n)}, g.toSimple.IsPmc (vset pmc) → pmc ≠ [] := by
    rintro pmc hpmc rfl
    obtain ⟨w, hw⟩ := hpmc.nonempty
    cases hw
  constructor
  · intro hpresent pmc hmem S C hpl D hD hDC hbefore
    obtain ⟨i, hi⟩ := List.mem_iff_getElem?.mp hmem
    obtain ⟨st, htr, hst⟩ := hbuilt.complete i pmc hi S C hpl
    have hplace : Placement g pmcs t (i, st) pmc S C :=
      ⟨by simp [List.getD_eq_getElem?_getD, hi], hmem, (hpmcs pmc hmem).1,
        isPmc_of_mem hpmcs hmem, hst, hpl⟩
    have hcs := hplace.childList hg
    obtain ⟨l, hl, rfl⟩ := hcs.complete D hD hDC
    obtain ⟨pre, post, hsplit⟩ := List.append_of_mem hl
    have hord := hplace.ordered hg hbuilt.valid
    rw [hsplit] at hord
    have hkey := (hkeys (keyOf g l)).mpr ⟨(i, st), htr, by
      rw [hplace.get, mem_lookups_iff]
      refine ⟨pre, l, post, hsplit, rfl, fun E hE => ?_⟩
      have hEmem : E ∈ pre ++ l :: post := List.mem_append_left _ hE
      have hprec := (mem_take_iff_precedes hord hEmem).mp hE
      rw [← hsplit] at hEmem
      have hEcomp := hcs.isComponent E hEmem
      rw [isSome_child_iff hn hg hbuilt (hcs.nodup E hEmem)
        (hplace.isPmc.isStateBlock_child hEcomp)]
      exact hbefore _ hEcomp (hcs.subset E hEmem) hprec⟩
    exact (isSome_component_iff hbuilt (hcs.nodup l hl) (hnonempty hplace.isPmc) hD).mp
      (hpresent _ hkey).2
  · intro hproduced key hkey
    obtain ⟨triplet, htr, hmem⟩ := (hkeys key).mp hkey
    obtain ⟨pmc, S, C, hplace⟩ := placement_of_means hpmcs (hbuilt.sound triplet htr)
    rw [hplace.get, mem_lookups_iff] at hmem
    obtain ⟨pre, D, post, hsplit, rfl, hpre⟩ := hmem
    have hcs := hplace.childList hg
    have hord := hplace.ordered hg hbuilt.valid
    have hDmem : D ∈ childComps g (t.components.get triplet.2.2)
        (mark (fun _ => false) pmc) := by simp [hsplit]
    have hD := hcs.isComponent D hDmem
    refine ⟨isSome_separator hg hpmcs hbuilt hplace.mem hD,
      (isSome_component_iff hbuilt (hcs.nodup D hDmem) (hnonempty hplace.isPmc) hD).mpr
        (hproduced pmc hplace.mem S C hplace.placed _ hD (hcs.subset D hDmem) ?_)⟩
    intro E hE hEC hprec
    obtain ⟨l, hl, rfl⟩ := hcs.complete E hE hEC
    rw [hsplit] at hord
    have hlpre := (mem_take_iff_precedes hord (hsplit ▸ hl)).mpr hprec
    exact (isSome_child_iff hn hg hbuilt (hcs.nodup l hl)
      (hplace.isPmc.isStateBlock_child hE)).mp (hpre l hlpre)

/-- On the graph without vertices nothing is looked up. -/
theorem run_zero (ks : KeySort) {g : Graph 0} (hg : g.Valid)
    {pmcs : List (List (Fin 0))} (hpmcs : IsPmcList g pmcs) :
    ∃ r, run ks g pmcs = some r ∧ Built g pmcs r.tables := by
  obtain ⟨t, hbuild, hbuilt⟩ := buildTables_spec hg hpmcs
  have hnil : ∀ l : List (Fin 0), l = [] := fun l =>
    List.eq_nil_iff_forall_not_mem.mpr fun v => v.elim0
  rw [run, hbuild, Option.bind_eq_bind, Option.bind_some]
  dsimp only
  split
  · exact ⟨_, rfl, hbuilt⟩
  · rename_i c hdp
    rw [reconstruct, if_pos (by simp [hdp])]
    dsimp only
    rw [hnil (t.components.get _)]
    exact ⟨_, rfl, hbuilt⟩

/-- The keys looked up by `Solve` were all inserted before exactly when every
child preceded only by solvable children is produced by a listed clique. -/
theorem lookups_present_iff (ks : KeySort) (hg : g.Valid)
    (hpmcs : IsPmcList g pmcs) :
    ∃ r, run ks g pmcs = some r ∧
      (KeysPresent r.tables r.lookups ↔ ChildrenProduced g pmcs) := by
  rcases Nat.eq_zero_or_pos n with rfl | hn
  · obtain ⟨r, hrun, hbuilt⟩ := run_zero ks hg hpmcs
    have hnil : ∀ l : List (Fin 0), l = [] := fun l =>
      List.eq_nil_iff_forall_not_mem.mpr fun v => v.elim0
    refine ⟨r, hrun, iff_of_true (fun key _ => ?_) fun _ _ _ _ _ D hD => ?_⟩
    · rw [hbuilt.valid.separators.idOf_isSome_iff,
        hbuilt.valid.components.idOf_isSome_iff, hnil key.1, hnil key.2]
      exact ⟨List.mem_of_getElem? hbuilt.valid.sep_first,
        List.mem_of_getElem? hbuilt.valid.comp_first⟩
    · obtain ⟨v, -⟩ := hD.nonempty
      exact v.elim0
  · obtain ⟨r, hrun, hbuilt, -, keys, hkeys, hlookups⟩ := run_spec ks hn hg hpmcs
    refine ⟨r, hrun, ?_⟩
    rw [← keysPresent_dp_iff ks hn hg hpmcs hbuilt, hlookups]
    refine ⟨fun h key hkey => h key (List.mem_append_left _ hkey), fun h key hkey => ?_⟩
    rcases List.mem_append.mp hkey with hkey | hkey
    · exact h key hkey
    · exact hkeys key hkey

theorem lookups_present_path :
    ∃ g, path = some g ∧ ∃ r, run KeySort.stable g [[0, 1], [1, 2]] = some r ∧
      (KeysPresent r.tables r.lookups ↔ ChildrenProduced g [[0, 1], [1, 2]]) := by
  obtain ⟨g, hg, hvalid, hpmcs⟩ := path_spec
  exact ⟨g, hg, lookups_present_iff KeySort.stable hvalid hpmcs⟩

/-- A triangle with a pendant vertex. -/
def pendantTriangle : Option (Graph 4) :=
  (Graph.empty 4).addEdges [(0, 1), (0, 2), (1, 2), (0, 3)]

/-- With the potential maximal cliques of size at most two listed, which is the
pendant edge alone, the component of the other two triangle vertices is looked
up although it was never inserted. -/
theorem lookup_missing_pendantTriangle :
    ∃ g, pendantTriangle = some g ∧
      (∀ Ω, g.toSimple.IsPotentialMaximalClique Ω ∧ Ω.ncard ≤ 2 ↔
        Ω = vset [0, 3]) ∧
      IsPmcList g [[0, 3]] ∧
      ∃ r, run KeySort.stable g [[0, 3]] = some r ∧
        ¬KeysPresent r.tables r.lookups := by
  obtain ⟨g, hadd, h⟩ := addEdges_spec (Graph.valid_empty 4)
    [(0, 1), (0, 2), (1, 2), (0, 3)] (by decide)
  -- The tests are evaluated on the graph built above.
  have hall : ∀ l ∈ (List.finRange 4).sublists,
      pendantTriangle.bind (fun g => g.isPmc l) = some true → l.length ≤ 2 →
        l = [0, 3] := by decide
  have hpmc : pendantTriangle.bind (fun g => g.isPmc [0, 3]) = some true := by decide
  have hrun : pendantTriangle.bind (fun g => (run KeySort.stable g [[0, 3]]).map
      fun r => r.lookups.all fun key => (r.tables.separators.idOf key.1).isSome &&
        (r.tables.components.idOf key.2).isSome) = some false := by decide
  rw [pendantTriangle] at hall hpmc hrun
  simp only [hadd, Option.bind_some] at hall hpmc hrun
  have hlist : IsPmcList g [[0, 3]] := isPmcList_of_test h.valid (by simpa using hpmc)
  refine ⟨g, hadd, fun Ω => ⟨?_, ?_⟩, hlist, ?_⟩
  · classical
    rintro ⟨hΩ, hcard⟩
    set l := (List.finRange 4).filter fun v => v ∈ Ω
    have hl : vset l = Ω := by
      ext v
      simp [l]
    have hnd : l.Nodup := (List.nodup_finRange 4).filter _
    obtain ⟨b, hb, hiff⟩ := isPmc_spec h.valid hnd
    rw [← hl, ncard_vset hnd] at hcard
    rw [hl] at hiff
    rw [← hl, hall l (List.mem_sublists.mpr List.filter_sublist)
      (by rw [hb, hiff.mpr hΩ]) hcard]
  · rintro rfl
    exact ⟨(hlist _ (by simp)).2, by rw [ncard_vset (by decide)]; decide⟩
  · obtain ⟨r, hr, hmissing⟩ := Option.map_eq_some_iff.mp hrun
    refine ⟨r, hr, fun hpresent => ?_⟩
    rw [← Bool.not_eq_true, List.all_eq_true] at hmissing
    exact hmissing fun key hkey => by simp [hpresent key hkey]

end BtAlgorithm

end Triangulator
