import Triangulator.GraphTheory.BlockChoice
import Triangulator.Model.BtAlgorithm
import Triangulator.Verification.Components

/-!
# The triplets of the Bouchitté-Todinca algorithm

The first loop of `Solve` never fails an assertion on potential maximal
cliques, and its triplets are exactly the pairs of a listed clique and a block
at which the clique is placed.
-/

namespace Triangulator

open SimpleGraph

variable {n : ℕ} {g : Graph n}

/-! ## Identifiers -/

theorem getElem?_of_prefix {α : Type*} {l k : List α} {i : ℕ} {x : α}
    (h : l <+: k) (hx : l[i]? = some x) : k[i]? = some x := by
  obtain ⟨m, rfl⟩ := h
  rwa [List.getElem?_append_left (List.getElem?_eq_some_iff.mp hx).1]

/-- The map of an `IdSet` sends every element to its position. -/
structure IdSet.Valid {α : Type} [DecidableEq α] (s : IdSet α) : Prop where
  nodup : s.elements.Nodup
  idOf_iff : ∀ x i, s.idOf x = some i ↔ s.elements[i]? = some x

namespace IdSet

variable {α : Type} [DecidableEq α] {s : IdSet α} {x y : α}

theorem valid_empty : (IdSet.empty : IdSet α).Valid :=
  ⟨List.nodup_nil, fun x i => by simp [IdSet.empty, IdSet.idOf]⟩

theorem Valid.idOf_isSome_iff (hs : s.Valid) :
    (s.idOf x).isSome ↔ x ∈ s.elements := by
  rw [Option.isSome_iff_exists, List.mem_iff_getElem?]
  exact exists_congr fun i => hs.idOf_iff x i

/-- What one insertion does. -/
structure InsertSpec (s : IdSet α) (x : α) (r : ℕ × IdSet α) : Prop where
  valid : r.2.Valid
  get : r.2.elements[r.1]? = some x
  grows : s.elements <+: r.2.elements
  mem : ∀ y ∈ r.2.elements, y ∈ s.elements ∨ y = x

theorem Valid.insert (hs : s.Valid) (x : α) : InsertSpec s x (s.insert x) := by
  unfold IdSet.insert
  cases h : s.ids.lookup x with
  | some id =>
      exact ⟨hs, (hs.idOf_iff x id).mp h, List.prefix_rfl, fun y hy => Or.inl hy⟩
  | none =>
      have hnot : x ∉ s.elements := by
        rw [← hs.idOf_isSome_iff, IdSet.idOf, h]
        simp
      refine ⟨⟨?_, fun y i => ?_⟩, by simp, List.prefix_append _ _, ?_⟩
      · rw [List.nodup_append']
        exact ⟨hs.nodup, List.nodup_singleton x, by simpa using hnot⟩
      · change ((x, s.elements.length) :: s.ids).lookup y = some i ↔
          (s.elements ++ [x])[i]? = some y
        rw [List.lookup_cons, List.getElem?_append]
        by_cases hyx : y = x
        · subst hyx
          simp only [beq_self_eq_true, Option.some_inj]
          split
          · rename_i hi
            refine ⟨fun h => by omega, fun hy => ?_⟩
            exact absurd (List.mem_of_getElem? hy) hnot
          · rw [List.getElem?_singleton]
            split <;> simp <;> omega
        · rw [beq_false_of_ne hyx]
          change s.idOf y = some i ↔ _
          rw [hs.idOf_iff]
          split
          · rfl
          · rename_i hi
            rw [List.getElem?_eq_none (by omega), List.getElem?_singleton]
            split <;> simp [Ne.symm hyx]
      · intro y hy
        simpa using hy

end IdSet

namespace BtAlgorithm

/-! ## The component of the rest of a clique -/

/-- Once the component of the rest is marked, the loop finds nothing more. -/
theorem restComponent_fold_marked {l : List (Fin n)}
    {s : (Fin n → Bool) × List (Fin n) × ℕ} (h : ∀ v ∈ l, s.1 v = true) :
    l.foldl (fun (s : (Fin n → Bool) × List (Fin n) × ℕ) v =>
      if s.1 v then s
      else ((g.findComponentAndMark v s.1).1, (g.findComponentAndMark v s.1).2,
        s.2.2 + 1)) s = s := by
  induction l with
  | nil => rfl
  | cons v l ih =>
      rw [List.foldl_cons, if_pos (h v (by simp))]
      exact ih fun w hw => h w (by simp [hw])

/-- The rest of the clique lies in one component of the graph without the
separator, so exactly one component is found. -/
theorem restComponent_spec (hg : g.Valid) (separator pmc : List (Fin n))
    {C : Set (Fin n)} (hC : g.toSimple.IsComponent (vset separator) C)
    (hpmc : ∀ v ∈ pmc, v ∈ separator ∨ v ∈ C) (hex : ∃ v ∈ pmc, v ∈ C) :
    (restComponent g pmc (mark (fun _ => false) separator)).2 = 1 ∧
      vset (restComponent g pmc (mark (fun _ => false) separator)).1 = C ∧
      (restComponent g pmc (mark (fun _ => false) separator)).1.Nodup := by
  unfold restComponent
  induction pmc with
  | nil =>
      obtain ⟨v, hv, -⟩ := hex
      cases hv
  | cons v pmc ih =>
      rw [List.foldl_cons]
      by_cases hvS : v ∈ separator
      · rw [if_pos (by simp [mark_false_apply, hvS])]
        refine ih (fun w hw => hpmc w (by simp [hw])) ?_
        obtain ⟨w, hw, hwC⟩ := hex
        rcases List.mem_cons.mp hw with rfl | hw
        · exact absurd hvS (hC.notMem w hwC)
        · exact ⟨w, hw, hwC⟩
      · have hv : mark (fun _ => false) separator v = false :=
          mark_false_eq_false_iff.mpr hvS
        rw [if_neg (by simp [hv])]
        have hres := findComponentAndMark_spec hg hv
        obtain ⟨hcomp, -⟩ := hres.isComponent (marksComponents_mark separator) hv
        have hvC : v ∈ C := (hpmc v (by simp)).resolve_left hvS
        have heq := hcomp.eq_of_mem hC ((hres.mem_iff v).mpr (ReachIn.refl v)) hvC
        rw [restComponent_fold_marked]
        · exact ⟨rfl, heq, hres.nodup⟩
        · intro w hw
          change (g.findComponentAndMark v _).1 w = true
          rw [hres.marked w, mark_false_apply]
          rcases hpmc w (by simp [hw]) with hwS | hwC
          · simp [hwS]
          · rw [← heq] at hwC
            have : w ∈ (g.findComponentAndMark v
                (mark (fun _ => false) separator)).2 := hwC
            simp [this]

/-! ## The tables -/

/-- The tables hold strictly sorted vectors under valid identifiers; the empty
separator and the set of all vertices come first. -/
structure Tables.Valid (t : Tables n) : Prop where
  separators : t.separators.Valid
  components : t.components.Valid
  sep_sorted : ∀ s ∈ t.separators.elements, s.Pairwise (· < ·)
  comp_sorted : ∀ c ∈ t.components.elements, c.Pairwise (· < ·)
  sep_first : t.separators.elements[noneSepId n]? = some []
  comp_first : t.components.elements[allCompId n]? = some (List.finRange n)

/-- Later tables only add entries. -/
structure Tables.Grows (t t' : Tables n) : Prop where
  separators : t.separators.elements <+: t'.separators.elements
  components : t.components.elements <+: t'.components.elements

theorem Tables.Grows.refl (t : Tables n) : t.Grows t :=
  ⟨List.prefix_rfl, List.prefix_rfl⟩

theorem Tables.Grows.trans {t t' t'' : Tables n} (h : t.Grows t')
    (h' : t'.Grows t'') : t.Grows t'' :=
  ⟨h.separators.trans h'.separators, h.components.trans h'.components⟩

/-- The block that a pair of identifiers stands for. -/
def Tables.IsState (t : Tables n) (st : ℕ × ℕ) (S C : Set (Fin n)) : Prop :=
  ∃ s c, t.separators.elements[st.1]? = some s ∧
    t.components.elements[st.2]? = some c ∧ vset s = S ∧ vset c = C

theorem Tables.IsState.grows {t t' : Tables n} (h : t.Grows t') {st : ℕ × ℕ}
    {S C : Set (Fin n)} (hst : t.IsState st S C) : t'.IsState st S C := by
  obtain ⟨s, c, hs, hc, h1, h2⟩ := hst
  exact ⟨s, c, getElem?_of_prefix h.separators hs, getElem?_of_prefix h.components hc,
    h1, h2⟩

theorem Tables.IsState.unique {t : Tables n} {st : ℕ × ℕ} {S C S' C' : Set (Fin n)}
    (h : t.IsState st S C) (h' : t.IsState st S' C') : S = S' ∧ C = C' := by
  obtain ⟨s, c, hs, hc, rfl, rfl⟩ := h
  obtain ⟨s', c', hs', hc', rfl, rfl⟩ := h'
  rw [hs, Option.some_inj] at hs'
  rw [hc, Option.some_inj] at hc'
  subst hs' hc'
  exact ⟨rfl, rfl⟩

/-- Different pairs of identifiers stand for different blocks. -/
theorem Tables.IsState.injective {t : Tables n} (ht : t.Valid) {st st' : ℕ × ℕ}
    {S C : Set (Fin n)} (h : t.IsState st S C) (h' : t.IsState st' S C) :
    st = st' := by
  obtain ⟨s, c, hs, hc, rfl, rfl⟩ := h
  obtain ⟨s', c', hs', hc', hss, hcc⟩ := h'
  have hs_eq := eq_of_vset_eq (ht.sep_sorted s' (List.mem_of_getElem? hs'))
    (ht.sep_sorted s (List.mem_of_getElem? hs)) hss
  have hc_eq := eq_of_vset_eq (ht.comp_sorted c' (List.mem_of_getElem? hc'))
    (ht.comp_sorted c (List.mem_of_getElem? hc)) hcc
  subst hs_eq hc_eq
  have h1 := (ht.separators.idOf_iff _ _).mpr hs
  rw [(ht.separators.idOf_iff _ _).mpr hs', Option.some_inj] at h1
  have h2 := (ht.components.idOf_iff _ _).mpr hc
  rw [(ht.components.idOf_iff _ _).mpr hc', Option.some_inj] at h2
  exact Prod.ext h1.symm h2.symm

theorem Tables.Valid.isState_first {t : Tables n} (ht : t.Valid) :
    t.IsState (noneSepId n, allCompId n) ∅ Set.univ :=
  ⟨[], List.finRange n, ht.sep_first, ht.comp_first, by ext; simp, by ext; simp⟩

/-- A triplet stands for the clique at its index placed at the block of its
identifiers. -/
def Tables.Means (g : Graph n) (pmcs : List (List (Fin n))) (t : Tables n)
    (triplet : ℕ × ℕ × ℕ) : Prop :=
  ∃ pmc S C, pmcs[triplet.1]? = some pmc ∧ t.IsState triplet.2 S C ∧
    g.toSimple.IsPlaced (vset pmc) S C

/-- A list of potential maximal cliques. -/
def IsPmcList (g : Graph n) (pmcs : List (List (Fin n))) : Prop :=
  ∀ pmc ∈ pmcs, pmc.Nodup ∧ g.toSimple.IsPotentialMaximalClique (vset pmc)

/-- One component outside the clique adds the triplet of its block. -/
theorem addOutComponent_spec (hg : g.Valid) {pmc c : List (Fin n)} {i : ℕ}
    {t : Tables n} (ht : t.Valid) (hnd : pmc.Nodup)
    (hpmc : g.toSimple.IsPmc (vset pmc))
    (hc : g.toSimple.IsComponent (vset pmc) (vset c)) :
    ∃ t' C st, addOutComponent g i pmc t c = some t' ∧ t'.Valid ∧ t.Grows t' ∧
      t'.triplets = t.triplets ++ [(i, st)] ∧
      t'.IsState st (g.toSimple.nbhd (vset c)) C ∧
      g.toSimple.IsComponent (g.toSimple.nbhd (vset c)) C ∧
      ∃ w ∈ vset pmc, w ∉ g.toSimple.nbhd (vset c) ∧ w ∈ C := by
  have hN := vset_neighbors hg c
  obtain ⟨w, hw, hwN⟩ := hpmc.exists_notMem_nbhd hc
  have hC := isComponent_componentOf (G := g.toSimple) hwN
  set C := g.toSimple.componentOf (g.toSimple.nbhd (vset c)) w
  have hsepnd : (g.neighbors c).Nodup := (neighbors_sorted g c).imp ne_of_lt
  have hlen : (g.neighbors c).length < pmc.length := by
    rw [← ncard_vset hsepnd, ← ncard_vset hnd, hN]
    exact Set.ncard_lt_ncard ⟨hc.nbhd_subset, fun hsub => hwN (hsub hw)⟩
      (Set.toFinite _)
  obtain ⟨hfound, hrest, hrestnd⟩ := restComponent_spec hg
    (g.neighbors c) pmc (C := C) (hN ▸ hC)
    (fun v hv => by
      by_cases hvN : v ∈ g.neighbors c
      · exact Or.inl hvN
      · rw [mem_neighbors hg] at hvN
        exact Or.inr ((hpmc.mem_or_adj_rest hc hC hw mem_componentOf_self hv).1 hvN))
    ⟨w, hw, mem_componentOf_self⟩
  have hsep := ht.separators.insert (sort (g.neighbors c))
  have hcomp := ht.components.insert
    (sort (restComponent g pmc (mark (fun _ => false) (g.neighbors c))).1)
  refine ⟨_, C, _, by rw [addOutComponent, if_pos hlen]; dsimp only; rw [if_pos hfound],
    ?_, ⟨hsep.grows, hcomp.grows⟩, rfl, ?_, hC, w, hw, hwN, mem_componentOf_self⟩
  · refine ⟨hsep.valid, hcomp.valid, ?_, ?_, ?_, ?_⟩
    · intro s hs
      rcases hsep.mem s hs with hs | rfl
      · exact ht.sep_sorted s hs
      · exact sort_sortedLT hsepnd
    · intro s hs
      rcases hcomp.mem s hs with hs | rfl
      · exact ht.comp_sorted s hs
      · exact sort_sortedLT hrestnd
    · exact getElem?_of_prefix hsep.grows ht.sep_first
    · exact getElem?_of_prefix hcomp.grows ht.comp_first
  · exact ⟨_, _, hsep.get, hcomp.get, by rw [vset_sort, hN], by rw [vset_sort, hrest]⟩

/-- `t'` arises from `t` by adding the triplets `new` of the clique `Ω` with
index `i`. -/
structure AddsTriplets (g : Graph n) (i : ℕ) (Ω : Set (Fin n)) (t t' : Tables n)
    (new : List (ℕ × ℕ × ℕ)) : Prop where
  valid : t'.Valid
  grows : t.Grows t'
  triplets : t'.triplets = t.triplets ++ new
  sound : ∀ triplet ∈ new, triplet.1 = i ∧
    ∃ S C, t'.IsState triplet.2 S C ∧ g.toSimple.IsPlaced Ω S C
  components : ∀ c ∈ t'.components.elements, c ∈ t.components.elements ∨
    ∃ triplet ∈ new, t'.components.elements[triplet.2.2]? = some c

theorem AddsTriplets.refl {t : Tables n} (ht : t.Valid) (i : ℕ)
    (Ω : Set (Fin n)) : AddsTriplets g i Ω t t [] :=
  ⟨ht, Tables.Grows.refl t, by simp, by simp, fun _ hc => Or.inl hc⟩

theorem AddsTriplets.trans {i : ℕ} {Ω : Set (Fin n)} {t t' t'' : Tables n}
    {new new' : List (ℕ × ℕ × ℕ)} (h : AddsTriplets g i Ω t t' new)
    (h' : AddsTriplets g i Ω t' t'' new') :
    AddsTriplets g i Ω t t'' (new ++ new') where
  valid := h'.valid
  grows := h.grows.trans h'.grows
  triplets := by rw [h'.triplets, h.triplets, List.append_assoc]
  sound := by
    intro triplet htr
    rcases List.mem_append.mp htr with htr | htr
    · obtain ⟨hi, S, C, hst, hpl⟩ := h.sound triplet htr
      exact ⟨hi, S, C, hst.grows h'.grows, hpl⟩
    · exact h'.sound triplet htr
  components := by
    intro c hc
    rcases h'.components c hc with hc | ⟨triplet, htr, hget⟩
    · rcases h.components c hc with hc | ⟨triplet, htr, hget⟩
      · exact Or.inl hc
      · exact Or.inr ⟨triplet, List.mem_append_left _ htr,
          getElem?_of_prefix h'.grows.components hget⟩
    · exact Or.inr ⟨triplet, List.mem_append_right _ htr, hget⟩

/-- The loop over the components outside one clique. -/
theorem outComponents_spec (hg : g.Valid) {pmc : List (Fin n)} {i : ℕ}
    (hnd : pmc.Nodup) (hpmc : g.toSimple.IsPmc (vset pmc))
    (cs : List (List (Fin n)))
    (hcs : ∀ c ∈ cs, g.toSimple.IsComponent (vset pmc) (vset c))
    (t : Tables n) (ht : t.Valid) :
    ∃ t' new, cs.foldlM (addOutComponent g i pmc) t = some t' ∧
      AddsTriplets g i (vset pmc) t t' new ∧
      ∀ c ∈ cs, ∃ triplet ∈ new, ∃ C,
        t'.IsState triplet.2 (g.toSimple.nbhd (vset c)) C ∧
        g.toSimple.IsComponent (g.toSimple.nbhd (vset c)) C ∧
        ∃ w ∈ vset pmc, w ∉ g.toSimple.nbhd (vset c) ∧ w ∈ C := by
  induction cs generalizing t with
  | nil => exact ⟨t, [], rfl, AddsTriplets.refl ht i _, by simp⟩
  | cons c cs ih =>
      have hc := hcs c (by simp)
      obtain ⟨t₁, C, st, hadd, hv₁, hgr₁, htr₁, hst, hC, hw⟩ :=
        addOutComponent_spec (i := i) hg ht hnd hpmc hc
      have h₁ : AddsTriplets g i (vset pmc) t t₁ [(i, st)] := by
        refine ⟨hv₁, hgr₁, htr₁, ?_, ?_⟩
        · intro triplet htr
          obtain rfl := List.mem_singleton.mp htr
          exact ⟨rfl, _, C, hst, Or.inr ⟨_, hc, rfl, hC, hw⟩⟩
        · intro d hd
          obtain ⟨-, d', -, hd', -⟩ := hst
          have hadd' := hadd
          rw [addOutComponent] at hadd'
          split at hadd'
          · dsimp only at hadd'
            split at hadd'
            · obtain rfl := Option.some_inj.mp hadd'
              have hins := ht.components.insert (sort (restComponent g pmc
                (mark (fun _ => false) (g.neighbors c))).1)
              rcases hins.mem d hd with hd | rfl
              · exact Or.inl hd
              · refine Or.inr ⟨_, List.mem_singleton_self _, ?_⟩
                have htr₂ := List.append_cancel_left htr₁
                rw [List.singleton_inj, Prod.mk.injEq] at htr₂
                rw [← htr₂.2]
                exact hins.get
            · cases hadd'
          · cases hadd'
      obtain ⟨t', new, hfold, h', hcomplete⟩ :=
        ih (fun d hd => hcs d (by simp [hd])) t₁ hv₁
      refine ⟨t', (i, st) :: new, ?_, h₁.trans h', ?_⟩
      · rw [List.foldlM_cons, hadd]
        exact hfold
      · intro d hd
        rcases List.mem_cons.mp hd with rfl | hd
        · exact ⟨(i, st), by simp, C, hst.grows h'.grows, hC, hw⟩
        · obtain ⟨triplet, htr, hrest⟩ := hcomplete d hd
          exact ⟨triplet, List.mem_cons_of_mem _ htr, hrest⟩

/-- One clique adds a triplet for every block at which it is placed. -/
theorem addPmc_spec (hg : g.Valid) {pmc : List (Fin n)} {i : ℕ}
    (hnd : pmc.Nodup) (hpmc : g.toSimple.IsPmc (vset pmc)) {t : Tables n}
    (ht : t.Valid) :
    ∃ t' new, addPmc g (noneSepId n) (allCompId n) t (pmc, i) = some t' ∧
      AddsTriplets g i (vset pmc) t t' new ∧
      ∀ S C, g.toSimple.IsPlaced (vset pmc) S C →
        ∃ st, (i, st) ∈ new ∧ t'.IsState st S C := by
  have hcs := components_spec hg pmc
  obtain ⟨t₁, new, hfold, h₁, hcomplete⟩ := outComponents_spec (i := i) hg hnd hpmc
    (g.components pmc) hcs.isComponent t ht
  set t₂ : Tables n :=
    { t₁ with triplets := t₁.triplets ++ [(i, noneSepId n, allCompId n)] } with ht₂
  have hv₂ : t₂.Valid :=
    ⟨h₁.valid.separators, h₁.valid.components, h₁.valid.sep_sorted,
      h₁.valid.comp_sorted, h₁.valid.sep_first, h₁.valid.comp_first⟩
  have h₂ : AddsTriplets g i (vset pmc) t₁ t₂ [(i, noneSepId n, allCompId n)] := by
    refine ⟨hv₂, ⟨List.prefix_rfl, List.prefix_rfl⟩, rfl, ?_, fun c hc => Or.inl hc⟩
    intro triplet htr
    obtain rfl := List.mem_singleton.mp htr
    exact ⟨rfl, ∅, Set.univ, hv₂.isState_first, Or.inl ⟨rfl, rfl⟩⟩
  refine ⟨t₂, new ++ [(i, noneSepId n, allCompId n)], ?_, h₁.trans h₂, ?_⟩
  · rw [addPmc, hfold]
    rfl
  · rintro S C (⟨rfl, rfl⟩ | ⟨O, hO, rfl, hC, w, hw, hwO, hwC⟩)
    · exact ⟨_, by simp, hv₂.isState_first⟩
    · obtain ⟨c, hc, rfl⟩ := hcs.exists_eq hO
      obtain ⟨triplet, htr, C', hst, hC', w', hw', hw'O, hw'C⟩ := hcomplete c hc
      have hwC' := (hpmc.mem_or_adj_rest hO hC' hw' hw'C hw).1 hwO
      obtain rfl := hC.eq_of_mem hC' hwC hwC'
      obtain ⟨hi, -⟩ := h₁.sound triplet htr
      refine ⟨triplet.2, List.mem_append_left _ ?_, hst.grows h₂.grows⟩
      rw [← hi]
      exact htr

/-- The finished tables: every triplet stands for a listed clique placed at a
block, every such placement has its triplet, and every component other than the
set of all vertices comes from a triplet. -/
structure Built (g : Graph n) (pmcs : List (List (Fin n))) (t : Tables n) :
    Prop where
  valid : t.Valid
  sound : ∀ triplet ∈ t.triplets, t.Means g pmcs triplet
  complete : ∀ i pmc, pmcs[i]? = some pmc → ∀ S C,
    g.toSimple.IsPlaced (vset pmc) S C → ∃ st, (i, st) ∈ t.triplets ∧ t.IsState st S C
  components : ∀ c ∈ t.components.elements, c = List.finRange n ∨
    ∃ triplet ∈ t.triplets, t.components.elements[triplet.2.2]? = some c

theorem valid_initTables : (initTables n).Valid := by
  have hs := IdSet.Valid.insert (@IdSet.valid_empty (List (Fin n)) _) []
  have hc := IdSet.Valid.insert (@IdSet.valid_empty (List (Fin n)) _)
    (List.finRange n)
  refine ⟨hs.valid, hc.valid, ?_, ?_, hs.get, hc.get⟩
  · intro s hmem
    rcases hs.mem s hmem with hmem | rfl
    · cases hmem
    · exact List.Pairwise.nil
  · intro c hmem
    rcases hc.mem c hmem with hmem | rfl
    · cases hmem
    · exact List.pairwise_lt_finRange n

theorem isPmc_of_mem {pmcs : List (List (Fin n))} (h : IsPmcList g pmcs)
    {pmc : List (Fin n)} (hmem : pmc ∈ pmcs) : g.toSimple.IsPmc (vset pmc) :=
  isPotentialMaximalClique_iff.mp (h pmc hmem).2

/-- The first loop of `Solve` on a list of potential maximal cliques. -/
theorem buildTables_spec (hg : g.Valid) {pmcs : List (List (Fin n))}
    (hpmcs : IsPmcList g pmcs) :
    ∃ t, buildTables g pmcs = some t ∧ Built g pmcs t := by
  -- The loop over a sublist of the enumerated cliques.
  have loop : ∀ (es : List (List (Fin n) × ℕ)) (t : Tables n), t.Valid →
      (∀ e ∈ es, pmcs[e.2]? = some e.1) →
      ∃ t' new, es.foldlM (addPmc g (noneSepId n) (allCompId n)) t = some t' ∧
        t'.Valid ∧ t.Grows t' ∧ t'.triplets = t.triplets ++ new ∧
        (∀ triplet ∈ new, t'.Means g pmcs triplet) ∧
        (∀ e ∈ es, ∀ S C, g.toSimple.IsPlaced (vset e.1) S C →
          ∃ st, (e.2, st) ∈ new ∧ t'.IsState st S C) ∧
        ∀ c ∈ t'.components.elements, c ∈ t.components.elements ∨
          ∃ triplet ∈ new, t'.components.elements[triplet.2.2]? = some c := by
    intro es
    induction es with
    | nil =>
        exact fun t ht _ => ⟨t, [], rfl, ht, Tables.Grows.refl t, by simp, by simp,
          by simp, fun c hc => Or.inl hc⟩
    | cons e es ih =>
        intro t ht hes
        have he := hes e (by simp)
        have hmem := List.mem_of_getElem? he
        obtain ⟨t₁, new₁, hadd, h₁, hcomp₁⟩ := addPmc_spec (i := e.2) hg
          (hpmcs e.1 hmem).1 (isPmc_of_mem hpmcs hmem) ht
        obtain ⟨t₂, new₂, hfold, hv₂, hgr₂, htr₂, hsound₂, hcomplete₂, hmem₂⟩ :=
          ih t₁ h₁.valid fun e' he' => hes e' (by simp [he'])
        refine ⟨t₂, new₁ ++ new₂, ?_, hv₂, h₁.grows.trans hgr₂, ?_, ?_, ?_, ?_⟩
        · rw [List.foldlM_cons, hadd]
          exact hfold
        · rw [htr₂, h₁.triplets, List.append_assoc]
        · intro triplet htr
          rcases List.mem_append.mp htr with htr | htr
          · obtain ⟨hi, S, C, hst, hpl⟩ := h₁.sound triplet htr
            exact ⟨e.1, S, C, hi ▸ he, hst.grows hgr₂, hpl⟩
          · exact hsound₂ triplet htr
        · intro e' he' S C hpl
          rcases List.mem_cons.mp he' with rfl | he'
          · obtain ⟨st, hst, hstate⟩ := hcomp₁ S C hpl
            exact ⟨st, List.mem_append_left _ hst, hstate.grows hgr₂⟩
          · obtain ⟨st, hst, hstate⟩ := hcomplete₂ e' he' S C hpl
            exact ⟨st, List.mem_append_right _ hst, hstate⟩
        · intro c hc
          rcases hmem₂ c hc with hc | ⟨triplet, htr, hget⟩
          · rcases h₁.components c hc with hc | ⟨triplet, htr, hget⟩
            · exact Or.inl hc
            · exact Or.inr ⟨triplet, List.mem_append_left _ htr,
                getElem?_of_prefix hgr₂.components hget⟩
          · exact Or.inr ⟨triplet, List.mem_append_right _ htr, hget⟩
  obtain ⟨t, new, hfold, hv, -, htr, hsound, hcomplete, hmem⟩ :=
    loop pmcs.zipIdx (initTables n) valid_initTables fun e he => by
      rw [List.mem_zipIdx_iff_getElem?] at he
      exact he
  have htr' : t.triplets = new := by rw [htr]; rfl
  refine ⟨t, hfold, hv, ?_, ?_, ?_⟩
  · rw [htr']
    exact hsound
  · intro i pmc hi S C hpl
    rw [htr']
    exact hcomplete (pmc, i) (List.mem_zipIdx_iff_getElem?.mpr hi) S C hpl
  · intro c hc
    rcases hmem c hc with hc | hc
    · have : c ∈ [List.finRange n] := hc
      exact Or.inl (List.mem_singleton.mp this)
    · rw [htr']
      exact Or.inr hc

end BtAlgorithm

end Triangulator
