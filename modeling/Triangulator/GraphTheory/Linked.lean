import Triangulator.GraphTheory.Block
import Triangulator.GraphTheory.MinimalSeparator

/-!
# Pairs linked past a separator

Two vertices are linked past a set when they are adjacent or joined by a path whose
inner vertices are outside the set.
-/

namespace SimpleGraph

variable {V : Type*} {G : SimpleGraph V} {S T : Set V} {v u w : V}

/-- The two vertices are adjacent or see a common component outside `S`. -/
def Linked (G : SimpleGraph V) (S : Set V) (v u : V) : Prop :=
  G.Adj v u ∨ ∃ D, G.IsComponent S D ∧ v ∈ D ∪ G.nbhd D ∧ u ∈ D ∪ G.nbhd D

theorem Linked.symm (h : G.Linked S v u) : G.Linked S u v := by
  rcases h with h | ⟨D, hD, hv, hu⟩
  · exact Or.inl h.symm
  · exact Or.inr ⟨D, hD, hu, hv⟩

/-- A vertex outside the separator that is in or next to a component. -/
theorem IsComponent.mem_of_mem_union_nbhd {D : Set V} (hD : G.IsComponent S D) (hv : v ∉ S)
    (h : v ∈ D ∪ G.nbhd D) : v ∈ D :=
  h.resolve_right fun hN => hv (hD.nbhd_subset hN)

/-- Outside the separator, linked vertices have a common component. -/
theorem Linked.exists_component (h : G.Linked S v u) (hv : v ∉ S) :
    ∃ D, G.IsComponent S D ∧ v ∈ D ∧ u ∈ D ∪ G.nbhd D := by
  rcases h with h | ⟨D, hD, hvD, huD⟩
  · refine ⟨_, isComponent_componentOf hv, mem_componentOf_self, ?_⟩
    by_cases hu : u ∈ G.componentOf S v
    · exact Or.inl hu
    · exact Or.inr ⟨hu, v, mem_componentOf_self, h⟩
  · exact ⟨D, hD, hD.mem_of_mem_union_nbhd hv hvD, huD⟩

/-- A step outside the separator. -/
theorem Linked.step (h : G.Linked S v u) (hu : u ∉ S) (huw : G.Adj u w) :
    G.Linked S v w := by
  obtain ⟨D, hD, huD, hvD⟩ := h.symm.exists_component hu
  refine Or.inr ⟨D, hD, hvD, ?_⟩
  by_cases hw : w ∈ D
  · exact Or.inl hw
  · exact Or.inr ⟨hw, u, huD, huw⟩

/-- A larger separator links fewer pairs. -/
theorem Linked.anti (hST : S ⊆ T) (h : G.Linked T v u) : G.Linked S v u := by
  rcases h with h | ⟨D, hD, hv, hu⟩
  · exact Or.inl h
  · obtain ⟨w, hw⟩ := hD.nonempty
    have hDS : ∀ x ∈ D, x ∉ S := fun x hx hxS => hD.notMem x hx (hST hxS)
    have hsub : D ⊆ G.componentOf S w := hD.connected.subset_componentOf hDS hw
    have hunion : ∀ x ∈ D ∪ G.nbhd D,
        x ∈ G.componentOf S w ∪ G.nbhd (G.componentOf S w) := by
      rintro x (hx | ⟨hx, y, hy, hyx⟩)
      · exact Or.inl (hsub hx)
      · by_cases hxc : x ∈ G.componentOf S w
        · exact Or.inl hxc
        · exact Or.inr ⟨hxc, y, hsub hy, hyx⟩
    exact Or.inr ⟨_, isComponent_componentOf (hDS w hw), hunion v hv, hunion u hu⟩

/-- A pair is linked whether or not one of its ends is in the separator. -/
theorem Linked.insert_end (hvu : v ≠ u) (h : G.Linked (S \ {v}) v u) :
    G.Linked S v u := by
  by_cases hvS : v ∈ S
  · rcases h with h | ⟨D, hD, hv, hu⟩
    · exact Or.inl h
    have hvD : v ∈ D := hD.mem_of_mem_union_nbhd (fun hv' => hv'.2 rfl) hv
    -- What is reached from `v` is in a component next to `v`.
    have hreach : ∀ x ∈ D, x ≠ v → ∃ C, G.IsComponent S C ∧ v ∈ G.nbhd C ∧ x ∈ C := by
      have hclosed : ∀ x ∈ D, x = v ∨ ∃ C, G.IsComponent S C ∧ v ∈ G.nbhd C ∧ x ∈ C := by
        intro x hx
        apply (hD.connected v hvD x hx).mem_of_closed
          (A := {x | x = v ∨ ∃ C, G.IsComponent S C ∧ v ∈ G.nbhd C ∧ x ∈ C}) (Or.inl rfl)
        intro a ha b hb hab
        by_cases hbv : b = v
        · exact Or.inl hbv
        have hbS : b ∉ S := fun hbS => hD.notMem b hb ⟨hbS, hbv⟩
        rcases ha with rfl | ⟨C, hC, hvC, haC⟩
        · refine Or.inr ⟨_, isComponent_componentOf hbS, ⟨fun ha => ?_, b,
            mem_componentOf_self, hab.symm⟩, mem_componentOf_self⟩
          exact (isComponent_componentOf hbS).notMem a ha hvS
        · exact Or.inr ⟨C, hC, hvC, hC.closed a haC b hab hbS⟩
      exact fun x hx hxv => (hclosed x hx).resolve_left hxv
    rcases hu with hu | ⟨huD, w, hw, hwu⟩
    · obtain ⟨C, hC, hvC, huC⟩ := hreach u hu hvu.symm
      exact Or.inr ⟨C, hC, Or.inr hvC, Or.inl huC⟩
    · by_cases hwv : w = v
      · exact Or.inl (hwv ▸ hwu)
      · obtain ⟨C, hC, hvC, hwC⟩ := hreach w hw hwv
        refine Or.inr ⟨C, hC, Or.inr hvC, ?_⟩
        by_cases huC : u ∈ C
        · exact Or.inl huC
        · exact Or.inr ⟨huC, w, hwC, hwu⟩
  · rwa [Set.sdiff_singleton_eq_self hvS] at h

/-- A vertex outside a set without full component is not linked to all of it. -/
theorem exists_not_linked (hno : ∀ D, G.IsComponent S D → G.nbhd D ≠ S) (hv : v ∉ S) :
    ∃ u ∈ S, ¬G.Linked S v u := by
  have hD := isComponent_componentOf (G := G) hv
  obtain ⟨u, huS, huN⟩ : ∃ u ∈ S, u ∉ G.nbhd (G.componentOf S v) := by
    by_contra hall
    push Not at hall
    exact hno _ hD (hD.nbhd_subset.antisymm hall)
  refine ⟨u, huS, fun h => huN ?_⟩
  obtain ⟨C, hC, hvC, huC⟩ := h.exists_component hv
  rw [← hC.eq_componentOf hvC]
  exact huC.resolve_left fun hu => hC.notMem u hu huS

/-- A component that no vertex of the separator can join to `u` is full. -/
theorem IsComponent.isFullComponent_of_not_linked {D : Set V} (hD : G.IsComponent S D)
    (hv : v ∈ D) (hu : u ∉ D) (huS : u ∉ S) (hmin : ∀ w ∈ S, G.Linked (S \ {w}) v u) :
    G.IsFullComponent S D := by
  refine ⟨hD, hD.nbhd_subset.antisymm fun w hw => ?_⟩
  by_contra hwN
  have hD' : G.IsComponent (S \ {w}) D := by
    refine ⟨hD.nonempty, fun x hx hxS => hD.notMem x hx hxS.1, hD.connected,
      fun x hx y hxy hy => ?_⟩
    by_cases hyw : y = w
    · subst hyw
      exact absurd ⟨fun hyD => hD.notMem y hyD hw, x, hx, hxy⟩ hwN
    · exact hD.closed x hx y hxy fun hyS => hy ⟨hyS, hyw⟩
  obtain ⟨C, hC, hvC, huC⟩ := (hmin w hw).exists_component (hD'.notMem v hv)
  rw [hC.eq_of_mem hD' hvC hv] at huC
  exact huS (hD.nbhd_subset (huC.resolve_left hu))

/-- A set that separates a pair, and from which no vertex can be left out, is a minimal
separator. -/
theorem isMinimalSeparator_of_not_linked (hv : v ∉ S) (hu : u ∉ S) (h : ¬G.Linked S v u)
    (hmin : ∀ w ∈ S, G.Linked (S \ {w}) v u) : G.IsMinimalSeparator S := by
  have hA := isComponent_componentOf (G := G) hv
  have hB := isComponent_componentOf (G := G) hu
  have huA : u ∉ G.componentOf S v := fun huA =>
    h (Or.inr ⟨_, hA, Or.inl mem_componentOf_self, Or.inl huA⟩)
  have hvB : v ∉ G.componentOf S u := fun hvB =>
    h (Or.inr ⟨_, hB, Or.inl hvB, Or.inl mem_componentOf_self⟩)
  have hne : G.componentOf S v ≠ G.componentOf S u := fun heq => by
    rw [heq] at huA
    exact huA mem_componentOf_self
  refine ⟨_, _, hne,
    hA.isFullComponent_of_not_linked mem_componentOf_self huA hu hmin,
    hB.isFullComponent_of_not_linked mem_componentOf_self hvB hv fun w hw => (hmin w hw).symm⟩

/-- A potential maximal clique is a set whose vertices are linked and to which no
component is full. -/
theorem isPmc_iff_linked : G.IsPmc S ↔ (∀ D, G.IsComponent S D → G.nbhd D ≠ S) ∧
    ∀ v ∈ S, ∀ u ∈ S, v ≠ u → G.Linked S v u := by
  constructor
  · intro h
    refine ⟨h.no_full, fun v hv u hu hvu => (h.cliquish v hv u hu hvu).imp_right ?_⟩
    rintro ⟨D, hD, hvD, huD⟩
    exact ⟨D, hD, Or.inr hvD, Or.inr huD⟩
  · rintro ⟨hno, hlink⟩
    refine ⟨hno, fun v hv u hu hvu => (hlink v hv u hu hvu).imp_right ?_⟩
    rintro ⟨D, hD, hvD, huD⟩
    exact ⟨D, hD, hvD.resolve_left fun h => hD.notMem v h hv,
      huD.resolve_left fun h => hD.notMem u h hu⟩

/-! ## Short paths -/

/-- There is a path of at most `j` edges from `v` whose inner vertices are outside
`S`. -/
def ShortPath (G : SimpleGraph V) (S : Set V) (v : V) : ℕ → V → Prop
  | 0, _ => False
  | j + 1, u => G.Adj v u ∨ ∃ w, w ∉ S ∧ ShortPath G S v j w ∧ G.Adj w u

namespace ShortPath

variable {j k : ℕ}

theorem of_adj (h : G.Adj v u) : G.ShortPath S v (j + 1) u :=
  Or.inl h

theorem succ (h : G.ShortPath S v j u) : G.ShortPath S v (j + 1) u := by
  induction j generalizing u with
  | zero => cases h
  | succ j ih =>
      rcases h with h | ⟨w, hw, hvw, hwu⟩
      · exact Or.inl h
      · exact Or.inr ⟨w, hw, ih hvw, hwu⟩

theorem mono (hjk : j ≤ k) (h : G.ShortPath S v j u) : G.ShortPath S v k u := by
  induction hjk with
  | refl => exact h
  | step _ ih => exact ih.succ

/-- A step in front of a path. -/
theorem cons (hvw : G.Adj v w) (hw : w ∉ S) (h : G.ShortPath S w j u) :
    G.ShortPath S v (j + 1) u := by
  induction j generalizing u with
  | zero => cases h
  | succ j ih =>
      rcases h with h | ⟨x, hx, hwx, hxu⟩
      · exact Or.inr ⟨w, hw, Or.inl hvw, h⟩
      · exact Or.inr ⟨x, hx, ih hwx, hxu⟩

theorem symm (h : G.ShortPath S v j u) : G.ShortPath S u j v := by
  induction j generalizing u with
  | zero => cases h
  | succ j ih =>
      rcases h with h | ⟨w, hw, hvw, hwu⟩
      · exact Or.inl h.symm
      · exact cons hwu.symm hw (ih hvw)

theorem linked (hvu : v ≠ u) (h : G.ShortPath S v j u) : G.Linked S v u := by
  induction j generalizing u with
  | zero => cases h
  | succ j ih =>
      rcases h with h | ⟨w, hw, hvw, hwu⟩
      · exact Or.inl h
      · by_cases hwv : v = w
        · exact Or.inl (hwv ▸ hwu)
        · exact (ih hwv hvw).step hw hwu

end ShortPath

/-- Linked vertices have a path of some length. -/
theorem Linked.exists_shortPath (hvu : v ≠ u) (h : G.Linked S v u) :
    ∃ j, G.ShortPath S v j u := by
  rcases h with h | ⟨D, hD, hv, hu⟩
  · exact ⟨1, Or.inl h⟩
  · have hstep : ∀ a b, (a = v ∨ ∃ j, G.ShortPath S v j a) → (a = v ∨ a ∉ S) → G.Adj a b →
        ∃ j, G.ShortPath S v j b := by
      rintro a b (rfl | ⟨j, ha⟩) hor hab
      · exact ⟨1, Or.inl hab⟩
      · rcases hor with rfl | haS
        · exact ⟨1, Or.inl hab⟩
        · exact ⟨j + 1, Or.inr ⟨a, haS, ha, hab⟩⟩
    obtain ⟨x, hx, hxv⟩ : ∃ x ∈ D, x = v ∨ ∃ j, G.ShortPath S v j x := by
      rcases hv with hv | ⟨-, x, hx, hxv⟩
      · exact ⟨v, hv, Or.inl rfl⟩
      · exact ⟨x, hx, Or.inr ⟨1, Or.inl hxv.symm⟩⟩
    have hall : ∀ y ∈ D, y = v ∨ ∃ j, G.ShortPath S v j y := by
      intro y hy
      have hmem := (hD.connected x hx y hy).mem_of_closed
        (A := {y | y ∈ D ∧ (y = v ∨ ∃ j, G.ShortPath S v j y)}) ⟨hx, hxv⟩ ?_
      · exact hmem.2
      · rintro a ⟨haD, ha⟩ b hb hab
        exact ⟨hb, Or.inr (hstep a b ha (Or.inr (hD.notMem a haD)) hab)⟩
    rcases hu with hu | ⟨-, y, hy, hyu⟩
    · exact (hall u hu).resolve_left hvu.symm
    · exact hstep y u (hall y hy) (Or.inr (hD.notMem y hy)) hyu

/-- Linked vertices have a path with fewer edges than there are vertices. -/
theorem Linked.shortPath [Finite V] (hvu : v ≠ u) (h : G.Linked S v u) :
    G.ShortPath S v (Nat.card V - 1) u := by
  -- The sets of vertices reached grow until they are stable.
  set R : ℕ → Set V := fun j => {x | x ≠ v ∧ G.ShortPath S v j x} with hR
  have hmono : ∀ j, R j ⊆ R (j + 1) := fun j x hx => ⟨hx.1, hx.2.succ⟩
  have hdep : ∀ j k, R j = R k → R (j + 1) = R (k + 1) := by
    have hsub : ∀ j k, R j = R k → R (j + 1) ⊆ R (k + 1) := by
      rintro j k hjk x ⟨hxv, hx | ⟨w, hw, hvw, hwx⟩⟩
      · exact ⟨hxv, Or.inl hx⟩
      · by_cases hwv : w = v
        · exact ⟨hxv, Or.inl (hwv ▸ hwx)⟩
        · have hmem : w ∈ R k := hjk ▸ ⟨hwv, hvw⟩
          exact ⟨hxv, Or.inr ⟨w, hw, hmem.2, hwx⟩⟩
    exact fun j k hjk => (hsub j k hjk).antisymm (hsub k j hjk.symm)
  have hstable : ∀ j, R j = R (j + 1) → ∀ d, R (j + d) = R j := by
    intro j hj d
    induction d with
    | zero => rfl
    | succ d ih => rw [← Nat.add_assoc, hdep (j + d) j ih, ← hj]
  have hgrow : ∀ m, (∀ j < m, R j ≠ R (j + 1)) → m ≤ (R m).ncard := by
    intro m
    induction m with
    | zero => exact fun _ => Nat.zero_le _
    | succ m ih =>
        intro hne
        have h1 := ih fun j hj => hne j (Nat.lt_succ_of_lt hj)
        have h2 := Set.ncard_lt_ncard ((hmono m).ssubset_of_ne (hne m (Nat.lt_succ_self m)))
          (Set.toFinite _)
        omega
  have hcard : ∀ m, (R m).ncard < Nat.card V := by
    intro m
    have hlt : R m ⊂ Set.univ :=
      ⟨Set.subset_univ _, fun hsub => (hsub (Set.mem_univ v)).1 rfl⟩
    have := Set.ncard_lt_ncard hlt (Set.toFinite _)
    rwa [Set.ncard_univ] at this
  obtain ⟨j, hj, hjeq⟩ : ∃ j < Nat.card V, R j = R (j + 1) := by
    by_contra hall
    push Not at hall
    have h1 := hgrow _ hall
    have h2 := hcard (Nat.card V)
    omega
  obtain ⟨k, hk⟩ := h.exists_shortPath hvu
  have hmem : u ∈ R (j + k) := ⟨hvu.symm, hk.mono (Nat.le_add_left k j)⟩
  rw [hstable j hjeq k] at hmem
  exact hmem.2.mono (by omega)

/-! ## Linked pairs and paths -/

/-- A walk along the steps of a search. -/
theorem ReachIn.exists_walk (h : G.ReachIn S v u) :
    ∃ p : G.Walk v u, ∀ w ∈ p.support, w = v ∨ w ∈ S := by
  induction h with
  | refl => exact ⟨Walk.nil, by simp⟩
  | @tail b c _ hstep ih =>
    obtain ⟨p, hp⟩ := ih
    refine ⟨p.concat hstep.1, ?_⟩
    intro w hw
    rw [Walk.support_concat, List.mem_append, List.mem_singleton] at hw
    rcases hw with hw | rfl
    · exact hp w hw
    · exact Or.inr hstep.2

/-- A path whose inner vertices are outside the separator links its ends. -/
theorem linked_of_isPath {p : G.Walk v u} (hp : p.IsPath) (hvu : v ≠ u)
    (hS : ∀ w ∈ p.support, w ≠ v → w ≠ u → w ∉ S) : G.Linked S v u := by
  induction p with
  | nil => exact absurd rfl hvu
  | @cons v x u hadj q ih =>
    rw [Walk.cons_isPath_iff] at hp
    by_cases hxu : x = u
    · exact Or.inl (hxu ▸ hadj)
    have hxv : x ≠ v := hadj.ne'
    have hxS : x ∉ S := hS x (by simp) hxv hxu
    have hrest : G.Linked S x u := by
      apply ih hp.1 hxu
      intro w hw _ hwu
      have hwv : w ≠ v := fun heq => hp.2 (heq ▸ hw)
      exact hS w (by simp [hw]) hwv hwu
    exact (hrest.symm.step hxS hadj.symm).symm

/-- Two vertices in or next to a connected set are the ends of a walk through it. -/
theorem IsConnectedSet.exists_walk {D : Set V} (hD : G.IsConnectedSet D)
    (hv : v ∈ D ∪ G.nbhd D) (hu : u ∈ D ∪ G.nbhd D) :
    ∃ p : G.Walk v u, ∀ w ∈ p.support, w = v ∨ w = u ∨ w ∈ D := by
  -- A walk of at most one edge to a vertex inside.
  have henter : ∀ x ∈ D ∪ G.nbhd D, ∃ a ∈ D, ∃ q : G.Walk x a,
      ∀ w ∈ q.support, w = x ∨ w ∈ D := by
    rintro x (hx | ⟨-, a, ha, hax⟩)
    · exact ⟨x, hx, Walk.nil, by simp⟩
    · refine ⟨a, ha, Walk.cons hax.symm Walk.nil, ?_⟩
      intro w hw
      simp only [Walk.support_cons, Walk.support_nil, List.mem_cons, List.not_mem_nil,
        or_false] at hw
      rcases hw with rfl | rfl
      · exact Or.inl rfl
      · exact Or.inr ha
  obtain ⟨a, ha, q, hq⟩ := henter v hv
  obtain ⟨b, hb, r, hr⟩ := henter u hu
  obtain ⟨p, hp⟩ := (hD a ha b hb).exists_walk
  refine ⟨(q.append p).append r.reverse, ?_⟩
  intro w hw
  rw [Walk.mem_support_append_iff, Walk.mem_support_append_iff, Walk.support_reverse,
    List.mem_reverse] at hw
  rcases hw with (hw | hw) | hw
  · exact (hq w hw).imp id Or.inr
  · rcases hp w hw with rfl | hwD
    · exact Or.inr (Or.inr ha)
    · exact Or.inr (Or.inr hwD)
  · exact Or.inr (hr w hw)

/-- Linked pairs are the ends of the paths whose inner vertices are outside the
separator. -/
theorem linked_iff_exists_path (hvu : v ≠ u) :
    G.Linked S v u ↔
      ∃ p : G.Walk v u, p.IsPath ∧ ∀ w ∈ p.support, w ≠ v → w ≠ u → w ∉ S := by
  classical
  constructor
  · rintro (hadj | ⟨D, hD, hv, hu⟩)
    · refine ⟨Walk.cons hadj Walk.nil, by simp [hvu], ?_⟩
      intro w hw hwv hwu
      simp only [Walk.support_cons, Walk.support_nil, List.mem_cons, List.not_mem_nil,
        or_false] at hw
      exact absurd hw (not_or.mpr ⟨hwv, hwu⟩)
    · obtain ⟨p, hp⟩ := hD.connected.exists_walk hv hu
      refine ⟨p.bypass, p.bypass_isPath, ?_⟩
      intro w hw hwv hwu
      have hwD := ((hp w (p.support_bypass_subset_support hw)).resolve_left hwv).resolve_left hwu
      exact hD.notMem w hwD
  · rintro ⟨p, hp, hS⟩
    exact linked_of_isPath hp hvu hS

end SimpleGraph
