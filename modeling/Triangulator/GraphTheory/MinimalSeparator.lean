import Triangulator.GraphTheory.Reach

/-!
# Minimal separators

A minimal separator has two full components.  All of them are generated from
the separators close to one vertex by deleting, for a vertex of a separator
already found, its neighbours as well.
-/

namespace SimpleGraph

variable {V : Type*} {G : SimpleGraph V} {S T A B C D : Set V} {u v x y z : V}

/-- `C` is a component of `G` without `S` in which every vertex of `S` has a
neighbour. -/
structure IsFullComponent (G : SimpleGraph V) (S C : Set V) : Prop where
  isComponent : G.IsComponent S C
  nbhd_eq : G.nbhd C = S

/-- `S` has two different full components. -/
def IsMinimalSeparator (G : SimpleGraph V) (S : Set V) : Prop :=
  ∃ A B, A ≠ B ∧ G.IsFullComponent S A ∧ G.IsFullComponent S B

namespace IsFullComponent

theorem exists_adj (h : G.IsFullComponent S C) (hx : x ∈ S) :
    ∃ c ∈ C, G.Adj c x :=
  (h.isComponent.nbhd_eq_iff.mp h.nbhd_eq) x hx

theorem notMem (h : G.IsFullComponent S C) (hx : x ∈ C) : x ∉ S :=
  h.isComponent.notMem x hx

/-- Two full components are equal or disjoint. -/
theorem eq_of_mem (hA : G.IsFullComponent S A) (hB : G.IsFullComponent S B)
    (hxA : x ∈ A) (hxB : x ∈ B) : A = B :=
  hA.isComponent.eq_of_mem hB.isComponent hxA hxB

end IsFullComponent

/-- A component is a full component of its neighbourhood. -/
theorem IsComponent.isFullComponent (hC : G.IsComponent S C) :
    G.IsFullComponent (G.nbhd C) C :=
  ⟨hC.nbhd_self, rfl⟩

/-- The neighbourhood of a component is a minimal separator when all of it is
attached to a connected set elsewhere. -/
theorem IsComponent.isMinimalSeparator (hC : G.IsComponent S C)
    (hD : G.IsConnectedSet D) (hne : D.Nonempty) (hDC : ∀ d ∈ D, d ∉ C)
    (hDN : ∀ d ∈ D, d ∉ G.nbhd C) (hfull : ∀ s ∈ G.nbhd C, ∃ d ∈ D, G.Adj d s) :
    G.IsMinimalSeparator (G.nbhd C) := by
  obtain ⟨d, hd⟩ := hne
  have hE := isComponent_componentOf (G := G) (hDN d hd)
  have hsub := hD.subset_componentOf hDN hd
  refine ⟨C, _, ?_, hC.isFullComponent, hE, hE.nbhd_eq_iff.mpr fun s hs => ?_⟩
  · intro heq
    exact hDC d hd (heq ▸ mem_componentOf_self)
  · obtain ⟨d', hd', hadj⟩ := hfull s hs
    exact ⟨d', hsub hd', hadj⟩

/-- The closed neighbourhood of a vertex. -/
def closedNbhd (G : SimpleGraph V) (v : V) : Set V :=
  insert v (G.neighborSet v)

@[simp] theorem mem_closedNbhd : u ∈ G.closedNbhd v ↔ u = v ∨ G.Adj v u :=
  Iff.rfl

/-- A component outside the closed neighbourhood of a vertex has a minimal
separator as its neighbourhood. -/
theorem isMinimalSeparator_of_closedNbhd (hC : G.IsComponent (G.closedNbhd v) C) :
    G.IsMinimalSeparator (G.nbhd C) := by
  have hvC : v ∉ C := fun h => hC.notMem v h (Or.inl rfl)
  have hadj : ∀ s ∈ G.nbhd C, s ≠ v → G.Adj v s := fun s hs hsv =>
    (hC.nbhd_subset hs).resolve_left hsv
  have hvN : v ∉ G.nbhd C := by
    rintro ⟨-, c, hc, hcv⟩
    exact hC.notMem c hc (Or.inr hcv.symm)
  refine hC.isMinimalSeparator (isConnectedSet_singleton v) ⟨v, rfl⟩ ?_ ?_ ?_
  · rintro d rfl
    exact hvC
  · rintro d rfl
    exact hvN
  · intro s hs
    exact ⟨v, rfl, hadj s hs fun h => hvN (h ▸ hs)⟩

/-- A component that remains when the neighbours of a vertex of a minimal
separator are deleted too has a minimal separator as its neighbourhood. -/
theorem IsMinimalSeparator.of_delete (hS : G.IsMinimalSeparator S) (hx : x ∈ S)
    (hC : G.IsComponent (S ∪ G.neighborSet x) C) :
    G.IsMinimalSeparator (G.nbhd C) := by
  -- Some full component of `S` does not meet `C`.
  obtain ⟨A, hA, hAC⟩ : ∃ A, G.IsFullComponent S A ∧ ∀ a ∈ A, a ∉ C := by
    obtain ⟨A, B, hAB, hA, hB⟩ := hS
    by_cases hmeet : ∃ a ∈ A, a ∈ C
    · obtain ⟨a, haA, haC⟩ := hmeet
      have hCA : C ⊆ A := hA.isComponent.subset_of_connected hC.connected
        (fun w hw hwS => hC.notMem w hw (Or.inl hwS)) haA haC
      exact ⟨B, hB, fun b hb hbC => hAB (hA.eq_of_mem hB (hCA hbC) hb)⟩
    · push Not at hmeet
      exact ⟨A, hA, hmeet⟩
  obtain ⟨a, ha, hax⟩ := hA.exists_adj hx
  have hxC : x ∉ C := fun h => hC.notMem x h (Or.inl hx)
  have hxN : x ∉ G.nbhd C := by
    rintro ⟨-, c, hc, hcx⟩
    exact hC.notMem c hc (Or.inr hcx.symm)
  have hAN : ∀ w ∈ A, w ∉ G.nbhd C := by
    rintro w hw ⟨-, c, hc, hcw⟩
    exact hAC c (hA.isComponent.closed w hw c hcw.symm
      fun hcS => hC.notMem c hc (Or.inl hcS)) hc
  refine hC.isMinimalSeparator (D := A ∪ {x})
    (hA.isComponent.connected.union (isConnectedSet_singleton x) ha rfl (Or.inr hax))
    ⟨x, Or.inr rfl⟩ ?_ ?_ ?_
  · rintro d (hd | rfl)
    · exact hAC d hd
    · exact hxC
  · rintro d (hd | rfl)
    · exact hAN d hd
    · exact hxN
  · intro s hs
    rcases hC.nbhd_subset hs with hsS | hsx
    · obtain ⟨a', ha', hadj⟩ := hA.exists_adj hsS
      exact ⟨a', Or.inl ha', hadj⟩
    · exact ⟨x, Or.inr rfl, hsx⟩

/-- A family of vertex sets closed under the generation of separators. -/
structure SeparatorClosed (G : SimpleGraph V) (M : Set (Set V)) : Prop where
  close : ∀ v u, G.Adj v u → ∀ C, G.IsComponent (G.closedNbhd v) C → G.nbhd C ∈ M
  delete : ∀ S ∈ M, ∀ x ∈ S, ∀ C, G.IsComponent (S ∪ G.neighborSet x) C →
    G.nbhd C ∈ M

/-- From a generated separator with a component around `B`, the minimal separator
with the full components `A` and `B` is reached by shrinking the component. -/
theorem SeparatorClosed.mem_of_between [Finite V] {M : Set (Set V)}
    (hM : G.SeparatorClosed M) {a : V} (hA : G.IsFullComponent T A)
    (hB : G.IsFullComponent T B) (ha : a ∈ A) (hAB : A ≠ B)
    (hC : G.IsFullComponent S C) (hSM : S ∈ M) (hBC : B ⊆ C) (haC : a ∉ C)
    (hS : S ⊆ A ∪ T) : T ∈ M := by
  induction hk : C.ncard using Nat.strong_induction_on generalizing S C with
  | _ k ih =>
      subst hk
      obtain ⟨b, hb⟩ := hB.isComponent.nonempty
      by_cases hST : S ⊆ T
      · -- Then `S = T`, since otherwise `a` is joined to `B` outside `S`.
        suffices heq : S = T from heq ▸ hSM
        refine hST.antisymm fun t ht => ?_
        by_contra htS
        obtain ⟨b', hb', hbt⟩ := hB.exists_adj ht
        obtain ⟨a', ha', hat⟩ := hA.exists_adj ht
        have htC : t ∈ C := hC.isComponent.closed b' (hBC hb') t hbt htS
        have haS : a' ∉ S := fun h => hA.notMem ha' (hST h)
        have ha'C : a' ∈ C := hC.isComponent.closed t htC a' hat.symm haS
        exact haC (hC.isComponent.subset_of_connected hA.isComponent.connected
          (fun w hw h => hA.notMem hw (hST h)) ha'C ha' ha)
      · obtain ⟨x, hxS, hxT⟩ := Set.not_subset.mp hST
        have hxA : x ∈ A := (hS hxS).resolve_right hxT
        have hBX : ∀ w ∈ B, w ∉ S ∪ G.neighborSet x := by
          rintro w hw (hwS | hwx)
          · exact hC.notMem (hBC hw) hwS
          · have hwA := hA.isComponent.closed x hxA w hwx (hB.notMem hw)
            exact hAB (hA.eq_of_mem hB hwA hw)
        have hC' := isComponent_componentOf (G := G) (hBX b hb)
        set C' := G.componentOf (S ∪ G.neighborSet x) b
        have hBC' : B ⊆ C' :=
          hB.isComponent.connected.subset_componentOf hBX hb
        have hsub : C' ⊆ C := hC.isComponent.subset_of_connected hC'.connected
          (fun w hw h => hC'.notMem w hw (Or.inl h)) (hBC hb) mem_componentOf_self
        obtain ⟨y, hy, hyx⟩ := hC.exists_adj hxS
        have hlt : C' ⊂ C := ⟨hsub, fun h => hC'.notMem y (h hy) (Or.inr hyx.symm)⟩
        refine ih _ (Set.ncard_lt_ncard hlt (Set.toFinite _)) hC'.isFullComponent
          (hM.delete S hSM x hxS C' hC') hBC' (fun h => haC (hsub h)) ?_ rfl
        intro s hs
        rcases hC'.nbhd_subset hs with h | h
        · exact hS h
        · by_cases hsT : s ∈ T
          · exact Or.inr hsT
          · exact Or.inl (hA.isComponent.closed x hxA s h hsT)

/-- In a graph with an edge the generated family contains every minimal
separator. -/
theorem SeparatorClosed.mem [Finite V] {M : Set (Set V)} (hM : G.SeparatorClosed M)
    (hedge : G.Adj u v) (hT : G.IsMinimalSeparator T) : T ∈ M := by
  obtain ⟨A, B, hAB, hA, hB⟩ := hT
  -- A vertex of `A` with a neighbour starts the search.
  have key : ∀ {A B : Set V}, A ≠ B → G.IsFullComponent T A → G.IsFullComponent T B →
      ∀ a ∈ A, (∃ w, G.Adj a w) → T ∈ M := by
    intro A B hAB hA hB a ha ⟨w, haw⟩
    obtain ⟨b, hb⟩ := hB.isComponent.nonempty
    have hclosed : ∀ s ∈ G.closedNbhd a, s ∈ A ∪ T := by
      rintro s (rfl | hs)
      · exact Or.inl ha
      · by_cases hsT : s ∈ T
        · exact Or.inr hsT
        · exact Or.inl (hA.isComponent.closed a ha s hs hsT)
    have hBX : ∀ x ∈ B, x ∉ G.closedNbhd a := by
      intro x hx h
      rcases hclosed x h with hxA | hxT
      · exact hAB (hA.eq_of_mem hB hxA hx)
      · exact hB.notMem hx hxT
    have hC := isComponent_componentOf (G := G) (hBX b hb)
    refine hM.mem_of_between hA hB ha hAB hC.isFullComponent (hM.close a w haw _ hC)
      (hB.isComponent.connected.subset_componentOf hBX hb) ?_ ?_
    · exact fun h => hC.notMem a h (Or.inl rfl)
    · exact fun s hs => hclosed s (hC.nbhd_subset hs)
  by_cases hT : T.Nonempty
  · obtain ⟨t, ht⟩ := hT
    obtain ⟨a, ha, hat⟩ := hA.exists_adj ht
    exact key hAB hA hB a ha ⟨t, hat⟩
  · -- The empty separator: the edge lies in one component, another one is left.
    rw [Set.not_nonempty_iff_eq_empty] at hT
    subst hT
    have hE := isComponent_componentOf (G := G) (Set.notMem_empty u)
    have hEfull : G.IsFullComponent ∅ (G.componentOf ∅ u) :=
      ⟨hE, Set.subset_empty_iff.mp hE.nbhd_subset⟩
    by_cases hEA : G.componentOf ∅ u = A
    · exact key hAB hA hB u (hEA ▸ mem_componentOf_self) ⟨v, hedge⟩
    · exact key hEA hEfull hA u mem_componentOf_self ⟨v, hedge⟩

/-- Two vertices separated by `W` are separated by a minimal separator inside
`W`. -/
theorem exists_isMinimalSeparator_subset {W : Set V} (hy : y ∉ W) (hz : z ∉ W)
    (hsep : ¬G.ReachIn Wᶜ y z) :
    ∃ T ⊆ W, G.IsMinimalSeparator T ∧ y ∉ T ∧ z ∉ T ∧ ¬G.ReachIn Tᶜ y z := by
  have hCy := isComponent_componentOf (G := G) hy
  set Cy := G.componentOf W y with hCydef
  have hzC : z ∉ Cy := hsep
  have hzN : z ∉ G.nbhd Cy := fun h => hz (hCy.nbhd_subset h)
  have hCz := isComponent_componentOf (G := G) hzN
  set Cz := G.componentOf (G.nbhd Cy) z with hCzdef
  have hsub : G.nbhd Cz ⊆ G.nbhd Cy := hCz.nbhd_subset
  have hyCy : y ∈ Cy := mem_componentOf_self
  have hdisj : ∀ w ∈ Cy, w ∉ Cz := by
    intro w hw hwz
    have hCy' := hCy.nbhd_self
    exact hzC (hCy'.eq_of_mem hCz hw hwz ▸ mem_componentOf_self)
  have hyN : ∀ w ∈ Cy, w ∉ G.nbhd Cz := fun w hw h => (hsub h).1 hw
  refine ⟨G.nbhd Cz, hsub.trans hCy.nbhd_subset,
    hCz.isMinimalSeparator hCy.connected hCy.nonempty hdisj hyN fun s hs => ?_,
    hyN y hyCy, fun h => h.1 mem_componentOf_self, fun hreach => ?_⟩
  · exact (hsub hs).2
  · have hmem := (hreach.symm (hyN y hyCy)).mem_of_closed (A := Cz)
      mem_componentOf_self fun a ha b hb hab => by
        by_contra hbC
        exact hb ⟨hbC, a, ha, hab⟩
    exact hdisj y hyCy hmem

/-! ## The empty separator -/

theorem reachIn_univ_iff : G.ReachIn Set.univ u v ↔ G.Reachable u v := by
  constructor
  · intro h
    induction h with
    | refl => exact Reachable.refl u
    | tail _ hstep ih => exact ih.trans hstep.1.reachable
  · intro h
    obtain ⟨p⟩ := h
    induction p with
    | nil => exact ReachIn.refl _
    | cons hadj _ ih => exact ReachIn.head hadj trivial ih

theorem IsComponent.isFullComponent_empty {C : Set V} (hC : G.IsComponent ∅ C) :
    G.IsFullComponent ∅ C where
  isComponent := hC
  nbhd_eq := Set.subset_empty_iff.mp hC.nbhd_subset

/-- The empty set is a minimal separator of the graphs with two components. -/
theorem isMinimalSeparator_empty_iff [Nonempty V] :
    G.IsMinimalSeparator ∅ ↔ ¬G.Connected := by
  constructor
  · rintro ⟨A, B, hAB, hA, hB⟩ hconn
    obtain ⟨a, ha⟩ := hA.isComponent.nonempty
    obtain ⟨b, hb⟩ := hB.isComponent.nonempty
    have hreach : G.ReachIn Set.univ a b := reachIn_univ_iff.mpr (hconn.preconnected a b)
    have hbA : b ∈ A := hreach.mem_of_closed ha fun x hx y _ hxy =>
      hA.isComponent.closed x hx y hxy (Set.notMem_empty y)
    exact hAB (hA.isComponent.eq_of_mem hB.isComponent hbA hb)
  · intro hconn
    have hpre : ¬G.Preconnected := fun h => hconn ⟨h⟩
    obtain ⟨a, b, hab⟩ : ∃ a b, ¬G.Reachable a b := by
      by_contra hno
      apply hpre
      intro a b
      by_contra hab
      exact hno ⟨a, b, hab⟩
    have hA : G.IsComponent ∅ (G.componentOf ∅ a) := isComponent_componentOf (Set.notMem_empty a)
    have hB : G.IsComponent ∅ (G.componentOf ∅ b) := isComponent_componentOf (Set.notMem_empty b)
    refine ⟨_, _, ?_, hA.isFullComponent_empty, hB.isFullComponent_empty⟩
    intro heq
    have hmem : b ∈ G.componentOf ∅ a := heq ▸ mem_componentOf_self
    apply hab
    rw [← reachIn_univ_iff]
    exact ReachIn.mono_right (Set.subset_univ _) hmem

end SimpleGraph
