import Mathlib

/-!
# Reachability inside a vertex set and the components of a vertex-deleted graph

Separators are handled without passing to subtypes: `ReachIn G X` is
reachability by edges whose targets stay in `X`, and `IsComponent G S C` says
that `C` is a connected component of `G` after the vertices of `S` are deleted.
-/

namespace SimpleGraph

variable {V : Type*} {G H : SimpleGraph V} {S C D X Y : Set V} {u v w : V}

/-- `v` is reached from `u` along edges of `G` whose targets all lie in `X`. -/
def ReachIn (G : SimpleGraph V) (X : Set V) : V → V → Prop :=
  Relation.ReflTransGen fun a b => G.Adj a b ∧ b ∈ X

namespace ReachIn

theorem refl (v : V) : G.ReachIn X v v :=
  Relation.ReflTransGen.refl

theorem trans (huv : G.ReachIn X u v) (hvw : G.ReachIn X v w) :
    G.ReachIn X u w :=
  Relation.ReflTransGen.trans huv hvw

theorem tail (huv : G.ReachIn X u v) (hvw : G.Adj v w) (hw : w ∈ X) :
    G.ReachIn X u w :=
  Relation.ReflTransGen.tail huv ⟨hvw, hw⟩

theorem of_adj (huv : G.Adj u v) (hv : v ∈ X) : G.ReachIn X u v :=
  (refl u).tail huv hv

theorem head (huv : G.Adj u v) (hv : v ∈ X) (hvw : G.ReachIn X v w) :
    G.ReachIn X u w :=
  (of_adj huv hv).trans hvw

/-- A set that contains `u` and is closed under the steps contains everything
reached from `u`. -/
theorem mem_of_closed {A : Set V} (h : G.ReachIn X u v) (hu : u ∈ A)
    (hA : ∀ a ∈ A, ∀ b ∈ X, G.Adj a b → b ∈ A) : v ∈ A := by
  induction h with
  | refl => exact hu
  | tail _ hstep ih => exact hA _ ih _ hstep.2 hstep.1

theorem mem (h : G.ReachIn X u v) (hu : u ∈ X) : v ∈ X :=
  h.mem_of_closed hu fun _ _ _ hb _ => hb

theorem eq_or_mem (h : G.ReachIn X u v) : v = u ∨ v ∈ X := by
  cases h with
  | refl => exact Or.inl rfl
  | tail _ hstep => exact Or.inr hstep.2

theorem mono (hGH : G ≤ H) (hXY : X ⊆ Y) (h : G.ReachIn X u v) :
    H.ReachIn Y u v := by
  induction h with
  | refl => exact refl u
  | tail _ hstep ih => exact ih.tail (hGH hstep.1) (hXY hstep.2)

theorem mono_right (hXY : X ⊆ Y) (h : G.ReachIn X u v) : G.ReachIn Y u v :=
  h.mono le_rfl hXY

theorem symm (h : G.ReachIn X u v) (hu : u ∈ X) : G.ReachIn X v u := by
  induction h with
  | refl => exact refl u
  | tail hpre hstep ih =>
      exact head hstep.1.symm (ReachIn.mem hpre hu) ih

/-- A step out of `A` occurs on the way from inside `A` to outside `A`. -/
theorem exists_exit {A : Set V} (h : G.ReachIn X u v) (hu : u ∈ A)
    (hv : v ∉ A) : ∃ a ∈ A, ∃ b, b ∉ A ∧ b ∈ X ∧ G.Adj a b := by
  by_contra hno
  push Not at hno
  exact hv (h.mem_of_closed hu fun a ha b hb hab => by
    by_contra hbA
    exact hno a ha b hbA hb hab)

/-- Reachability survives the restriction to any set that is closed under the
steps. -/
theorem restrict {A : Set V} (h : G.ReachIn X u v) (hu : u ∈ A)
    (hA : ∀ a ∈ A, ∀ b ∈ X, G.Adj a b → b ∈ A) :
    G.ReachIn (X ∩ A) u v := by
  induction h with
  | refl => exact refl u
  | tail hpre hstep ih =>
      exact ih.tail hstep.1
        ⟨hstep.2, hA _ (ReachIn.mem_of_closed hpre hu hA) _ hstep.2 hstep.1⟩

/-- Only the edges inside `X` matter for reachability from `X` inside `X`. -/
theorem congr_graph (h : G.ReachIn X u v) (hu : u ∈ X)
    (hadj : ∀ a ∈ X, ∀ b ∈ X, G.Adj a b → H.Adj a b) : H.ReachIn X u v := by
  induction h with
  | refl => exact refl u
  | tail hpre hstep ih =>
      exact ih.tail (hadj _ (ReachIn.mem hpre hu) _ hstep.2 hstep.1) hstep.2

end ReachIn

/-- Any two vertices of `C` are joined by a walk inside `C`. -/
def IsConnectedSet (G : SimpleGraph V) (C : Set V) : Prop :=
  ∀ u ∈ C, ∀ v ∈ C, G.ReachIn C u v

theorem IsConnectedSet.mono (hGH : G ≤ H) (h : G.IsConnectedSet C) :
    H.IsConnectedSet C :=
  fun u hu v hv => (h u hu v hv).mono hGH subset_rfl

theorem IsConnectedSet.congr_graph (h : G.IsConnectedSet C)
    (hadj : ∀ a ∈ C, ∀ b ∈ C, G.Adj a b → H.Adj a b) : H.IsConnectedSet C :=
  fun u hu v hv => (h u hu v hv).congr_graph hu hadj

/-- A set all of whose vertices are reached from one of them is connected. -/
theorem isConnectedSet_of_root (hu : u ∈ C)
    (h : ∀ v ∈ C, G.ReachIn C u v) : G.IsConnectedSet C :=
  fun a ha b hb => ((h a ha).symm hu).trans (h b hb)

theorem isConnectedSet_singleton (v : V) : G.IsConnectedSet {v} := by
  rintro a rfl b rfl
  exact ReachIn.refl _

/-- Two connected sets joined by an edge or sharing a vertex form a connected
set. -/
theorem IsConnectedSet.union (hC : G.IsConnectedSet C)
    (hD : G.IsConnectedSet D) (hu : u ∈ C) (hv : v ∈ D)
    (h : u = v ∨ G.Adj u v) : G.IsConnectedSet (C ∪ D) := by
  have hjoin : G.ReachIn (C ∪ D) u v := by
    rcases h with rfl | h
    · exact ReachIn.refl _
    · exact ReachIn.of_adj h (Or.inr hv)
  refine isConnectedSet_of_root (Or.inl hu) ?_
  rintro w (hw | hw)
  · exact (hC u hu w hw).mono_right Set.subset_union_left
  · exact hjoin.trans ((hD v hv w hw).mono_right Set.subset_union_right)

/-- The vertices outside `C` that have a neighbour in `C`. -/
def nbhd (G : SimpleGraph V) (C : Set V) : Set V :=
  {v | v ∉ C ∧ ∃ u ∈ C, G.Adj u v}

theorem mem_nbhd : v ∈ G.nbhd C ↔ v ∉ C ∧ ∃ u ∈ C, G.Adj u v :=
  Iff.rfl

/-- The set of vertices reached from `v` when the vertices of `S` are
deleted. -/
def componentOf (G : SimpleGraph V) (S : Set V) (v : V) : Set V :=
  {w | G.ReachIn Sᶜ v w}

/-- `C` is a connected component of `G` with the vertices of `S` deleted. -/
structure IsComponent (G : SimpleGraph V) (S C : Set V) : Prop where
  nonempty : C.Nonempty
  notMem : ∀ v ∈ C, v ∉ S
  connected : G.IsConnectedSet C
  closed : ∀ u ∈ C, ∀ v, G.Adj u v → v ∉ S → v ∈ C

theorem mem_componentOf_self : v ∈ G.componentOf S v :=
  ReachIn.refl v

theorem isComponent_componentOf (hv : v ∉ S) :
    G.IsComponent S (G.componentOf S v) where
  nonempty := ⟨v, mem_componentOf_self⟩
  notMem := fun _ hw => ReachIn.mem hw hv
  connected := by
    refine isConnectedSet_of_root mem_componentOf_self ?_
    intro w hw
    have h := ReachIn.restrict (A := G.componentOf S v) hw
      mem_componentOf_self fun a ha b hb hab => ReachIn.tail ha hab hb
    exact h.mono_right Set.inter_subset_right
  closed := fun _ hu _ huw hw => ReachIn.tail hu huw hw

/-- A connected set that avoids `S` lies in one component. -/
theorem IsConnectedSet.subset_componentOf (hC : G.IsConnectedSet C)
    (hCS : ∀ w ∈ C, w ∉ S) (hv : v ∈ C) : C ⊆ G.componentOf S v :=
  fun w hw => (hC v hv w hw).mono_right hCS

namespace IsComponent

/-- A connected set that avoids `S` and meets a component lies in it. -/
theorem subset_of_connected (hC : G.IsComponent S C)
    (hD : G.IsConnectedSet D) (hDS : ∀ w ∈ D, w ∉ S)
    (hvC : v ∈ C) (hvD : v ∈ D) : D ⊆ C := fun w hw =>
  (hD v hvD w hw).mem_of_closed hvC fun a ha b hb hab =>
    hC.closed a ha b hab (hDS b hb)

theorem eq_of_mem (hC : G.IsComponent S C) (hD : G.IsComponent S D)
    (hvC : v ∈ C) (hvD : v ∈ D) : C = D :=
  Set.Subset.antisymm
    (hD.subset_of_connected hC.connected hC.notMem hvD hvC)
    (hC.subset_of_connected hD.connected hD.notMem hvC hvD)

theorem eq_componentOf (hC : G.IsComponent S C) (hv : v ∈ C) :
    C = G.componentOf S v :=
  hC.eq_of_mem (isComponent_componentOf (hC.notMem v hv)) hv
    mem_componentOf_self

theorem nbhd_subset (hC : G.IsComponent S C) : G.nbhd C ⊆ S := by
  rintro v ⟨hvC, u, hu, huv⟩
  by_contra hvS
  exact hvC (hC.closed u hu v huv hvS)

/-- No edge joins a component to a vertex outside the component and its
neighbourhood. -/
theorem not_adj (_hC : G.IsComponent S C) (hu : u ∈ C) (hv : v ∉ C)
    (hvN : v ∉ G.nbhd C) : ¬G.Adj u v :=
  fun h => hvN ⟨hv, u, hu, h⟩

/-- Deleting any set between the neighbourhood and the complement leaves the
component intact. -/
theorem of_nbhd_subset (hC : G.IsComponent S C) (hN : G.nbhd C ⊆ X)
    (hX : ∀ v ∈ C, v ∉ X) : G.IsComponent X C where
  nonempty := hC.nonempty
  notMem := hX
  connected := hC.connected
  closed := fun u hu v huv hv => by
    by_contra hvC
    exact hv (hN ⟨hvC, u, hu, huv⟩)

theorem nbhd_self (hC : G.IsComponent S C) : G.IsComponent (G.nbhd C) C :=
  hC.of_nbhd_subset subset_rfl fun _ hv h => h.1 hv

theorem nbhd_eq_iff (hC : G.IsComponent S C) :
    G.nbhd C = S ↔ ∀ s ∈ S, ∃ c ∈ C, G.Adj c s := by
  constructor
  · intro h s hs
    rw [← h] at hs
    exact hs.2
  · intro h
    refine Set.Subset.antisymm hC.nbhd_subset fun s hs => ?_
    exact ⟨fun hsC => hC.notMem s hsC hs, h s hs⟩

end IsComponent

/-- The graph on the same vertices with only the edges inside `A`. -/
def within (G : SimpleGraph V) (A : Set V) : SimpleGraph V where
  Adj u v := G.Adj u v ∧ u ∈ A ∧ v ∈ A
  symm := ⟨fun _ _ h => ⟨h.1.symm, h.2.2, h.2.1⟩⟩
  loopless := ⟨fun _ h => G.loopless.irrefl _ h.1⟩

@[simp] theorem within_adj {A : Set V} :
    (G.within A).Adj u v ↔ G.Adj u v ∧ u ∈ A ∧ v ∈ A :=
  Iff.rfl

theorem within_le (A : Set V) : G.within A ≤ G :=
  fun _ _ h => h.1

theorem within_mono {A B : Set V} (hGH : G ≤ H) (hAB : A ⊆ B) :
    G.within A ≤ H.within B :=
  fun _ _ h => ⟨hGH h.1, hAB h.2.1, hAB h.2.2⟩

/-- The complete graph on the vertex set `A`. -/
def completeOn (A : Set V) : SimpleGraph V where
  Adj u v := u ≠ v ∧ u ∈ A ∧ v ∈ A
  symm := ⟨fun _ _ h => ⟨h.1.symm, h.2.2, h.2.1⟩⟩
  loopless := ⟨fun _ h => h.1 rfl⟩

@[simp] theorem completeOn_adj {A : Set V} :
    (completeOn A).Adj u v ↔ u ≠ v ∧ u ∈ A ∧ v ∈ A :=
  Iff.rfl

theorem completeOn_le_iff {A : Set V} :
    completeOn A ≤ G ↔ G.IsClique A :=
  ⟨fun h _ ha _ hb hab => h ⟨hab, ha, hb⟩,
    fun h _ _ hab => h hab.2.1 hab.2.2 hab.1⟩

theorem IsClique.mono_graph {A : Set V} (hGH : G ≤ H) (h : G.IsClique A) :
    H.IsClique A :=
  fun _ ha _ hb hab => hGH (h ha hb hab)

end SimpleGraph
