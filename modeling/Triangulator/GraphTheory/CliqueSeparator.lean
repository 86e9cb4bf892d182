import Triangulator.GraphTheory.Chordal

/-!
# Clique separators of chordal graphs

Two nonadjacent vertices of a chordal graph are separated by a clique.  From
this follow the existence of simplicial vertices and the fact that a connected
set attached to a clique contains a vertex adjacent to the whole clique.
-/

namespace SimpleGraph

variable {V : Type*} {G H : SimpleGraph V} {S A B C K X : Set V}
  {a b u v w x y : V}

/-! ## Induced paths through a connected set -/

/-- The sequence `p 0, ..., p k` walks from `u` to `v` with all intermediate
vertices in `C`. -/
def IsChain (G : SimpleGraph V) (C : Set V) (u v : V) (k : ℕ) (p : ℕ → V) : Prop :=
  p 0 = u ∧ p k = v ∧ (∀ i < k, G.Adj (p i) (p (i + 1))) ∧
    ∀ i, 0 < i → i < k → p i ∈ C

theorem exists_chain_of_reachIn (hua : G.Adj u a) (ha : a ∈ C)
    (h : G.ReachIn C a b) :
    ∃ k p, 0 < k ∧ p k ∈ C ∧ IsChain G C u b k p := by
  induction h with
  | refl =>
      refine ⟨1, fun i => if i = 0 then u else a, one_pos, by simpa, ?_⟩
      refine ⟨by simp, by simp, fun i hi => ?_, fun i h0 h1 => by omega⟩
      obtain rfl : i = 0 := by omega
      simpa
  | @tail b c _ hstep ih =>
      obtain ⟨k, p, hk, hpk, h0, hkb, hadj, hmem⟩ := ih
      refine ⟨k + 1, fun i => if i = k + 1 then c else p i, by omega,
        by simpa using hstep.2, ?_, by simp, fun i hi => ?_, fun i hi hik => ?_⟩
      · simpa using h0
      · by_cases hik : i = k
        · subst hik
          simpa [hkb] using hstep.1
        · have hne : i ≠ k + 1 := by omega
          simpa [hne, hik] using hadj i (by omega)
      · have hne : i ≠ k + 1 := by omega
        by_cases hlast : i = k
        · simpa [hne, hlast] using hpk
        · simpa [hne] using hmem i hi (by omega)

theorem exists_chain (hC : G.IsConnectedSet C) (hu : u ∈ G.nbhd C)
    (hv : v ∈ G.nbhd C) : ∃ k p, IsChain G C u v k p := by
  obtain ⟨-, a, ha, hau⟩ := hu
  obtain ⟨-, b, hb, hbv⟩ := hv
  obtain ⟨k, p, hk, hpk, h0, hkb, hadj, hmem⟩ :=
    exists_chain_of_reachIn hau.symm ha (hC a ha b hb)
  refine ⟨k + 1, fun i => if i = k + 1 then v else p i, ?_, by simp,
    fun i hi => ?_, fun i hi hik => ?_⟩
  · simpa using h0
  · by_cases hik : i = k
    · subst hik
      simpa [hkb] using hbv
    · have hne : i ≠ k + 1 := by omega
      simpa [hne, hik] using hadj i (by omega)
  · have hne : i ≠ k + 1 := by omega
    by_cases hlast : i = k
    · simpa [hne, hlast] using hpk
    · simpa [hne] using hmem i hi (by omega)

/-- Skip the `d` vertices after position `i` when `p i` is adjacent to the next
one. -/
theorem IsChain.skip {k i d : ℕ} {p : ℕ → V} (h : IsChain G C u v k p)
    (hid : i + d < k) (hadj : G.Adj (p i) (p (i + d + 1))) :
    IsChain G C u v (k - d) fun t => if t ≤ i then p t else p (t + d) := by
  obtain ⟨h0, hk, hstep, hmem⟩ := h
  refine ⟨by simpa using h0, ?_, fun t ht => ?_, fun t h0t ht => ?_⟩
  · have hki : ¬k - d ≤ i := by omega
    simpa [hki, show k - d + d = k by omega] using hk
  · rcases lt_trichotomy t i with hti | rfl | hti
    · simpa [hti.le, Nat.succ_le_of_lt hti] using hstep t (by omega)
    · simpa [Nat.add_right_comm] using hadj
    · have h1 : ¬t ≤ i := by omega
      have h2 : ¬t + 1 ≤ i := by omega
      simpa [h1, h2, Nat.add_right_comm] using hstep (t + d) (by omega)
  · by_cases hti : t ≤ i
    · simpa [hti] using hmem t h0t (by omega)
    · simpa [hti] using hmem (t + d) (by omega) (by omega)

/-- Between two nonadjacent neighbours of a connected set there is an induced
path whose intermediate vertices lie in the set. -/
theorem exists_induced_chain (hC : G.IsConnectedSet C) (hu : u ∈ G.nbhd C)
    (hv : v ∈ G.nbhd C) (huv : u ≠ v) (hna : ¬G.Adj u v) :
    ∃ k p, 2 ≤ k ∧ IsChain G C u v k p ∧
      (∀ i ≤ k, ∀ j ≤ k, p i = p j → i = j) ∧
      ∀ i j, i < j → j ≤ k → G.Adj (p i) (p j) → j = i + 1 := by
  classical
  have hex := exists_chain hC hu hv
  obtain ⟨p, hp⟩ := Nat.find_spec hex
  have hmin : ∀ k' q, IsChain G C u v k' q → Nat.find hex ≤ k' :=
    fun k' q hq => Nat.find_le ⟨q, hq⟩
  generalize Nat.find hex = k at hp hmin
  have hp' := hp
  obtain ⟨h0, hk, hstep, hmem⟩ := hp'
  have hk2 : 2 ≤ k := by
    by_contra hlt
    obtain rfl | rfl : k = 0 ∨ k = 1 := by omega
    · exact huv (h0.symm.trans hk)
    · exact hna (h0 ▸ hk ▸ hstep 0 one_pos)
  refine ⟨k, p, hk2, hp, ?_, ?_⟩
  · have hlt : ∀ i j, i < j → j ≤ k → p i ≠ p j := by
      intro i j hij hjk heq
      by_cases hj : j = k
      · -- the path already ends at position `i`
        subst hj
        have : IsChain G C u v i p :=
          ⟨h0, heq.trans hk, fun t ht => hstep t (by omega),
            fun t ht0 ht => hmem t ht0 (by omega)⟩
        have := hmin _ _ this
        omega
      · have hadj : G.Adj (p i) (p (i + (j - i) + 1)) := by
          rw [heq, show i + (j - i) + 1 = j + 1 by omega]
          exact hstep j (by omega)
        have := hmin _ _ (hp.skip (by omega) hadj)
        omega
    intro i hi j hj heq
    rcases lt_trichotomy i j with hij | hij | hij
    · exact absurd heq (hlt i j hij hj)
    · exact hij
    · exact absurd heq.symm (hlt j i hij hi)
  · intro i j hij hjk hadj
    by_contra hne
    have hadj' : G.Adj (p i) (p (i + (j - i - 1) + 1)) := by
      rwa [show i + (j - i - 1) + 1 = j by omega]
    have := hmin _ _ (hp.skip (by omega) hadj')
    omega

/-! ## Nonadjacent vertices are separated by a clique -/

/-- In a chordal graph the neighbours of `x` that are attached to one
connected set disjoint from the closed neighbourhood of `x` form a clique. -/
theorem IsChordal.isClique_nbhd (hG : G.IsChordal) (hC : G.IsConnectedSet C)
    (hx : x ∉ C) (hCx : ∀ c ∈ C, ¬G.Adj x c) (hN : ∀ t ∈ G.nbhd C, G.Adj x t) :
    G.IsClique (G.nbhd C) := by
  intro u hu v hv huv
  by_contra hna
  obtain ⟨k, p, hk, ⟨h0, hpk, hstep, hmem⟩, hinj, hind⟩ :=
    exists_induced_chain hC hu hv huv hna
  have hx_ne : ∀ i ≤ k, p i ≠ x := by
    intro i hi heq
    obtain rfl | rfl | ⟨hi0, hik⟩ : i = 0 ∨ i = k ∨ (0 < i ∧ i < k) := by omega
    · exact (hN u hu).ne (heq.symm.trans h0)
    · exact (hN v hv).ne (heq.symm.trans hpk)
    · exact hx (heq ▸ hmem i hi0 hik)
  -- The path closed up through `x` is a hole.
  refine IsHole.not_isChordal (k := k + 2)
    (g := fun i => if i ≤ k then p i else x) ⟨by omega, ?_, ?_⟩ hG
  · intro s hs t ht hst
    split at hst <;> split at hst
    · exact hinj s ‹_› t ‹_› hst
    · exact absurd hst (hx_ne s ‹_›)
    · exact absurd hst.symm (hx_ne t ‹_›)
    · omega
  · intro s t hst ht
    by_cases htk : t ≤ k
    · have hsk : s ≤ k := by omega
      simp only [if_pos htk, if_pos hsk]
      constructor
      · exact fun hadj => Or.inl (hind s t hst htk hadj)
      · rintro (rfl | h)
        · exact hstep s (by omega)
        · omega
    · obtain rfl : t = k + 1 := by omega
      have hsk : s ≤ k := by omega
      simp only [if_neg htk, if_pos hsk]
      obtain rfl | rfl | ⟨hs0, hslt⟩ : s = 0 ∨ s = k ∨ (0 < s ∧ s < k) := by omega
      · simpa [h0] using (hN u hu).symm
      · simpa [hpk] using (hN v hv).symm
      · have hnadj := fun h : G.Adj (p s) x => hCx _ (hmem s hs0 hslt) h.symm
        constructor
        · exact fun h => absurd h hnadj
        · omega

/-- `T` separates `x` from `y` in `G`. -/
structure Separates (G : SimpleGraph V) (T : Set V) (x y : V) : Prop where
  left : x ∉ T
  right : y ∉ T
  not_reach : ¬G.ReachIn Tᶜ x y

namespace Separates

theorem mono {T : Set V} (hGH : G ≤ H) (h : H.Separates T x y) :
    G.Separates T x y :=
  ⟨h.left, h.right, fun hr => h.not_reach (hr.mono hGH subset_rfl)⟩

theorem mem_of_common {T : Set V} (h : G.Separates T x y) (hx : G.Adj x w)
    (hy : G.Adj y w) : w ∈ T := by
  by_contra hw
  exact h.not_reach ((ReachIn.of_adj hx hw).tail hy.symm h.right)

/-- A connected set attached to both sides of a separator meets it. -/
theorem exists_mem {T : Set V} (h : G.Separates T x y)
    (hC : G.IsConnectedSet C) (hx : G.Adj x a) (ha : a ∈ C)
    (hb : b ∈ C) (hy : G.Adj y b) : ∃ c ∈ C, c ∈ T := by
  by_contra hno
  push Not at hno
  have hCT : C ⊆ Tᶜ := hno
  have hab := (hC a ha b hb).mono_right hCT
  exact h.not_reach ((ReachIn.head hx (hno a ha) hab).tail hy.symm h.right)

end Separates

/-- Two nonadjacent vertices of a chordal graph are separated by a clique
contained in the neighbourhood of one of them. -/
theorem IsChordal.exists_clique_separates (hG : G.IsChordal) (hxy : x ≠ y)
    (hna : ¬G.Adj x y) :
    ∃ T, G.IsClique T ∧ (∀ t ∈ T, G.Adj x t) ∧ G.Separates T x y := by
  set N : Set V := insert x (G.neighborSet x) with hNdef
  have hyN : y ∉ N := by
    rintro (rfl | hy)
    · exact hxy rfl
    · exact hna hy
  have hC := isComponent_componentOf (G := G) hyN
  set C := G.componentOf N y
  have hxC : x ∉ C := fun hx => hC.notMem x hx (Or.inl rfl)
  have hCx : ∀ c ∈ C, ¬G.Adj x c := fun c hc hadj => hC.notMem c hc (Or.inr hadj)
  have hNx : ∀ t ∈ G.nbhd C, G.Adj x t := by
    intro t ht
    rcases hC.nbhd_subset ht with rfl | hadj
    · obtain ⟨-, c, hc, hct⟩ := ht
      exact absurd hct.symm (hCx c hc)
    · exact hadj
  have hxT : x ∉ G.nbhd C := fun ⟨_, c, hc, hcx⟩ => hCx c hc hcx.symm
  refine ⟨G.nbhd C, hG.isClique_nbhd hC.connected hxC hCx hNx, hNx, hxT, ?_, ?_⟩
  · exact fun h => h.1 mem_componentOf_self
  · intro hr
    have hmem := hr.mem_of_closed (A := {w | w ∉ C ∧ w ∉ G.nbhd C})
      ⟨hxC, hxT⟩ fun a ha b hb hab =>
        ⟨fun hbC => ha.2 ⟨ha.1, b, hbC, hab.symm⟩, hb⟩
    exact hmem.1 mem_componentOf_self

theorem Separates.symm {T : Set V} (h : G.Separates T x y) :
    G.Separates T y x :=
  ⟨h.right, h.left, fun hr => h.not_reach (hr.symm h.right)⟩

/-! ## Simplicial vertices -/

/-- The neighbours of `v` inside `A` form a clique. -/
def IsSimplicialIn (G : SimpleGraph V) (A : Set V) (v : V) : Prop :=
  G.IsClique (G.neighborSet v ∩ A)

/-- Every nonclique contains two nonadjacent simplicial vertices. -/
def HasSimplicialPair (G : SimpleGraph V) (A : Set V) : Prop :=
  G.IsClique A ∨ ∃ u ∈ A, ∃ v ∈ A, u ≠ v ∧ ¬G.Adj u v ∧
    G.IsSimplicialIn A u ∧ G.IsSimplicialIn A v

/-- A simplicial vertex can be chosen outside any given clique. -/
theorem HasSimplicialPair.exists_notMem (h : G.HasSimplicialPair A)
    (hK : G.IsClique K) (ha : a ∈ A) (haK : a ∉ K) :
    ∃ s ∈ A, s ∉ K ∧ G.IsSimplicialIn A s := by
  rcases h with hA | ⟨u, hu, v, hv, huv, hna, hus, hvs⟩
  · exact ⟨a, ha, haK, hA.subset Set.inter_subset_right⟩
  · by_cases huK : u ∈ K
    · exact ⟨v, hv, fun hvK => hna (hK huK hvK huv), hvs⟩
    · exact ⟨u, hu, huK, hus⟩

/-- One side of a clique separator contains a vertex that is simplicial in the
whole set. -/
theorem exists_simplicial_side {T : Set V} (hT : G.IsClique T) (ha : a ∈ A)
    (hsep : (G.within A).Separates T a b)
    (hpair : G.HasSimplicialPair ((G.within A).componentOf T a ∪ T)) :
    ∃ s ∈ (G.within A).componentOf T a, s ∈ A ∧ G.IsSimplicialIn A s := by
  set C := (G.within A).componentOf T a with hCdef
  have hCA : C ⊆ A := by
    intro w hw
    exact ReachIn.mem_of_closed (A := A) hw ha fun _ _ _ _ h => h.2.2
  obtain ⟨s, hs, hsT, hsimp⟩ :=
    hpair.exists_notMem hT (Or.inl mem_componentOf_self) hsep.left
  have hsC : s ∈ C := hs.resolve_right hsT
  refine ⟨s, hsC, hCA hsC, hsimp.subset ?_⟩
  rintro w ⟨hsw, hwA⟩
  refine ⟨hsw, ?_⟩
  by_cases hwT : w ∈ T
  · exact Or.inr hwT
  · exact Or.inl (ReachIn.tail hsC ⟨hsw, hCA hsC, hwA⟩ hwT)

/-- A vertex set of a chordal graph is a clique or contains two nonadjacent
simplicial vertices. -/
theorem IsChordal.hasSimplicialPair [Finite V] (hG : G.IsChordal)
    (A : Set V) : G.HasSimplicialPair A := by
  induction hn : A.ncard using Nat.strong_induction_on generalizing A with
  | _ n ih =>
      subst hn
      by_cases hA : G.IsClique A
      · exact Or.inl hA
      · right
        obtain ⟨a, ha, b, hb, hab, hna⟩ :
            ∃ a ∈ A, ∃ b ∈ A, a ≠ b ∧ ¬G.Adj a b := by
          by_contra hno
          push Not at hno
          exact hA fun a ha b hb hab => hno a ha b hb hab
        obtain ⟨T, hT, haT, hsep⟩ :=
          (hG.within A).exists_clique_separates hab fun h => hna h.1
        have hTG : G.IsClique T := hT.mono_graph (within_le A)
        have hTA : T ⊆ A := fun t ht => (haT t ht).2.2
        have hlt : ∀ c d, c ∈ A → d ∈ A → (G.within A).Separates T c d →
            ((G.within A).componentOf T c ∪ T).ncard < A.ncard := by
          intro c d hc hd hcd
          refine Set.ncard_lt_ncard ⟨?_, fun hsub => ?_⟩ (Set.toFinite A)
          · rintro w (hw | hw)
            · exact ReachIn.mem_of_closed (A := A) hw hc fun _ _ _ _ h => h.2.2
            · exact hTA hw
          · exact (hsub hd).elim hcd.not_reach hcd.right
        obtain ⟨s, hsC, hsA, hs⟩ := exists_simplicial_side hTG ha hsep
          (ih _ (hlt a b ha hb hsep) _ rfl)
        obtain ⟨t, htC, htA, ht⟩ := exists_simplicial_side hTG hb hsep.symm
          (ih _ (hlt b a hb ha hsep.symm) _ rfl)
        have htT : t ∉ T := ReachIn.mem (X := Tᶜ) htC hsep.right
        have hback := ReachIn.symm htC hsep.right
        refine ⟨s, hsA, t, htA, ?_, fun hst => ?_, hs, ht⟩
        · rintro rfl
          exact hsep.not_reach (ReachIn.trans hsC hback)
        · exact hsep.not_reach
            ((ReachIn.tail hsC ⟨hst, hsA, htA⟩ htT).trans hback)

/-- Every nonempty vertex set of a chordal graph contains a vertex that is
simplicial in it. -/
theorem IsChordal.exists_simplicial [Finite V] (hG : G.IsChordal)
    (hA : A.Nonempty) : ∃ s ∈ A, G.IsSimplicialIn A s := by
  obtain ⟨a, ha⟩ := hA
  obtain ⟨s, hs, -, hsimp⟩ := (hG.hasSimplicialPair A).exists_notMem
    (K := ∅) (by simp) ha (by simp)
  exact ⟨s, hs, hsimp⟩

/-- Deleting a simplicial vertex keeps a connected set connected. -/
theorem IsConnectedSet.diff_simplicial {s : V} (hC : G.IsConnectedSet C)
    (hs : G.IsSimplicialIn C s) : G.IsConnectedSet (C \ {s}) := by
  intro u hu v hv
  have key : ∀ w, G.ReachIn C u w →
      (w ≠ s → G.ReachIn (C \ {s}) u w) ∧
      (w = s → ∀ x ∈ C \ {s}, G.Adj s x → G.ReachIn (C \ {s}) u x) := by
    intro w hw
    induction hw with
    | refl => exact ⟨fun _ => ReachIn.refl _, fun h => absurd h hu.2⟩
    | @tail b c hub hstep ih =>
        refine ⟨fun hc => ?_, ?_⟩
        · by_cases hb : b = s
          · exact ih.2 hb c ⟨hstep.2, hc⟩ (hb ▸ hstep.1)
          · exact (ih.1 hb).tail hstep.1 ⟨hstep.2, hc⟩
        · rintro rfl x hx hsx
          have hb : b ≠ c := hstep.1.ne
          have hbC : b ∈ C := ReachIn.mem hub hu.1
          by_cases hbx : b = x
          · exact hbx ▸ ih.1 hb
          · exact (ih.1 hb).tail
              (hs ⟨hstep.1.symm, hbC⟩ ⟨hsx, hx.1⟩ hbx) hx
  exact (key v (hC u hu.1 v hv.1)).1 hv.2

/-- In a chordal graph, a connected set in which every vertex of a clique has
a neighbour contains a vertex adjacent to the whole clique. -/
theorem IsChordal.exists_adj_clique [Finite V] (hG : G.IsChordal)
    (hC : G.IsConnectedSet C) (hne : C.Nonempty) (hK : G.IsClique K)
    (hdisj : ∀ v ∈ C, v ∉ K) (hN : ∀ t ∈ K, ∃ c ∈ C, G.Adj c t) :
    ∃ c ∈ C, ∀ t ∈ K, G.Adj c t := by
  induction hn : C.ncard using Nat.strong_induction_on generalizing C with
  | _ n ih =>
      subst hn
      obtain ⟨c₀, hc₀⟩ := hne
      obtain ⟨s, hsA, hsK, hs⟩ := (hG.hasSimplicialPair (C ∪ K)).exists_notMem
        hK (Or.inl hc₀) (hdisj c₀ hc₀)
      have hsC : s ∈ C := hsA.resolve_right hsK
      by_cases hone : ∀ c ∈ C, c = s
      · refine ⟨s, hsC, fun t ht => ?_⟩
        obtain ⟨c, hc, hct⟩ := hN t ht
        exact hone c hc ▸ hct
      · push Not at hone
        obtain ⟨c₁, hc₁, hc₁s⟩ := hone
        have hsimpC : G.IsSimplicialIn C s :=
          hs.subset (Set.inter_subset_inter_right _ Set.subset_union_left)
        obtain ⟨c₂, hc₂, hsc₂⟩ : ∃ c ∈ C, G.Adj s c := by
          obtain ⟨a, rfl, b, -, hb, hab⟩ := (hC s hsC c₁ hc₁).exists_exit
            (A := {s}) rfl hc₁s
          exact ⟨b, hb, hab⟩
        have hlt : (C \ {s}).ncard < C.ncard :=
          Set.ncard_sdiff_singleton_lt_of_mem hsC (Set.toFinite C)
        have hN' : ∀ t ∈ K, ∃ c ∈ C \ {s}, G.Adj c t := by
          intro t ht
          obtain ⟨c, hc, hct⟩ := hN t ht
          by_cases hcs : c = s
          · have hne : c₂ ≠ t := fun h => hdisj c₂ hc₂ (h ▸ ht)
            exact ⟨c₂, ⟨hc₂, hsc₂.ne'⟩,
              hs ⟨hsc₂, Or.inl hc₂⟩ ⟨hcs ▸ hct, Or.inr ht⟩ hne⟩
          · exact ⟨c, ⟨hc, hcs⟩, hct⟩
        obtain ⟨c, hc, hcK⟩ := ih _ hlt (hC.diff_simplicial hsimpC)
          ⟨c₁, hc₁, hc₁s⟩ (fun v hv => hdisj v hv.1) hN' rfl
        exact ⟨c, hc.1, hcK⟩

end SimpleGraph
