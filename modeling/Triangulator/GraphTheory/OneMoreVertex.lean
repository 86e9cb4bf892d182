import Triangulator.GraphTheory.MinimalSeparator
import Triangulator.GraphTheory.BlockRecurrence

/-!
# Potential maximal cliques when a vertex is added

`H` is obtained from `G` by giving edges to the vertex `x`, which is isolated in
`G`.  Every potential maximal clique of `H` comes from one of `G`, from a
minimal separator of `H` and `x`, or from two minimal separators of `H`.
-/

namespace SimpleGraph

variable {V : Type*} {G H : SimpleGraph V} {S K D P Ω : Set V} {u v w x y z : V}

/-- `G` is `H` without the edges at `x`. -/
def VertexAdded (G H : SimpleGraph V) (x : V) : Prop :=
  ∀ u v, G.Adj u v ↔ H.Adj u v ∧ u ≠ x ∧ v ≠ x

/-- A vertex next to the component of `x` is adjacent to `x` or sees a component
that remains when `x` is deleted too and that `x` sees. -/
theorem IsComponent.adj_or_shared (hK : H.IsComponent S K) (hx : x ∈ K)
    (hy : y ∈ H.nbhd K) :
    H.Adj x y ∨ ∃ D, H.IsComponent (insert x S) D ∧ x ∈ H.nbhd D ∧ y ∈ H.nbhd D := by
  obtain ⟨hyK, k, hk, hky⟩ := hy
  by_cases hkx : k = x
  · exact Or.inl (hkx ▸ hky)
  · right
    have hkX : k ∉ insert x S := by
      rintro (h | h)
      · exact hkx h
      · exact hK.notMem k hk h
    have hD := isComponent_componentOf (G := H) hkX
    set D := H.componentOf (insert x S) k
    have hkD : k ∈ D := mem_componentOf_self
    have hxD : x ∉ D := fun h => hD.notMem x h (Or.inl rfl)
    obtain ⟨a, ha, b, hbD, hbK, hab⟩ := (hK.connected k hk x hx).exists_exit hkD hxD
    have hbx : b = x := by
      by_contra hbx
      refine hbD (hD.closed a ha b hab ?_)
      rintro (h | h)
      · exact hbx h
      · exact hK.notMem b hbK h
    subst hbx
    refine ⟨D, hD, ⟨hxD, a, ha, hab⟩, ?_, k, hkD, hky⟩
    intro hyD
    refine hD.notMem y hyD (Or.inr ?_)
    exact hK.nbhd_subset ⟨hyK, k, hk, hky⟩

/-- Conversely, what `x` sees through a component lies next to the component of
`x`. -/
theorem mem_nbhd_componentOf (hxS : x ∉ S) (hyS : y ∈ S)
    (h : H.Adj x y ∨ ∃ D, H.IsComponent (insert x S) D ∧ x ∈ H.nbhd D ∧
      y ∈ H.nbhd D) : y ∈ H.nbhd (H.componentOf S x) := by
  have hK := isComponent_componentOf (G := H) hxS
  have hyK : y ∉ H.componentOf S x := fun hmem => hK.notMem y hmem hyS
  rcases h with hadj | ⟨D, hD, ⟨-, d, hd, hdx⟩, -, e, he, hey⟩
  · exact ⟨hyK, x, mem_componentOf_self, hadj⟩
  · refine ⟨hyK, e, ?_, hey⟩
    have hDS : ∀ w ∈ D, w ∉ S := fun w hw hwS => hD.notMem w hw (Or.inr hwS)
    have hdK : d ∈ H.componentOf S x :=
      hK.closed x mem_componentOf_self d hdx.symm (hDS d hd)
    exact hK.subset_of_connected hD.connected hDS hdK hd he

namespace VertexAdded

theorem le (h : G.VertexAdded H x) : G ≤ H :=
  fun u v huv => ((h u v).mp huv).1

/-- Away from `x` the two graphs have the same neighbourhoods, up to `x`. -/
theorem mem_nbhd_iff (h : G.VertexAdded H x) (hxD : x ∉ D) :
    v ∈ G.nbhd D ↔ v ∈ H.nbhd D ∧ v ≠ x := by
  constructor
  · rintro ⟨hv, d, hd, hdv⟩
    exact ⟨⟨hv, d, hd, h.le hdv⟩, ((h d v).mp hdv).2.2⟩
  · rintro ⟨⟨hv, d, hd, hdv⟩, hvx⟩
    exact ⟨hv, d, hd, (h d v).mpr ⟨hdv, fun hdx => hxD (hdx ▸ hd), hvx⟩⟩

theorem isConnectedSet_iff (h : G.VertexAdded H x) (hxD : x ∉ D) :
    G.IsConnectedSet D ↔ H.IsConnectedSet D :=
  ⟨fun hD => hD.mono h.le, fun hD => hD.congr_graph fun a ha b hb hab =>
    (h a b).mpr ⟨hab, fun hax => hxD (hax ▸ ha), fun hbx => hxD (hbx ▸ hb)⟩⟩

/-- The components outside a set that contains `x`. -/
theorem isComponent_insert_iff (h : G.VertexAdded H x) (hxD : x ∉ D) :
    H.IsComponent (insert x S) D ↔ G.IsComponent S D := by
  constructor
  · intro hD
    refine ⟨hD.nonempty, fun v hv hvS => hD.notMem v hv (Or.inr hvS),
      (h.isConnectedSet_iff hxD).mpr hD.connected, fun u hu v huv hv => ?_⟩
    refine hD.closed u hu v (h.le huv) ?_
    rintro (hvx | hvS)
    · exact ((h u v).mp huv).2.2 hvx
    · exact hv hvS
  · intro hD
    refine ⟨hD.nonempty, ?_, (h.isConnectedSet_iff hxD).mp hD.connected,
      fun u hu v huv hv => ?_⟩
    · rintro v hv (hvx | hvS)
      · exact hxD (hvx ▸ hv)
      · exact hD.notMem v hv hvS
    · refine hD.closed u hu v ((h u v).mpr ⟨huv, ?_, ?_⟩) fun hvS => hv (Or.inr hvS)
      · exact fun hux => hxD (hux ▸ hu)
      · exact fun hvx => hv (Or.inl hvx)

/-- Two vertices that share a component keep sharing one. -/
theorem cliquish (h : G.VertexAdded H x) (hP : G.IsPmc P) (hu : u ∈ P) (hv : v ∈ P)
    (huv : u ≠ v) :
    H.Adj u v ∨ ∃ D, H.IsComponent P D ∧ u ∈ H.nbhd D ∧ v ∈ H.nbhd D := by
  rcases hP.cliquish u hu v hv huv with hadj | ⟨D, hD, ⟨-, d, hd, hdu⟩, -, e, he, hev⟩
  · exact Or.inl (h.le hadj)
  · right
    have hE := isComponent_componentOf (G := H) (hD.notMem d hd)
    have hsub := (hD.connected.mono h.le).subset_componentOf hD.notMem hd
    exact ⟨_, hE, ⟨fun hmem => hE.notMem u hmem hu, d, hsub hd, h.le hdu⟩,
      fun hmem => hE.notMem v hmem hv, e, hsub he, h.le hev⟩

/-! ## Cliques that are kept or built -/

/-- A potential maximal clique that got no full component is kept. -/
theorem isPmc_keep (h : G.VertexAdded H x) (hP : G.IsPmc P)
    (hfull : ∀ D, ¬H.IsFullComponent P D) : H.IsPmc P where
  no_full := fun D hD heq => hfull D ⟨hD, heq⟩
  cliquish := fun _ hu _ hv huv => h.cliquish hP hu hv huv

/-- A potential maximal clique with the component of `x` full is extended by
`x`. -/
theorem isPmc_extend (h : G.VertexAdded H x) (hP : G.IsPmc P) (hxP : x ∉ P)
    (hfull : H.IsFullComponent P (H.componentOf P x)) : H.IsPmc (insert x P) where
  no_full := by
    intro D hD heq
    have hxD : x ∉ D := fun hmem => hD.notMem x hmem (Or.inl rfl)
    refine hP.no_full D ((h.isComponent_insert_iff hxD).mp hD) ?_
    ext v
    rw [h.mem_nbhd_iff hxD, heq, Set.mem_insert_iff]
    exact ⟨fun hv => hv.1.resolve_left hv.2, fun hv => ⟨Or.inr hv, fun hvx => hxP (hvx ▸ hv)⟩⟩
  cliquish := by
    have hx : ∀ y ∈ P, H.Adj x y ∨ ∃ D, H.IsComponent (insert x P) D ∧
        x ∈ H.nbhd D ∧ y ∈ H.nbhd D := fun y hy =>
      hfull.isComponent.adj_or_shared mem_componentOf_self (hfull.nbhd_eq.superset hy)
    rintro u (rfl | hu) v (rfl | hv) huv
    · exact absurd rfl huv
    · exact hx v hv
    · exact (hx u hu).imp (fun hadj => hadj.symm) fun ⟨D, hD, h1, h2⟩ => ⟨D, hD, h2, h1⟩
    · rcases hP.cliquish u hu v hv huv with hadj | ⟨D, hD, huD, hvD⟩
      · exact Or.inl (h.le hadj)
      · -- The shared component is not `{x}`, since `x` is isolated in `G`.
        obtain ⟨-, d, hd, hdu⟩ := huD
        have hxD : x ∉ D := by
          intro hxD
          have hreach := (hD.connected x hxD d hd).mem_of_closed (A := {x}) rfl
            fun a ha b _ hab => absurd ha ((h a b).mp hab).2.1
          exact ((h d u).mp hdu).2.1 hreach
        have hnb : ∀ w, w ∈ G.nbhd D → w ∈ H.nbhd D := fun w hw =>
          ((h.mem_nbhd_iff hxD).mp hw).1
        exact Or.inr ⟨D, (h.isComponent_insert_iff hxD).mpr hD,
          hnb u ⟨fun hmem => hD.notMem u hmem hu, d, hd, hdu⟩, hnb v hvD⟩

end VertexAdded

/-- A minimal separator with the component of `x` full is extended by `x`, unless
the result has a full component. -/
theorem IsMinimalSeparator.isPmc_extend (hS : H.IsMinimalSeparator S) (hxS : x ∉ S)
    (hx : H.IsFullComponent S (H.componentOf S x))
    (hfull : ∀ D, ¬H.IsFullComponent (insert x S) D) : H.IsPmc (insert x S) where
  no_full := fun D hD heq => hfull D ⟨hD, heq⟩
  cliquish := by
    have hxy : ∀ y ∈ S, H.Adj x y ∨ ∃ D, H.IsComponent (insert x S) D ∧
        x ∈ H.nbhd D ∧ y ∈ H.nbhd D := fun y hy =>
      hx.isComponent.adj_or_shared mem_componentOf_self (hx.nbhd_eq.superset hy)
    -- A full component without `x`.
    obtain ⟨A, hA, hxA⟩ : ∃ A, H.IsFullComponent S A ∧ x ∉ A := by
      obtain ⟨A, B, hAB, hA, hB⟩ := hS
      by_cases hxA : x ∈ A
      · exact ⟨B, hB, fun hxB => hAB (hA.eq_of_mem hB hxA hxB)⟩
      · exact ⟨A, hA, hxA⟩
    have hAx : H.IsComponent (insert x S) A := by
      refine hA.isComponent.of_nbhd_subset ?_ ?_
      · rw [hA.nbhd_eq]
        exact Set.subset_insert x S
      · rintro v hv (hvx | hvS)
        · exact hxA (hvx ▸ hv)
        · exact hA.notMem hv hvS
    rintro u (rfl | hu) v (rfl | hv) huv
    · exact absurd rfl huv
    · exact hxy v hv
    · exact (hxy u hu).imp (fun hadj => hadj.symm) fun ⟨D, hD, h1, h2⟩ => ⟨D, hD, h2, h1⟩
    · exact Or.inr ⟨A, hAx, hA.nbhd_eq ▸ hu, hA.nbhd_eq ▸ hv⟩

namespace VertexAdded

/-! ## Every clique is kept or built -/

/-- The rest of a potential maximal clique that contains `x`. -/
theorem isFullComponent_of_mem (hΩ : H.IsPmc (insert x P)) (hxP : x ∉ P) :
    H.IsFullComponent P (H.componentOf P x) := by
  have hK := isComponent_componentOf (G := H) hxP
  refine ⟨hK, Set.Subset.antisymm hK.nbhd_subset fun y hy => ?_⟩
  refine mem_nbhd_componentOf hxP hy (hΩ.cliquish x (Or.inl rfl) y (Or.inr hy) ?_)
  exact fun hxy => hxP (hxy ▸ hy)

/-- A potential maximal clique that contains `x` extends one of `G` or a minimal
separator of `H`. -/
theorem cases_of_mem (h : G.VertexAdded H x) (hΩ : H.IsPmc (insert x P))
    (hxP : x ∉ P) (hadj : H.Adj x w) :
    G.IsPmc P ∨ H.IsMinimalSeparator P := by
  have hxfull := isFullComponent_of_mem hΩ hxP
  -- `x` is not a potential maximal clique of its own.
  have hne : P.Nonempty := by
    by_contra hP
    rw [Set.not_nonempty_iff_eq_empty] at hP
    subst hP
    have hw : w ∉ insert x (∅ : Set V) := by
      rintro (hwx | hw)
      · exact hadj.ne hwx.symm
      · exact hw
    have hD := isComponent_componentOf (G := H) hw
    refine hΩ.no_full _ hD (Set.Subset.antisymm hD.nbhd_subset ?_)
    rintro v (rfl | hv)
    · exact ⟨fun hmem => hD.notMem v hmem (Or.inl rfl), w, mem_componentOf_self,
        hadj.symm⟩
    · cases hv
  by_cases hfull : ∃ D, G.IsComponent P D ∧ G.nbhd D = P
  · right
    obtain ⟨D, hD, hN⟩ := hfull
    obtain ⟨y, hy⟩ := hne
    have hxD : x ∉ D := by
      intro hxD
      rw [← hN] at hy
      obtain ⟨-, d, hd, hdy⟩ := hy
      have hreach := (hD.connected x hxD d hd).mem_of_closed (A := {x}) rfl
        fun a ha b _ hab => absurd ha ((h a b).mp hab).2.1
      exact ((h d y).mp hdy).2.1 hreach
    have hDH := (h.isComponent_insert_iff hxD).mpr hD
    have hND : H.nbhd D = P := by
      ext v
      constructor
      · intro hv
        rcases hDH.nbhd_subset hv with hvx | hvP
        · -- Otherwise `D` would be full for the whole clique.
          exfalso
          refine hΩ.no_full D hDH (Set.Subset.antisymm hDH.nbhd_subset ?_)
          rintro z (rfl | hz)
          · exact hvx ▸ hv
          · exact ((h.mem_nbhd_iff hxD).mp (hN ▸ hz)).1
        · exact hvP
      · intro hv
        exact ((h.mem_nbhd_iff hxD).mp (hN ▸ hv)).1
    refine ⟨H.componentOf P x, D, ?_, hxfull, ?_, hND⟩
    · intro heq
      exact hxD (heq ▸ mem_componentOf_self)
    · exact hDH.of_nbhd_subset hND.subset hD.notMem
  · left
    push Not at hfull
    refine ⟨hfull, fun u hu v hv huv => ?_⟩
    have hne' : ∀ w ∈ P, w ≠ x := fun w hw hwx => hxP (hwx ▸ hw)
    rcases hΩ.cliquish u (Or.inr hu) v (Or.inr hv) huv with huv' | ⟨D, hD, huD, hvD⟩
    · exact Or.inl ((h u v).mpr ⟨huv', hne' u hu, hne' v hv⟩)
    · have hxD : x ∉ D := fun hmem => hD.notMem x hmem (Or.inl rfl)
      exact Or.inr ⟨D, (h.isComponent_insert_iff hxD).mp hD,
        (h.mem_nbhd_iff hxD).mpr ⟨huD, hne' u hu⟩,
        (h.mem_nbhd_iff hxD).mpr ⟨hvD, hne' v hv⟩⟩

/-- Two vertices of `Ω` that share no component of `G` outside `Ω` are separated
by the other vertices of `Ω` and `x`. -/
theorem not_reachIn (h : G.VertexAdded H x) (hxΩ : x ∉ Ω) (hy : y ∈ Ω) (hz : z ∈ Ω)
    (hyz : y ≠ z) (hadj : ¬G.Adj y z)
    (hno : ∀ D, G.IsComponent Ω D → y ∈ G.nbhd D → z ∉ G.nbhd D) :
    ¬H.ReachIn (insert x (Ω \ {y, z}))ᶜ y z := by
  intro hreach
  have hne : ∀ v ∈ Ω, v ≠ x := fun v hv hvx => hxΩ (hvx ▸ hv)
  have hin : ∀ b, b ∈ (insert x (Ω \ {y, z}))ᶜ → b ≠ x ∧ (b ∈ Ω → b = y ∨ b = z) := by
    intro b hb
    refine ⟨fun hbx => hb (Or.inl hbx), fun hbΩ => ?_⟩
    by_contra hbyz
    exact hb (Or.inr ⟨hbΩ, hbyz⟩)
  -- From `y` only components of `G` next to `y` are reached.
  have hmem := hreach.mem_of_closed
    (A := {v | v = y ∨ (v ∉ Ω ∧ v ≠ x ∧ y ∈ G.nbhd (G.componentOf Ω v))})
    (Or.inl rfl) ?_
  · rcases hmem with hzy | hzΩ
    · exact hyz hzy.symm
    · exact hzΩ.1 hz
  rintro a ha b hb hab
  obtain ⟨hbx, hbΩ⟩ := hin b hb
  have hax : a ≠ x := by
    rcases ha with rfl | ha
    · exact hne a hy
    · exact ha.2.1
  have habG : G.Adj a b := (h a b).mpr ⟨hab, hax, hbx⟩
  by_cases hbmem : b ∈ Ω
  · rcases hbΩ hbmem with hby | hbz
    · exact Or.inl hby
    · exfalso
      subst hbz
      rcases ha with rfl | ⟨haΩ, -, haN⟩
      · exact hadj habG
      · have hD := isComponent_componentOf (G := G) haΩ
        exact hno _ hD haN ⟨fun hmem => hD.notMem b hmem hbmem, a,
          mem_componentOf_self, habG⟩
  · refine Or.inr ⟨hbmem, hbx, ?_⟩
    have hD := isComponent_componentOf (G := G) hbmem
    rcases ha with rfl | ⟨haΩ, -, haN⟩
    · exact ⟨fun hmem => hD.notMem a hmem hy, b, mem_componentOf_self, habG.symm⟩
    · have haD : a ∈ G.componentOf Ω b :=
        hD.closed b mem_componentOf_self a habG.symm haΩ
      rwa [hD.eq_componentOf haD]

/-- A potential maximal clique without `x` is one of `G` or is cut out by two
minimal separators, the first of them new. -/
theorem cases_of_notMem (h : G.VertexAdded H x) (hΩ : H.IsPmc Ω) (hxΩ : x ∉ Ω) :
    G.IsPmc Ω ∨ ∃ S T C, H.IsMinimalSeparator S ∧ x ∉ S ∧
      ¬G.IsMinimalSeparator S ∧ H.IsMinimalSeparator T ∧ H.IsComponent S C ∧
      Ω = S ∪ (T ∩ C) ∧ S ≠ Ω := by
  have hne : ∀ v ∈ Ω, v ≠ x := fun v hv hvx => hxΩ (hvx ▸ hv)
  have hno_full : ∀ D, G.IsComponent Ω D → G.nbhd D ≠ Ω := by
    intro D hD heq
    obtain ⟨d, hd⟩ := hD.nonempty
    have hE := isComponent_componentOf (G := H) (hD.notMem d hd)
    have hsub := (hD.connected.mono h.le).subset_componentOf hD.notMem hd
    refine hΩ.no_full _ hE (Set.Subset.antisymm hE.nbhd_subset fun v hv => ?_)
    obtain ⟨-, c, hc, hcv⟩ := (heq ▸ hv : v ∈ G.nbhd D)
    exact ⟨fun hmem => hE.notMem v hmem hv, c, hsub hc, h.le hcv⟩
  by_cases hcl : ∀ u ∈ Ω, ∀ v ∈ Ω, u ≠ v →
      G.Adj u v ∨ ∃ D, G.IsComponent Ω D ∧ u ∈ G.nbhd D ∧ v ∈ G.nbhd D
  · exact Or.inl ⟨hno_full, hcl⟩
  right
  push Not at hcl
  obtain ⟨y, hy, z, hz, hyz, hadj, hno⟩ := hcl
  -- The two vertices share only the component of `x`.
  have hadjH : ¬H.Adj y z := fun hH => hadj ((h y z).mpr ⟨hH, hne y hy, hne z hz⟩)
  obtain ⟨C, hC, hyC, hzC⟩ := (hΩ.cliquish y hy z hz hyz).resolve_left hadjH
  have hxC : x ∈ C := by
    by_contra hxC
    have hCG : G.IsComponent Ω C := ⟨hC.nonempty, hC.notMem,
      (h.isConnectedSet_iff hxC).mpr hC.connected,
      fun u hu v huv hv => hC.closed u hu v (h.le huv) hv⟩
    exact hno C hCG ((h.mem_nbhd_iff hxC).mpr ⟨hyC, hne y hy⟩)
      ((h.mem_nbhd_iff hxC).mpr ⟨hzC, hne z hz⟩)
  obtain ⟨w, hw, hwC⟩ := hΩ.exists_notMem_nbhd hC
  have hR := isComponent_componentOf (G := H) hwC
  set R := H.componentOf (H.nbhd C) w with hRdef
  have hwR : w ∈ R := mem_componentOf_self
  have hRN := hΩ.nbhd_rest hC hR hw hwR
  have hCR : C ≠ R := fun heq => hC.notMem w (heq ▸ hwR) hw
  have hxR : x ∉ R := fun hxR => hCR (hC.nbhd_self.eq_of_mem hR hxC hxR)
  have hrest : ∀ v ∈ Ω, v ∉ H.nbhd C → v ∈ R := fun v hv =>
    (hΩ.mem_or_adj_rest hC hR hw hwR hv).1
  have hS : H.IsMinimalSeparator (H.nbhd C) :=
    ⟨C, R, hCR, hC.isFullComponent, hR, hRN⟩
  obtain ⟨T, hTW, hT, hyT, hzT, hTsep⟩ := exists_isMinimalSeparator_subset
    (W := insert x (Ω \ {y, z}))
    (by rintro (hyx | hyΩ); exacts [hne y hy hyx, hyΩ.2 (Or.inl rfl)])
    (by rintro (hzx | hzΩ); exacts [hne z hz hzx, hzΩ.2 (Or.inr rfl)])
    (h.not_reachIn hxΩ hy hz hyz hadj hno)
  refine ⟨H.nbhd C, T, R, hS, fun hxS => hxS.1 hxC, ?_, hT, hR, ?_,
    fun heq => hwC (heq ▸ hw)⟩
  · -- A full component of `G` that misses `Ω` would be shared by `y` and `z`.
    have hfull : ∀ A, G.IsFullComponent (H.nbhd C) A → A = R := by
      intro A hA
      have hmeet : ∃ a ∈ A, a ∈ Ω := by
        by_contra hmiss
        push Not at hmiss
        have hAΩ := hA.isComponent.of_nbhd_subset
          (hA.nbhd_eq.subset.trans hC.nbhd_subset) hmiss
        exact hno A hAΩ (hA.nbhd_eq.superset hyC) (hA.nbhd_eq.superset hzC)
      obtain ⟨a, haA, haΩ⟩ := hmeet
      have hRG : G.IsComponent (H.nbhd C) R := ⟨hR.nonempty, hR.notMem,
        (h.isConnectedSet_iff hxR).mpr hR.connected,
        fun u hu v huv hv => hR.closed u hu v (h.le huv) hv⟩
      exact hA.isComponent.eq_of_mem hRG haA (hrest a haΩ (hA.notMem haA))
    rintro ⟨A, B, hAB, hA, hB⟩
    exact hAB ((hfull A hA).trans (hfull B hB).symm)
  · have hlink : ∀ u ∈ H.nbhd C, u ∉ T → ∀ v ∈ Ω, v ∉ H.nbhd C → v ∉ T →
        H.ReachIn Tᶜ u v := by
      intro u huC huT v hv hvC hvT
      have huv : u ≠ v := fun heq => hvC (heq ▸ huC)
      rcases hΩ.cliquish u (hC.nbhd_subset huC) v hv huv with huv' | ⟨D, hD, huD, hvD⟩
      · exact ReachIn.of_adj huv' hvT
      · -- The shared component is not `C`, so it avoids `x` and `T`.
        have hDT : ∀ d ∈ D, d ∈ Tᶜ := by
          intro d hd hdT
          rcases hTW hdT with rfl | hdΩ
          · exact hvC (hD.eq_of_mem hC hd hxC ▸ hvD)
          · exact hD.notMem d hd hdΩ.1
        obtain ⟨-, d, hd, hdu⟩ := huD
        obtain ⟨-, e, he, hev⟩ := hvD
        exact (ReachIn.head hdu.symm (hDT d hd)
          ((hD.connected d hd e he).mono_right hDT)).tail hev hvT
    apply Set.Subset.antisymm
    · intro v hv
      by_cases hvC : v ∈ H.nbhd C
      · exact Or.inl hvC
      · refine Or.inr ⟨?_, hrest v hv hvC⟩
        by_contra hvT
        have h1 := hlink y hyC hyT v hv hvC hvT
        have h2 := (hlink z hzC hzT v hv hvC hvT).symm hzT
        exact hTsep (h1.trans h2)
    · rintro v (hvC | ⟨hvT, hvR⟩)
      · exact hC.nbhd_subset hvC
      · rcases hTW hvT with rfl | hvΩ
        · exact absurd hvR hxR
        · exact hvΩ.1

end VertexAdded

end SimpleGraph
