import Triangulator.GraphTheory.Atoms

/-!
# The pieces behind the cut vertices of a filling order

The pieces that are cut off along a filling order are inseparable, and no piece lies in
another one, since every clique that is cut along has a full side among what is left.
They are therefore exactly the maximal inseparable sets.
-/

namespace SimpleGraph

variable {V : Type*} {G H : SimpleGraph V} {order pre post mid p q : List V}
  {A B C K P R S T X : Set V} {L : List (Set V)} {a b u v w x y z : V}

/-! ## Detours around a set behind a clique -/

/-- A walk that only leaves `C` through a clique need not enter `C`. -/
theorem ReachIn.avoid (hS : G.IsClique S)
    (hclosed : ∀ c ∈ C, ∀ w, w = u ∨ w ∈ X → G.Adj c w → w ∈ C ∨ w ∈ S) (hu : u ∉ C)
    (hv : v ∉ C) (h : G.ReachIn X u v) : G.ReachIn (X \ C) u v := by
  have hwalk : (v ∉ C → G.ReachIn (X \ C) u v) ∧
      (v ∈ C → ∃ s ∈ S, G.ReachIn (X \ C) u s) := by
    clear hv
    induction h with
    | refl => exact ⟨fun _ => ReachIn.refl u, fun huC => absurd huC hu⟩
    | @tail b c hub hstep ih =>
        by_cases hb : b ∈ C
        · obtain ⟨s, hs, hus⟩ := ih.2 hb
          refine ⟨fun hc => ?_, fun _ => ⟨s, hs, hus⟩⟩
          have hcS : c ∈ S := (hclosed b hb c (Or.inr hstep.2) hstep.1).resolve_left hc
          by_cases hsc : s = c
          · exact hsc ▸ hus
          · exact hus.tail (hS hs hcS hsc) ⟨hstep.2, hc⟩
        · have hub' := ih.1 hb
          refine ⟨fun hc => hub'.tail hstep.1 ⟨hstep.2, hc⟩, fun hc => ⟨b, ?_, hub'⟩⟩
          exact (hclosed c hc b (ReachIn.eq_or_mem hub) hstep.1.symm).resolve_left hb
  exact hwalk.1 hv

/-- A connected set inside `R` that is next to every vertex of `T`. -/
structure IsFullSide (G : SimpleGraph V) (T R D : Set V) : Prop where
  nonempty : D.Nonempty
  connected : G.IsConnectedSet D
  subset : D ⊆ R
  notMem : ∀ t ∈ T, t ∉ D
  adj : ∀ t ∈ T, ∃ d ∈ D, G.Adj d t

/-- After a component behind the clique `S` has been cut off, what is left of `T` still has
a full side, since `S` has one. -/
theorem IsFullSide.exists_sdiff {D E : Set V} (h : G.IsFullSide T R D)
    (hS : G.IsFullSide S (R \ C) E) (hclique : G.IsClique S)
    (hclosed : ∀ c ∈ C, ∀ w ∈ R, G.Adj c w → w ∈ C ∨ w ∈ S) (hT : T ⊆ R) :
    ∃ D', G.IsFullSide (T \ C) (R \ C) D' := by
  by_cases hDC : D ⊆ C
  · -- The cut hides the side; what is left of `T` lies in the clique.
    have hTS : ∀ t ∈ T \ C, t ∈ S := by
      intro t ht
      obtain ⟨d, hd, hdt⟩ := h.adj t ht.1
      exact (hclosed d (hDC hd) t (hT ht.1) hdt).resolve_left ht.2
    exact ⟨E, hS.nonempty, hS.connected, hS.subset, fun t ht => hS.notMem t (hTS t ht),
      fun t ht => hS.adj t (hTS t ht)⟩
  · obtain ⟨d₀, hd₀, hd₀C⟩ := Set.not_subset.mp hDC
    refine ⟨D \ C, ⟨d₀, hd₀, hd₀C⟩, ?_, fun d hd => ⟨h.subset hd.1, hd.2⟩,
      fun t ht hd => h.notMem t ht.1 hd.1, ?_⟩
    · intro u hu v hv
      apply ReachIn.avoid hclique _ hu.2 hv.2 (h.connected u hu.1 v hv.1)
      intro c hc w hw hcw
      apply hclosed c hc w _ hcw
      rcases hw with rfl | hw
      · exact h.subset hu.1
      · exact h.subset hw
    · intro t ht
      obtain ⟨d, hd, hdt⟩ := h.adj t ht.1
      by_cases hdC : d ∈ C
      · have htS : t ∈ S := (hclosed d hdC t (hT ht.1) hdt).resolve_left ht.2
        obtain ⟨c, hc, s, hsC, hsD, hcs⟩ := (h.connected d hd d₀ hd₀).exists_exit hdC hd₀C
        have hsS : s ∈ S := (hclosed c hc s (h.subset hsD) hcs).resolve_left hsC
        have hne : s ≠ t := by
          rintro rfl
          exact h.notMem s ht.1 hsD
        exact ⟨s, ⟨hsD, hsC⟩, hclique hsS htS hne⟩
      · exact ⟨d, ⟨hd, hdC⟩, hdt⟩

/-! ## Flagged vertices of a filling order -/

namespace IsFillingOrder

variable [Finite V] (h : G.IsFillingOrder H order)
include h

/-- A walk along the order from a vertex with its later neighbours in a clique stays among
these neighbours until it has passed a flagged vertex. -/
theorem adj_of_not_flagged (hsplit : order = pre ++ x :: (mid ++ post))
    (hx : H.later (mid ++ post) x ⊆ K)
    (hflag : ∀ p a q, x :: mid = p ++ a :: q → q ≠ [] → (a = x ∨ H.Adj x a) →
      H.later (q ++ post) a ⊆ K → ¬H.IsFlagged a (q ++ post)) :
    ∀ p w q, mid = p ++ w :: q → H.Adj x w ∧ H.later (q ++ post) w ⊆ K := by
  induction mid generalizing pre x with
  | nil =>
      intro p w q hmid
      exact absurd hmid.symm (List.append_ne_nil_of_right_ne_nil p (List.cons_ne_nil w q))
  | cons y mid ih =>
      have hunflagged := hflag [] x (y :: mid) rfl (List.cons_ne_nil y mid) (Or.inl rfl) hx
      rw [List.cons_append] at hsplit hx hunflagged
      obtain ⟨hadj, hlater⟩ := h.later_of_not_flagged hsplit hunflagged
      have hy : H.later (mid ++ post) y ⊆ K := by
        rw [← hlater]
        intro w hw
        exact hx ⟨hw.1, List.mem_cons_of_mem y hw.2⟩
      have hback : ∀ w ∈ mid, H.Adj y w → H.Adj x w := by
        intro w hw hyw
        have hmem : w ∈ H.later (mid ++ post) y := ⟨hyw, List.mem_append_left post hw⟩
        rw [← hlater] at hmem
        exact hmem.1
      have hysplit : order = (pre ++ [x]) ++ y :: (mid ++ post) := by
        rw [hsplit, List.append_assoc, List.singleton_append]
      have hrest := ih hysplit hy (by
        intro p a q heq hq ha hqK
        apply hflag (x :: p) a q (by rw [heq, List.cons_append]) hq (Or.inr _) hqK
        rcases ha with rfl | hya
        · exact hadj
        · apply hback a _ hya
          have hmem : a ∈ y :: mid := by
            rw [heq]
            exact List.mem_append_right p List.mem_cons_self
          exact (List.mem_cons.mp hmem).resolve_left hya.ne')
      intro p w q hmid
      cases p with
      | nil =>
          obtain ⟨rfl, rfl⟩ := List.cons.inj hmid
          exact ⟨hadj, hy⟩
      | cons c p =>
          have htail : mid = p ++ w :: q := (List.cons.inj hmid).2
          obtain ⟨hyw, hqK⟩ := hrest p w q htail
          refine ⟨hback w ?_ hyw, hqK⟩
          rw [htail]
          exact List.mem_append_right p List.mem_cons_self

/-- Behind a flagged vertex some other vertex sees all its later neighbours. -/
theorem exists_adj_later (hsplit : order = pre ++ x :: post) (hx : H.IsFlagged x post) :
    ∃ w ∈ post, w ∉ H.later post x ∧ ∀ s ∈ H.later post x, H.Adj w s := by
  obtain ⟨y, post', hpost, hle⟩ := hx
  by_cases hempty : ∃ s ∈ post, s ∈ H.later post x
  swap
  · refine ⟨y, hpost ▸ List.mem_cons_self, fun hy => hempty ⟨y, hy.2, hy⟩, ?_⟩
    intro s hs
    exact absurd ⟨s, hs.2, hs⟩ hempty
  obtain ⟨p, a, q, hpq, ha, hp⟩ := exists_first_split hempty
  have hperfect := h.isPerfectElimination
  have hasplit : order = (pre ++ x :: p) ++ a :: q := by
    rw [hsplit, hpq, List.append_assoc, List.cons_append]
  have haq := (h.notMem_of_split hasplit).2
  have hrest : ∀ s ∈ H.later post x, s ≠ a → s ∈ H.later q a := by
    intro s hs hsa
    have hsmem := hs.2
    rw [Set.mem_ofPred_eq, hpq, List.mem_append, List.mem_cons] at hsmem
    have hsq : s ∈ q := (hsmem.resolve_left fun hsp => hp s hsp hs).resolve_left hsa
    exact ⟨hperfect.simplicial pre x post hsplit ⟨ha.1, ha.2⟩ ⟨hs.1, hs.2⟩ hsa.symm, hsq⟩
  by_cases hout : ∃ w ∈ H.later q a, w ∉ H.later post x
  · -- A later neighbour of the first member of the clique.
    obtain ⟨w, hw, hwS⟩ := hout
    refine ⟨w, ?_, hwS, ?_⟩
    · rw [hpq]
      exact List.mem_append_right p (List.mem_cons_of_mem a hw.2)
    · intro s hs
      by_cases hsa : s = a
      · exact hsa ▸ hw.1.symm
      · have hsw : w ≠ s := by
          rintro rfl
          exact hwS hs
        exact hperfect.simplicial _ a q hasplit ⟨hw.1, hw.2⟩ (hrest s hs hsa) hsw
  · -- Otherwise the vertex in front of that member.
    push Not at hout
    have hset : H.later post x = insert a (H.later q a) := by
      apply Set.Subset.antisymm
      · intro s hs
        by_cases hsa : s = a
        · exact Or.inl hsa
        · exact Or.inr (hrest s hs hsa)
      · intro s hs
        rcases hs with rfl | hs
        · exact ha
        · exact hout s hs
    have hdeg : H.degreeIn post x = H.degreeIn q a + 1 := by
      change (H.later post x).ncard = (H.later q a).ncard + 1
      rw [hset, Set.ncard_insert_of_notMem (fun hmem => haq hmem.2) (Set.toFinite _)]
    rcases List.eq_nil_or_concat p with rfl | ⟨p', b, rfl⟩
    · rw [List.nil_append, hpost] at hpq
      obtain ⟨rfl, rfl⟩ := List.cons.inj hpq
      rw [hdeg] at hle
      exact absurd hle (Nat.not_succ_le_self _)
    · have hbsplit : order = (pre ++ x :: p') ++ b :: a :: q := by
        rw [hasplit]
        simp
      have hxset : H.later (a :: q) x = H.later post x := by
        apply Set.Subset.antisymm
        · intro s hs
          refine ⟨hs.1, ?_⟩
          rw [Set.mem_ofPred_eq, hpq]
          exact List.mem_append_right _ hs.2
        · intro s hs
          refine ⟨hs.1, ?_⟩
          rw [hset] at hs
          rcases hs with rfl | hs
          · exact List.mem_cons_self
          · exact List.mem_cons_of_mem a hs.2
      have hmax := h.maximal _ b (a :: q) hbsplit x
        (List.mem_append_right _ List.mem_cons_self)
      have hflag : ¬H.IsFlagged b (a :: q) := by
        rintro ⟨c, r, hcons, hle'⟩
        obtain ⟨rfl, rfl⟩ := List.cons.inj hcons
        have hx' : H.degreeIn (a :: q) x = H.degreeIn q a + 1 := by
          change (H.later (a :: q) x).ncard = _
          rw [hxset]
          exact hdeg
        rw [hx'] at hmax
        exact Nat.not_succ_le_self _ (hmax.trans hle')
      obtain ⟨hba, hlater⟩ := h.later_of_not_flagged hbsplit hflag
      refine ⟨b, ?_, hp b (by simp), ?_⟩
      · rw [hpq]
        simp
      · intro s hs
        rw [hset] at hs
        rcases hs with rfl | hs
        · exact hba
        · rw [← hlater] at hs
          exact hs.1

end IsFillingOrder

/-! ## The pieces along the order -/

/-- What holds of the vertices `B` cut off in the pieces of `L`, after the vertices of `pre`
have been examined. -/
structure PieceInv (G H : SimpleGraph V) (order pre : List V) (B : Set V)
    (L : List (Set V)) : Prop where
  reroute : ∀ X u v, u ∉ B → v ∉ B → G.ReachIn X u v → G.ReachIn (X \ B) u v
  before : ∀ w ∈ B, ∀ v, v ∉ B → H.Adj w v → ∀ p q, order = p ++ v :: q → w ∈ p
  cut_mem : ∀ p y q, order = p ++ y :: q → y ∈ pre → G.IsCut H y q → y ∈ B
  inseparable : ∀ A ∈ L, G.IsInseparable A
  meets : ∀ A ∈ L, ∃ v ∈ A, v ∈ B
  full : ∀ A ∈ L, ∃ D, G.IsFullSide (A \ B) Bᶜ D
  antichain : L.Pairwise fun A A' => ¬A ⊆ A' ∧ ¬A' ⊆ A

theorem PieceInv.init (G H : SimpleGraph V) (order : List V) :
    G.PieceInv H order [] ∅ [] where
  reroute := by simp
  before := by simp
  cut_mem := by simp
  inseparable := by simp
  meets := by simp
  full := by simp
  antichain := List.Pairwise.nil

namespace PieceInv

/-- Nothing is cut off at a vertex that is not a cut vertex. -/
theorem skip (hP : G.PieceInv H order pre B L) (hnd : order.Nodup)
    (hsplit : order = pre ++ x :: post) (hx : ¬G.IsCut H x post) :
    G.PieceInv H order (pre ++ [x]) B L := by
  refine ⟨hP.reroute, hP.before, ?_, hP.inseparable, hP.meets, hP.full, hP.antichain⟩
  intro p y q hq hy hcut
  rcases List.mem_append.mp hy with hy | hy
  · exact hP.cut_mem p y q hq hy hcut
  · rw [List.mem_singleton] at hy
    subst hy
    rw [hsplit, List.nodup_middle, List.nodup_cons, List.mem_append, not_or] at hnd
    have heq := hsplit.symm.trans hq
    rw [List.append_cons_inj_of_notMem hnd.1.1 hnd.1.2] at heq
    exact absurd (heq.2.2 ▸ hcut) hx

variable [Finite V] (h : G.IsFillingOrder H order)
include h

/-- The last vertex that is left of a component behind a clique has all its later
neighbours in the clique. -/
theorem later_subset (hP : G.PieceInv H order pre B L) (hK : G.IsClique K) (ha : a ∉ K)
    (hsplit : order = p ++ z :: q) (hz : z ∈ G.componentOf K a) (hzB : z ∉ B)
    (hlast : ∀ t ∈ q, ¬(t ∈ G.componentOf K a ∧ t ∉ B)) : H.later q z ⊆ K := by
  intro t ht
  have hcomp : G.IsComponent K (G.componentOf K a) := isComponent_componentOf ha
  have hmin := h.isMinimalTriangulation
  rcases hmin.mem_or_mem_nbhd (hK.mono_graph hmin.le) hcomp hz ht.1 with htC | htN
  · exfalso
    have htB : t ∈ B := by
      by_contra htB
      exact hlast t ht.2 ⟨htC, htB⟩
    have htp := hP.before t htB z hzB ht.1.symm p q hsplit
    have hnd := h.nodup
    rw [hsplit, List.nodup_append] at hnd
    exact hnd.2.2 t htp t (List.mem_cons_of_mem z ht.2) rfl
  · exact hcomp.nbhd_subset htN

/-- Behind that vertex every vertex lies in the clique, up to the next one that has not been
examined. -/
theorem mem_of_last (hP : G.PieceInv H order pre B L) (hK : G.IsClique K) (ha : a ∉ K)
    (hsplit : order = p ++ z :: (mid ++ q)) (hz : z ∈ G.componentOf K a) (hzB : z ∉ B)
    (hlast : ∀ t ∈ mid ++ q, ¬(t ∈ G.componentOf K a ∧ t ∉ B))
    (hpre : ∀ s w r, z :: mid = s ++ w :: r → r ≠ [] → w ∈ pre) :
    ∀ s w r, mid = s ++ w :: r → w ∈ K ∧ H.later (r ++ q) w ⊆ K := by
  have hzK := later_subset h hP hK ha hsplit hz hzB hlast
  have hwalk := h.adj_of_not_flagged hsplit hzK (by
    intro s w r hw hr hadj hlater hflag
    -- A flagged vertex on the way has been cut off before.
    obtain ⟨p', hp'⟩ : ∃ p', order = p' ++ w :: (r ++ q) := by
      refine ⟨p ++ s, ?_⟩
      have hcons : z :: (mid ++ q) = s ++ w :: (r ++ q) := by
        rw [← List.cons_append, hw, List.append_assoc, List.cons_append]
      rw [hsplit, hcons, List.append_assoc]
    have hwB := hP.cut_mem p' w _ hp' (hpre s w r hw hr) ⟨hflag, hK.subset hlater⟩
    rcases hadj with rfl | hadj
    · exact hzB hwB
    · have hwp := hP.before w hwB z hzB hadj.symm p _ hsplit
      have hwmem : w ∈ z :: mid := by
        rw [hw]
        exact List.mem_append_right s List.mem_cons_self
      have hnd := h.nodup
      rw [hsplit, List.nodup_append, ← List.cons_append] at hnd
      exact hnd.2.2 w hwp w (List.mem_append_left q hwmem) rfl)
  intro s w r hw
  obtain ⟨hadj, hlater⟩ := hwalk s w r hw
  refine ⟨hzK ⟨hadj, ?_⟩, hlater⟩
  rw [Set.mem_ofPred_eq, hw]
  exact List.mem_append_left q (List.mem_append_right s List.mem_cons_self)

omit [Finite V] h in
/-- The last member of a list outside a set. -/
theorem eq_of_tail_subset {l m p' m' : List V} {z' : V} (hl : l = p ++ z :: m)
    (hl' : l = p' ++ z' :: m') (hm : ∀ w ∈ m, w ∈ K) (hm' : ∀ w ∈ m', w ∈ K) (hz : z ∉ K)
    (hz' : z' ∉ K) : z = z' := by
  classical
  have hfilter : ∀ {p m : List V} {z : V}, l = p ++ z :: m → (∀ w ∈ m, w ∈ K) → z ∉ K →
      l.filter (fun w => w ∉ K) = p.filter (fun w => w ∉ K) ++ [z] := by
    intro p m z hl hm hz
    rw [hl, List.filter_append, List.filter_cons_of_pos (by simpa using hz)]
    congr 2
    rw [List.filter_eq_nil_iff]
    intro w hw
    simpa using hm w hw
  have heq := (hfilter hl hm hz).symm.trans (hfilter hl' hm' hz')
  exact (List.append_inj' heq rfl).2 |> List.singleton_inj.mp

/-- What is left at the end is inseparable. -/
theorem inseparable_rest (hP : G.PieceInv H order order B L) : G.IsInseparable Bᶜ := by
  intro K hK u hu huK v hv hvK
  have htail : ∀ a, a ∉ B → a ∉ K → ∃ p z q, order = p ++ z :: q ∧
      z ∈ G.componentOf K a ∧ ∀ w ∈ q, w ∈ K := by
    intro a haB haK
    obtain ⟨p, z, q, hsplit, ⟨hz, hzB⟩, hlast⟩ := exists_last_split
      (P := fun t => t ∈ G.componentOf K a ∧ t ∉ B) ⟨a, h.mem a, mem_componentOf_self, haB⟩
    refine ⟨p, z, q, hsplit, hz, ?_⟩
    have hsplit' : order = p ++ z :: (q ++ []) := by
      rw [List.append_nil, hsplit]
    have hmid := mem_of_last h hP hK haK hsplit' hz hzB (by rwa [List.append_nil])
      fun s w r _ _ => h.mem w
    intro w hw
    obtain ⟨s, r, hsr⟩ := List.append_of_mem hw
    exact (hmid s w r hsr).1
  obtain ⟨p, z, q, hsplit, hz, hq⟩ := htail u hu huK
  obtain ⟨p', z', q', hsplit', hz', hq'⟩ := htail v hv hvK
  have hzK := (isComponent_componentOf huK).notMem z hz
  have hzK' := (isComponent_componentOf hvK).notMem z' hz'
  have heq := eq_of_tail_subset hsplit hsplit' hq hq' hzK hzK'
  subst heq
  have huv : G.ReachIn Kᶜ u v := ReachIn.trans hz (ReachIn.symm hz' hvK)
  apply (hP.reroute _ u v hu hv huv).mono_right
  exact fun w hw => ⟨hw.2, hw.1⟩

section Cut

variable (hI : G.CutInv H order pre B L) (hP : G.PieceInv H order pre B L)
  (hsplit : order = pre ++ x :: post) (hx : G.IsCut H x post)
include hI hP hsplit hx

omit hP hx in
theorem notMem_of_mem_post : ∀ w ∈ post, w ∉ B ∧ w ∉ pre ∧ w ≠ x ∧
    w ∉ G.componentOf (B ∪ H.later post x) x := by
  intro w hw
  have hnd := h.nodup
  rw [hsplit, List.nodup_append] at hnd
  have hpre : w ∉ pre := fun hmem => hnd.2.2 w hmem w (List.mem_cons_of_mem x hw) rfl
  have hne : w ≠ x := fun heq => (h.notMem_of_split hsplit).2 (heq ▸ hw)
  refine ⟨fun hB => hpre (hI.subset w hB), hpre, hne, fun hC => ?_⟩
  rcases h.componentOf_subset hsplit Set.subset_union_right w hC with heq | hmem
  · exact hne heq
  · exact hpre hmem

omit [Finite V] hP hx in
theorem isComponent_cut :
    G.IsComponent (B ∪ H.later post x) (G.componentOf (B ∪ H.later post x) x) := by
  apply isComponent_componentOf
  rintro (hB | hS)
  · exact (h.notMem_of_split hsplit).1 (hI.subset x hB)
  · exact notMem_later hS

/-- The piece behind a cut vertex is inseparable. -/
theorem inseparable_cut :
    G.IsInseparable (G.componentOf (B ∪ H.later post x) x ∪ H.later post x) := by
  set S := H.later post x with hS
  set C := G.componentOf (B ∪ S) x with hC
  have hcomp : G.IsComponent (B ∪ S) C := isComponent_cut h hI hsplit
  have hpost := notMem_of_mem_post h hI hsplit
  have hmin := h.isMinimalTriangulation
  have hCB : ∀ c ∈ C, c ∉ B := fun c hc hB => hcomp.notMem c hc (Or.inl hB)
  have hPB : ∀ c ∈ C ∪ S, c ∉ B := by
    rintro c (hc | hc)
    · exact hCB c hc
    · exact (hpost c hc.2).1
  intro K hK u hu huK v hv hvK
  -- A walk around the clique may be taken inside the piece.
  have hinside : G.ReachIn Kᶜ u v → G.ReachIn ((C ∪ S) \ K) u v := by
    intro huv
    have hR := hP.reroute _ u v (hPB u hu) (hPB v hv) huv
    apply (ReachIn.avoid (C := (B ∪ (C ∪ S))ᶜ) hx.clique _ _ _ hR).mono_right
    · rintro w ⟨⟨hwK, hwB⟩, hw⟩
      rw [Set.mem_compl_iff, not_not] at hw
      exact ⟨hw.resolve_left hwB, hwK⟩
    · intro c hc w hw hcw
      by_contra hno
      rw [not_or, Set.mem_compl_iff, not_not] at hno
      have hwB : w ∉ B := by
        rcases hw with rfl | hw
        · exact hPB w hu
        · exact hw.2
      have hwC : w ∈ C := ((hno.1.resolve_left hwB).resolve_right hno.2)
      apply hc
      by_cases hcS : c ∈ B ∪ S
      · exact hcS.imp id Or.inr
      · exact Or.inr (Or.inl (hcomp.closed w hwC c hcw.symm hcS))
    · exact fun hmem => hmem (Or.inr hu)
    · exact fun hmem => hmem (Or.inr hv)
  by_contra hno
  have hsep : ¬G.ReachIn Kᶜ u v := fun huv => hno (hinside huv)
  -- A component that does not reach the clique behind `x` ends in front of `x`.
  have htail : ∀ a ∈ C ∪ S, a ∉ K → (∀ t, t = x ∨ t ∈ S → t ∉ G.componentOf K a) →
      x ∈ K ∧ S ⊆ K ∧ ∃ p z m, pre = p ++ z :: m ∧ z ∈ G.componentOf K a ∧
        ∀ w ∈ m, w ∈ K := by
    intro a ha haK hfar
    have haC : a ∈ C := ha.resolve_right fun haS => hfar a (Or.inr haS) mem_componentOf_self
    have hCout : ∀ t ∈ G.componentOf K a, t ∉ B → t ∈ C := by
      intro t ht htB
      have hR := hP.reroute _ a t (hCB a haC) htB ht
      have hmem := hR.mem_of_closed (A := {w | w ∈ C ∧ w ∈ G.componentOf K a})
        ⟨haC, mem_componentOf_self⟩ ?_
      · exact hmem.1
      · rintro c ⟨hc, hca⟩ w ⟨hwK, hwB⟩ hcw
        have hwa : w ∈ G.componentOf K a := ReachIn.tail hca hcw hwK
        refine ⟨hcomp.closed c hc w hcw ?_, hwa⟩
        rintro (hB | hwS)
        · exact hwB hB
        · exact hfar w (Or.inr hwS) hwa
    obtain ⟨p, z, q, hzsplit, ⟨hz, hzB⟩, hlast⟩ := exists_last_split
      (P := fun t => t ∈ G.componentOf K a ∧ t ∉ B)
      ⟨a, h.mem a, mem_componentOf_self, hCB a haC⟩
    have hzx : z ≠ x := by
      rintro rfl
      exact hfar z (Or.inl rfl) hz
    have hzpre : z ∈ pre := (h.componentOf_subset hsplit Set.subset_union_right z
      (hCout z hz hzB)).resolve_left hzx
    obtain ⟨p', m, rfl⟩ := List.append_of_mem hzpre
    have hzsplit' : order = p' ++ z :: ((m ++ [x]) ++ post) := by
      rw [hsplit]
      simp
    obtain ⟨-, hq⟩ := h.split_unique hzsplit hzsplit'
    have hmid := mem_of_last h hP hK haK hzsplit' hz hzB (hq ▸ hlast) (by
      intro s w r hw hr
      obtain ⟨r', b, rfl⟩ := (List.eq_nil_or_concat r).resolve_left hr
      have hpre : z :: m = s ++ w :: r' := by
        have heq : (z :: m) ++ [x] = (s ++ w :: r') ++ [b] := by
          rw [List.cons_append, hw]
          simp
        exact (List.append_inj' heq rfl).1
      rw [List.mem_append, hpre]
      exact Or.inr (List.mem_append_right s List.mem_cons_self))
    obtain ⟨hxK, hSK⟩ := hmid m x [] rfl
    refine ⟨hxK, hSK, p', z, m, rfl, hz, ?_⟩
    intro w hw
    obtain ⟨s, r, rfl⟩ := List.append_of_mem hw
    exact (hmid s w (r ++ [x]) (by simp)).1
  -- The vertex `x` and the clique behind it lie in one component.
  have hone : (∀ t, t = x ∨ t ∈ S → t ∉ G.componentOf K u) ∨
      ∀ t, t = x ∨ t ∈ S → t ∉ G.componentOf K v := by
    by_contra hboth
    rw [not_or] at hboth
    push Not at hboth
    obtain ⟨⟨t, ht, htu⟩, s, hs, hsv⟩ := hboth
    apply hsep
    have hsK := (isComponent_componentOf hvK).notMem s hsv
    have hsu : s ∈ G.componentOf K u := by
      by_cases hts : t = s
      · exact hts ▸ htu
      · have hadj : H.Adj t s := by
          rcases ht with rfl | ht
          · rcases hs with rfl | hs
            · exact absurd rfl hts
            · exact hs.1
          · rcases hs with rfl | hs
            · exact ht.1.symm
            · exact hmin.le (hx.clique ht hs hts)
        rcases hmin.mem_or_mem_nbhd (hK.mono_graph hmin.le) (isComponent_componentOf huK) htu hadj
          with hmem | hN
        · exact hmem
        · exact absurd ((isComponent_componentOf huK).nbhd_subset hN) hsK
    exact ReachIn.trans hsu (ReachIn.symm hsv hvK)
  have hSK : x ∈ K ∧ S ⊆ K := by
    rcases hone with hfar | hfar
    · obtain ⟨hxK, hSK, -⟩ := htail u hu huK hfar
      exact ⟨hxK, hSK⟩
    · obtain ⟨hxK, hSK, -⟩ := htail v hv hvK hfar
      exact ⟨hxK, hSK⟩
  have hfar : ∀ a, a ∉ K → ∀ t, t = x ∨ t ∈ S → t ∉ G.componentOf K a := by
    intro a haK t ht hmem
    apply (isComponent_componentOf haK).notMem t hmem
    rcases ht with rfl | ht
    · exact hSK.1
    · exact hSK.2 ht
  -- Both components end with the last vertex in front of `x` that is not in the clique.
  obtain ⟨-, -, p, z, m, hpz, hz, hm⟩ := htail u hu huK (hfar u huK)
  obtain ⟨-, -, p', z', m', hpz', hz', hm'⟩ := htail v hv hvK (hfar v hvK)
  have heq := eq_of_tail_subset hpz hpz' hm hm' ((isComponent_componentOf huK).notMem z hz)
    ((isComponent_componentOf hvK).notMem z' hz')
  subst heq
  exact hsep (ReachIn.trans hz (ReachIn.symm hz' hvK))

/-- The clique behind a cut vertex has a full side among what is left. -/
theorem exists_isFullSide_cut : ∃ D, G.IsFullSide (H.later post x)
    (Bᶜ \ G.componentOf (B ∪ H.later post x) x) D := by
  set S := H.later post x with hS
  have hpost := notMem_of_mem_post h hI hsplit
  have hmin := h.isMinimalTriangulation
  obtain ⟨w, hw, hwS, hadj⟩ := h.exists_adj_later hsplit hx.flagged
  have hwBS : w ∉ B ∪ S := fun hmem => hmem.elim (hpost w hw).1 hwS
  have hD : G.IsComponent (B ∪ S) (G.componentOf (B ∪ S) w) := isComponent_componentOf hwBS
  have hC : G.IsComponent (B ∪ S) (G.componentOf (B ∪ S) x) := isComponent_cut h hI hsplit
  refine ⟨G.componentOf (B ∪ S) w, hD.nonempty, hD.connected, ?_, ?_, ?_⟩
  · intro d hd
    refine ⟨fun hB => hD.notMem d hd (Or.inl hB), fun hdx => ?_⟩
    have heq := hD.eq_of_mem hC hd hdx
    exact (hpost w hw).2.2.2 (heq ▸ mem_componentOf_self)
  · exact fun s hs hd => hD.notMem s hd (Or.inr hs)
  · intro s hs
    have hsB : s ∉ B := (hpost s hs.2).1
    -- An edge of the triangulation between `w` and the clique comes from a walk of the graph.
    have hwalk : G.ReachIn (insert s Sᶜ) w s := by
      rcases hmin.mem_or_mem_nbhd (hx.clique.mono_graph hmin.le)
        (isComponent_componentOf hwS) mem_componentOf_self (hadj s hs) with hmem | ⟨-, d, hd, hds⟩
      · exact absurd hs ((isComponent_componentOf hwS).notMem s hmem)
      · exact (ReachIn.mono_right (Set.subset_insert s Sᶜ) hd).tail hds (Set.mem_insert s Sᶜ)
    have hR := hP.reroute _ w s (hpost w hw).1 hsB hwalk
    obtain ⟨d, hd, b, hb, ⟨hbs, hbB⟩, hdb⟩ := hR.exists_exit
      (A := G.componentOf (B ∪ S) w) mem_componentOf_self fun hmem => hD.notMem s hmem (Or.inr hs)
    have hbS : b ∈ S := by
      by_contra hbS
      exact hb (hD.closed d hd b hdb fun hmem => hmem.elim hbB hbS)
    have hbs' : b = s := hbs.resolve_right fun hno => hno hbS
    exact ⟨d, hd, hbs' ▸ hdb⟩

/-- What has been cut off has no later neighbours among what is left. -/
theorem before_cut : ∀ w ∈ B ∪ G.componentOf (B ∪ H.later post x) x,
    ∀ v, v ∉ B ∪ G.componentOf (B ∪ H.later post x) x → H.Adj w v →
    ∀ p q, order = p ++ v :: q → w ∈ p := by
  set S := H.later post x with hS
  set C := G.componentOf (B ∪ S) x with hC
  have hcomp : G.IsComponent (B ∪ S) C := isComponent_cut h hI hsplit
  have hpost := notMem_of_mem_post h hI hsplit
  intro w hw v hv hadj p q hvsplit
  have hvB : v ∉ B := fun hB => hv (Or.inl hB)
  rcases hw with hw | hw
  · exact hP.before w hw v hvB hadj p q hvsplit
  by_contra hwp
  have hwpost : w ∉ post := fun hmem => (hpost w hmem).2.2.2 hw
  -- Otherwise `v` comes before `x`, and so does a walk from `w` to it.
  have hvpre : v ∈ pre := by
    have hvmem := h.mem v
    rw [hsplit, List.mem_append, List.mem_cons] at hvmem
    rcases hvmem with hvpre | rfl | hvpost
    · exact hvpre
    · exact absurd (Or.inr mem_componentOf_self) hv
    · obtain ⟨s, r, rfl⟩ := List.append_of_mem hvpost
      have hsplit' : order = (pre ++ x :: s) ++ v :: r := by
        rw [hsplit, List.append_assoc, List.cons_append]
      obtain ⟨rfl, -⟩ := h.split_unique hvsplit hsplit'
      exfalso
      apply hwp
      rw [List.mem_append, List.mem_cons]
      rcases h.componentOf_subset hsplit Set.subset_union_right w hw with hwx | hwpre
      · exact Or.inr (Or.inl hwx)
      · exact Or.inl hwpre
  have hppre : ∀ t ∈ p, t ∈ pre :=
    h.pre_subset hsplit hvsplit hvpre
  have hjoin : G.JoinedBy {u | u ∈ p} w v := by
    obtain ⟨r, s, hwsplit⟩ := List.append_of_mem (h.mem w)
    have hvr : v ∈ r := by
      have hwmem := h.mem w
      rw [hvsplit, List.mem_append, List.mem_cons] at hwmem
      have hwq : w ∈ q := (hwmem.resolve_left hwp).resolve_left hadj.ne
      obtain ⟨q₁, q₂, rfl⟩ := List.append_of_mem hwq
      have hwsplit' : order = (p ++ v :: q₁) ++ w :: q₂ := by
        rw [hvsplit, List.append_assoc, List.cons_append]
      obtain ⟨rfl, -⟩ := h.split_unique hwsplit hwsplit'
      exact List.mem_append_right p List.mem_cons_self
    exact h.joinedBy_of_adj hwsplit hvsplit hvr hadj
  obtain ⟨y, hwy, hyv⟩ := joinedBy_iff_reachIn.mp hjoin
  have hwalk : G.ReachIn (insert v {u | u ∈ p}) w v :=
    (hwy.mono_right (Set.subset_insert _ _)).tail hyv (Set.mem_insert _ _)
  have hR := hP.reroute _ w v (fun hB => hcomp.notMem w hw (Or.inl hB)) hvB hwalk
  apply hv
  right
  refine ReachIn.trans hw (hR.mono_right ?_)
  rintro t ⟨htp, htB⟩ (hB | htS)
  · exact htB hB
  · have htpre : t ∈ pre := by
      rcases htp with rfl | htp
      · exact hvpre
      · exact hppre t htp
    exact (hpost t htS.2).2.1 htpre

/-- The component in front of a cut vertex is cut off. -/
theorem cut : G.PieceInv H order (pre ++ [x]) (B ∪ G.componentOf (B ∪ H.later post x) x)
    (L ++ [G.componentOf (B ∪ H.later post x) x ∪ H.later post x]) := by
  have hinsep := inseparable_cut h hI hP hsplit hx
  have hside := exists_isFullSide_cut h hI hP hsplit hx
  have hbefore := before_cut h hI hP hsplit hx
  set S := H.later post x with hS
  set C := G.componentOf (B ∪ S) x with hC
  have hcomp : G.IsComponent (B ∪ S) C := isComponent_cut h hI hsplit
  have hpost := notMem_of_mem_post h hI hsplit
  have hclosed : ∀ c ∈ C, ∀ w, w ∉ B → G.Adj c w → w ∈ C ∨ w ∈ S := by
    intro c hc w hwB hcw
    by_cases hwS : w ∈ S
    · exact Or.inr hwS
    · exact Or.inl (hcomp.closed c hc w hcw fun hmem => hmem.elim hwB hwS)
  have hCB : ∀ c ∈ C, c ∉ B := fun c hc hB => hcomp.notMem c hc (Or.inl hB)
  have hcompl : (B ∪ C)ᶜ = Bᶜ \ C := by
    rw [Set.compl_union, Set.sdiff_eq]
  refine ⟨?_, hbefore, ?_, ?_, ?_, ?_, ?_⟩
  · intro X u v hu hv huv
    rw [Set.mem_union, not_or] at hu hv
    rw [← Set.sdiff_sdiff]
    apply ReachIn.avoid hx.clique _ hu.2 hv.2 (hP.reroute X u v hu.1 hv.1 huv)
    intro c hc w hw hcw
    apply hclosed c hc w _ hcw
    rcases hw with rfl | hw
    · exact hu.1
    · exact hw.2
  · intro p y q hq hy hcut
    rcases List.mem_append.mp hy with hy | hy
    · exact Or.inl (hP.cut_mem p y q hq hy hcut)
    · rw [List.mem_singleton] at hy
      subst hy
      exact Or.inr mem_componentOf_self
  · intro A hA
    rcases List.mem_append.mp hA with hA | hA
    · exact hP.inseparable A hA
    · rw [List.mem_singleton] at hA
      exact hA ▸ hinsep
  · intro A hA
    rcases List.mem_append.mp hA with hA | hA
    · obtain ⟨v, hvA, hvB⟩ := hP.meets A hA
      exact ⟨v, hvA, Or.inl hvB⟩
    · rw [List.mem_singleton] at hA
      exact ⟨x, hA ▸ Or.inl mem_componentOf_self, Or.inr mem_componentOf_self⟩
  · intro A hA
    obtain ⟨E, hE⟩ := hside
    rw [hcompl]
    rcases List.mem_append.mp hA with hA | hA
    · obtain ⟨D, hD⟩ := hP.full A hA
      rw [← Set.sdiff_sdiff]
      exact hD.exists_sdiff hE hx.clique hclosed fun t ht => ht.2
    · rw [List.mem_singleton] at hA
      subst hA
      have hsub : ∀ t ∈ (C ∪ S) \ (B ∪ C), t ∈ S := fun t ht =>
        ht.1.resolve_left fun hC => ht.2 (Or.inr hC)
      exact ⟨E, hE.nonempty, hE.connected, hE.subset, fun t ht => hE.notMem t (hsub t ht),
        fun t ht => hE.adj t (hsub t ht)⟩
  · rw [List.pairwise_append]
    refine ⟨hP.antichain, List.pairwise_singleton _ _, ?_⟩
    intro A hA A' hA'
    rw [List.mem_singleton] at hA'
    subst hA'
    constructor
    · intro hsub
      obtain ⟨v, hvA, hvB⟩ := hP.meets A hA
      rcases hsub hvA with hvC | hvS
      · exact hCB v hvC hvB
      · exact (hpost v hvS.2).1 hvB
    · intro hsub
      obtain ⟨D, hD⟩ := hP.full A hA
      have hAB : ∀ c ∈ C ∪ S, c ∈ A \ B := by
        intro c hc
        refine ⟨hsub hc, ?_⟩
        rcases hc with hc | hc
        · exact hCB c hc
        · exact (hpost c hc.2).1
      obtain ⟨d, hd, hdx⟩ := hD.adj x (hAB x (Or.inl mem_componentOf_self))
      have hdmem := hclosed x mem_componentOf_self d (hD.subset hd) hdx.symm
      exact hD.notMem d (hAB d hdmem) hd

end Cut

omit [Finite V] h in
/-- The pieces and the rest. -/
theorem antichain_rest (hP : G.PieceInv H order pre B L) :
    (L ++ [Bᶜ]).Pairwise fun A A' => ¬A ⊆ A' ∧ ¬A' ⊆ A := by
  rw [List.pairwise_append]
  refine ⟨hP.antichain, List.pairwise_singleton _ _, ?_⟩
  intro A hA A' hA'
  rw [List.mem_singleton] at hA'
  subst hA'
  constructor
  · intro hsub
    obtain ⟨v, hvA, hvB⟩ := hP.meets A hA
    exact hsub hvA hvB
  · intro hsub
    obtain ⟨D, hD⟩ := hP.full A hA
    obtain ⟨d, hd⟩ := hD.nonempty
    exact hD.notMem d ⟨hsub (hD.subset hd), hD.subset hd⟩ hd

end PieceInv

/-! ## Maximal inseparable sets -/

/-- An inseparable set lies in one piece of a decomposition. -/
theorem IsCliqueDecomposition.exists_subset (h : G.IsCliqueDecomposition R L)
    (hA : G.IsInseparable A) (hAR : A ⊆ R) : ∃ P ∈ L, A ⊆ P := by
  induction h with
  | @rest R _ _ => exact ⟨R, List.mem_singleton_self R, hAR⟩
  | @split R C S L hC _ hS hclique hclosed _ _ ih =>
      by_cases hAC : ∃ c ∈ A, c ∈ C
      · obtain ⟨c, hcA, hcC⟩ := hAC
        refine ⟨C ∪ S, List.mem_cons_self, ?_⟩
        intro v hv
        by_contra hno
        rw [Set.mem_union, not_or] at hno
        have hwalk := hA S hclique c hcA (fun hcS => (hS hcS).2 hcC) v hv hno.2
        apply hno.1
        apply hwalk.mem_of_closed hcC
        intro a ha b hb hab
        exact (hclosed a ha b (hAR hb.1) hab).resolve_right hb.2
      · obtain ⟨P, hP, hAP⟩ := ih fun v hv => ⟨hAR hv, fun hvC => hAC ⟨v, hv, hvC⟩⟩
        exact ⟨P, List.mem_cons_of_mem _ hP, hAP⟩

theorem IsInseparable.isConnectedSet (h : G.IsInseparable A) : G.IsConnectedSet A := by
  intro u hu v hv
  have hwalk := h ∅ (Set.pairwise_empty _) u hu (Set.notMem_empty u) v hv (Set.notMem_empty v)
  rwa [Set.sdiff_empty] at hwalk

theorem IsClique.isInseparable (hA : G.IsClique A) : G.IsInseparable A := by
  intro S _ u hu _ v hv hvS
  by_cases huv : u = v
  · exact huv ▸ ReachIn.refl u
  · exact ReachIn.of_adj (hA hu hv huv) ⟨hv, hvS⟩

/-- A list of inseparable sets none of which lies in another and that cover every
inseparable set. -/
structure AreAtoms (G : SimpleGraph V) (L : List (Set V)) : Prop where
  nonempty : ∀ A ∈ L, A.Nonempty
  inseparable : ∀ A ∈ L, G.IsInseparable A
  antichain : L.Pairwise fun A A' => ¬A ⊆ A' ∧ ¬A' ⊆ A
  cover : ∀ A, G.IsInseparable A → ∃ P ∈ L, A ⊆ P

namespace AreAtoms

variable (hL : G.AreAtoms L)
include hL

theorem nodup : L.Nodup :=
  hL.antichain.imp fun hne heq => hne.1 heq.subset

theorem eq_of_subset {A' : Set V} (hA : A ∈ L) (hA' : A' ∈ L) (hsub : A ⊆ A') : A = A' := by
  by_contra hne
  have : Std.Symm fun A A' : Set V => ¬A ⊆ A' ∧ ¬A' ⊆ A := ⟨fun _ _ => And.symm⟩
  exact (hL.antichain.forall hA hA' hne).1 hsub

/-- A graph that no clique separates is its only piece. -/
theorem length_eq_one (hsep : G.IsInseparable Set.univ) : L.length = 1 := by
  obtain ⟨P, hP, huniv⟩ := hL.cover _ hsep
  have hall : ∀ A ∈ L, A = P := fun A hA =>
    hL.eq_of_subset hA hP ((Set.subset_univ A).trans huniv)
  have hrep := List.eq_replicate_of_mem hall
  have hnd := hL.nodup
  rw [hrep, List.nodup_replicate] at hnd
  exact le_antisymm hnd (List.length_pos_of_mem hP)

/-- The pieces that satisfy an upward closed property are the maximal connected inseparable
sets that satisfy it. -/
theorem mem_iff_maximal {Q : Set V → Prop} (hQ : ∀ A A', Q A → A ⊆ A' → Q A') :
    A ∈ L ∧ Q A ↔
      Maximal (fun A => Q A ∧ G.IsConnectedSet A ∧ G.IsInseparable A) A := by
  constructor
  · rintro ⟨hA, hQA⟩
    have hinsep := hL.inseparable A hA
    refine ⟨⟨hQA, hinsep.isConnectedSet, hinsep⟩, ?_⟩
    intro A' hA' hsub
    obtain ⟨P, hP, hA'P⟩ := hL.cover A' hA'.2.2
    have heq := hL.eq_of_subset hA hP (hsub.trans hA'P)
    rw [heq]
    exact hA'P
  · intro hA
    obtain ⟨P, hP, hAP⟩ := hL.cover A hA.1.2.2
    have hinsep := hL.inseparable P hP
    have hPA : P ⊆ A := hA.2 ⟨hQ A P hA.1.1 hAP, hinsep.isConnectedSet, hinsep⟩ hAP
    have heq := Set.Subset.antisymm hAP hPA
    exact ⟨heq ▸ hP, hA.1.1⟩

/-- The pieces with a single vertex are the isolated vertices. -/
theorem singleton_mem_iff : {v} ∈ L ↔ ∀ w, ¬G.Adj v w := by
  constructor
  · intro hv w hadj
    have hpair : G.IsInseparable {v, w} :=
      IsClique.isInseparable (SimpleGraph.isClique_pair.mpr fun _ => hadj)
    obtain ⟨P, hP, hsub⟩ := hL.cover _ hpair
    have heq := hL.eq_of_subset hv hP (by simpa using hsub (Set.mem_insert v {w}))
    have hw : w ∈ ({v} : Set V) := heq ▸ hsub (Set.mem_insert_of_mem v rfl)
    exact hadj.ne hw.symm
  · intro hiso
    obtain ⟨P, hP, hsub⟩ := hL.cover {v} (IsClique.isInseparable (Set.pairwise_singleton _ _))
    have hvP : v ∈ P := hsub rfl
    have heq : P = {v} := by
      apply Set.Subset.antisymm _ hsub
      intro w hw
      by_contra hne
      obtain ⟨a, rfl, b, -, -, hab⟩ := ((hL.inseparable P hP).isConnectedSet v hvP w hw).exists_exit
        (A := {v}) rfl hne
      exact hiso b hab
    exact heq ▸ hP

end AreAtoms

end SimpleGraph
